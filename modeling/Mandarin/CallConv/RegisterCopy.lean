import Mandarin.CallConv.Returns

/-! # Copies between physical registers

`copyPhysReg` copies registers of one class by a move of the class. For a pair or a
quad it also accepts the first general register a vector argument arrives in, and
emits nothing on the belief that the lanes are in place. They are when the
destination starts with that register; the destination may be any other tuple.
-/

namespace Mandarin.CallConv

/-! ## The copies emitted -/

inductive MoveOpcode where
  | MOVrr | MOV2rr | MOV4rr
  deriving DecidableEq, Repr

structure Move where
  opcode : MoveOpcode
  dst : Reg
  src : Reg
  deriving DecidableEq, Repr

/-- `none` is the unreachable branch. -/
def copyPhysReg (DestReg SrcReg : Reg) : Option (List Move) :=
  if RegClass.GenericRegs.contains DestReg && RegClass.GenericRegs.contains SrcReg then
    some [⟨.MOVrr, DestReg, SrcReg⟩]
  else if RegClass.DoubleRegs.contains DestReg && RegClass.DoubleRegs.contains SrcReg then
    some [⟨.MOV2rr, DestReg, SrcReg⟩]
  else if RegClass.DoubleRegs.contains DestReg && (SrcReg == .R 0 || SrcReg == .R 2) then
    some []
  else if RegClass.QuadRegs.contains DestReg && RegClass.QuadRegs.contains SrcReg then
    some [⟨.MOV4rr, DestReg, SrcReg⟩]
  else if RegClass.QuadRegs.contains DestReg && SrcReg == .R 0 then some []
  else none

/-- All lanes of the source are read before one of the destination is written. -/
def Move.exec (regs : RegFile) (i : Move) : RegFile := writeReg regs i.dst (readReg regs i.src)

def runMoves (is : List Move) (regs : RegFile) : RegFile := is.foldl Move.exec regs

/-! ## What a copy is -/

/-- The lanes `DestReg` is copied from: those of the source, or as many general
registers from the source on as the destination has lanes. -/
def sourceLanes (DestReg : Reg) : Reg → List (Fin 32)
  | .R n => (List.range DestReg.lanes.length).map fun i => Fin.ofNat 32 (n + i)
  | SrcReg => SrcReg.lanes

/-- Every lane of the destination holds what its source lane held, and registers that
do not overlap the destination are unchanged. -/
structure Copied (DestReg SrcReg : Reg) (regs regs' : RegFile) : Prop where
  lanes : readReg regs' DestReg = (sourceLanes DestReg SrcReg).map regs
  others : ∀ r, r.overlaps DestReg = false → readReg regs' r = readReg regs r

/-- What `copyPhysReg` emits: a move in one class, or nothing between classes. -/
theorem copyPhysReg_cases {DestReg SrcReg : Reg} {is : List Move}
    (h : copyPhysReg DestReg SrcReg = some is) :
    (∃ opcode, is = [⟨opcode, DestReg, SrcReg⟩] ∧ sourceLanes DestReg SrcReg = SrcReg.lanes ∧
      SrcReg.lanes.length = DestReg.lanes.length ∧
      RegClass.GenericRegs.contains SrcReg = RegClass.GenericRegs.contains DestReg) ∨
    (is = [] ∧ RegClass.GenericRegs.contains DestReg = false ∧ DestReg.lanes ≠ [] ∧
      ∃ n, SrcReg = .R n) := by
  cases DestReg with
  | NoRegister => cases h
  | CC_FLAG => cases h
  | R d =>
      cases SrcReg with
      | R n =>
          cases h
          exact .inl ⟨_, rfl, by simp [sourceLanes, Reg.lanes], rfl, rfl⟩
      | NoRegister => cases h
      | CC_FLAG => cases h
      | RD n => cases h
      | RQ n => cases h
  | RD d =>
      cases SrcReg with
      | RD n =>
          cases h
          exact .inl ⟨_, rfl, rfl, rfl, rfl⟩
      | R n =>
          simp only [copyPhysReg, RegClass.contains, Bool.and_false, Bool.false_and, Bool.true_and,
            Bool.false_eq_true, ↓reduceIte] at h
          split at h <;> cases h
          exact .inr ⟨rfl, rfl, by simp [Reg.lanes], n, rfl⟩
      | NoRegister => cases h
      | CC_FLAG => cases h
      | RQ n => cases h
  | RQ d =>
      cases SrcReg with
      | RQ n =>
          cases h
          exact .inl ⟨_, rfl, rfl, rfl, rfl⟩
      | R n =>
          simp only [copyPhysReg, RegClass.contains, Bool.and_false, Bool.false_and, Bool.true_and,
            Bool.false_eq_true, ↓reduceIte] at h
          split at h <;> cases h
          exact .inr ⟨rfl, rfl, by simp [Reg.lanes], n, rfl⟩
      | NoRegister => cases h
      | CC_FLAG => cases h
      | RD n => cases h

theorem copied_exec {DestReg SrcReg : Reg} (hlanes : sourceLanes DestReg SrcReg = SrcReg.lanes)
    (hlen : SrcReg.lanes.length = DestReg.lanes.length) (opcode : MoveOpcode) (regs : RegFile) :
    Copied DestReg SrcReg regs (runMoves [⟨opcode, DestReg, SrcReg⟩] regs) := by
  constructor
  · rw [hlanes]
    apply readReg_writeReg
    rw [readReg, List.length_map, hlen]
  · intro r hr
    exact readReg_writeReg_of_not_overlaps hr regs _

theorem copied_nil_iff (DestReg SrcReg : Reg) :
    (∀ regs, Copied DestReg SrcReg regs (runMoves [] regs)) ↔
      DestReg.lanes = sourceLanes DestReg SrcReg := by
  constructor
  · intro h
    -- a register file that tells its registers apart
    have hinj : Function.Injective fun n : Fin 32 => BitVec.ofNat 32 n := by
      intro m n hmn
      have hval := congrArg BitVec.toNat hmn
      simp only [BitVec.toNat_ofNat] at hval
      omega
    exact hinj.list_map (h fun n => BitVec.ofNat 32 n).lanes
  · intro h regs
    refine ⟨?_, fun r _ => rfl⟩
    rw [← h]
    rfl

theorem lanes_eq_sourceLanes_iff {DestReg : Reg} (n : Fin 32)
    (h : RegClass.GenericRegs.contains DestReg = false) (hne : DestReg.lanes ≠ []) :
    DestReg.lanes = sourceLanes DestReg (.R n) ↔ DestReg.lanes.head? = some n := by
  cases DestReg with
  | NoRegister => exact absurd rfl hne
  | CC_FLAG => exact absurd rfl hne
  | R d => cases h
  | RD d => revert n d; decide
  | RQ d => revert n d; decide

/-- A tuple that is copied from a general register starts with it. -/
def InPlace (DestReg SrcReg : Reg) : Prop :=
  ∀ n, SrcReg = .R n → RegClass.GenericRegs.contains DestReg = false →
    DestReg.lanes.head? = some n

def Copies (DestReg SrcReg : Reg) (is : List Move) : Prop :=
  ∀ regs, Copied DestReg SrcReg regs (runMoves is regs)

/-- A copy copies exactly when the destination, if it is a tuple and the source is a
general register, starts with the source. -/
theorem copyPhysReg_copies_iff {DestReg SrcReg : Reg} {is : List Move}
    (h : copyPhysReg DestReg SrcReg = some is) :
    Copies DestReg SrcReg is ↔ InPlace DestReg SrcReg := by
  cases copyPhysReg_cases h with
  | inl hmove =>
      obtain ⟨opcode, rfl, hlanes, hlen, hclass⟩ := hmove
      apply iff_of_true
      · intro regs
        exact copied_exec hlanes hlen opcode regs
      · rintro n rfl hdest
        rw [hdest] at hclass
        cases hclass
  | inr hnone =>
      obtain ⟨rfl, hdest, hne, n, rfl⟩ := hnone
      rw [Copies, copied_nil_iff, lanes_eq_sourceLanes_iff n hdest hne]
      constructor
      · intro hhead m hm _
        cases hm
        exact hhead
      · intro hall
        exact hall n rfl hdest

theorem copyPhysReg_copies_first_pair : Copies (.RD 0) (.R 0) [] ↔ InPlace (.RD 0) (.R 0) :=
  copyPhysReg_copies_iff (by decide)

-- a pair is taken from `R0` to a register the allocator chooses
example : (lowerFormalArguments false [⟨.v2i32, ⟨false, 0, 0⟩, 0⟩]).map LoweredFormals.inVals =
    some [.copyFromReg (.R 0) .DoubleRegs .v2i32] := by decide

/-- If the choice is `RD1`, the pair is lost. -/
theorem copyPhysReg_loses_pair :
    copyPhysReg (.RD 1) (.R 0) = some [] ∧
      ¬ Copied (.RD 1) (.R 0) (fun n => BitVec.ofNat 32 n)
        (runMoves [] fun n => BitVec.ofNat 32 n) := by
  refine ⟨by decide, ?_⟩
  intro hcopied
  exact absurd hcopied.lanes (by decide)

end Mandarin.CallConv
