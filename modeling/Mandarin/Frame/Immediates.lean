import Mandarin.Encoding.Instructions
import Mandarin.Frame.FrameIndex

/-! # Immediates of the frame code

`ADDri` and `SUBri` have an unsigned immediate of 14 bits. Selection patterns check
that range; the frame code adds the operand itself and does not. What the machine
adds is what it finds in the field, so a sequence does what it is meant to do when
its immediates are in range. Both the stack size and the offset of an object can
leave the range, and a negative offset always does.
-/

namespace Mandarin.Frame

open Encoding (InstDef)
open Packing

/-! ## The field -/

/-- The last form of the multiclass. -/
def ADDri : InstDef := Encoding.ADD.getLast (by decide)

def SUBri : InstDef := Encoding.SUB.getLast (by decide)

def imm14 (Inst : Word) : Word := Inst >>> 18

theorem imm14_Inst {d : InstDef} (hd : d.format = .Inst32MD3I) (dst src : Reg) (v : Word) :
    (imm14 (d.Inst [.reg dst, .reg src, .imm v])).toNat = v.toNat % 2 ^ 14 := by
  have hpacked : (d.Inst [.reg dst, .reg src, .imm v]).toNat =
      placeSum [(Encoding.flagInstSize, 1), (Encoding.operationField, d.operation.toNat),
        (⟨8, 5⟩, (Encoding.HWEncoding dst).val), (⟨13, 5⟩, (Encoding.HWEncoding src).val),
        (⟨18, 14⟩, v.toNat)] := by
    unfold InstDef.Inst
    rw [hd]
    exact toNat_pack (Encoding.ascending_fields .Inst32MD3I)
  simp only [placeSum_cons, placeSum_nil, Encoding.flagInstSize, Encoding.operationField,
    Slice.place] at hpacked
  have hop := d.operation.isLt
  rw [imm14, BitVec.toNat_ushiftRight, Nat.shiftRight_eq_div_pow, hpacked]
  omega

/-! ## Encoded instructions -/

/-- The register of an operand when `ρ` places the virtual registers. -/
def physReg (ρ : Nat → Fin 32) : Register → Reg
  | .gpr n => .R n
  | .vreg n => .R (ρ n)

def addSub? (i : MachineInstr) : Option (InstDef × Register × Register × Int) :=
  match i.opcode, i.operands with
  | .ADDri, [.reg dst, .reg src, .imm v] => some (ADDri, dst, src, v)
  | .SUBri, [.reg dst, .reg src, .imm v] => some (SUBri, dst, src, v)
  | _, _ => none

/-- The instruction as the machine executes it: the immediate comes from its field. -/
def decoded (ρ : Nat → Fin 32) (i : MachineInstr) : MachineInstr :=
  match addSub? i with
  | some (d, dst, src, v) =>
      { i with
        operands := [.reg dst, .reg src, .imm (imm14 (d.Inst
          [.reg (physReg ρ dst), .reg (physReg ρ src), .imm (BitVec.ofInt 32 v)])).toNat] }
  | none => i

/-- An immediate of an addition or subtraction is in the range of its field. -/
def ImmFits (i : MachineInstr) : Prop :=
  ∀ d dst src v, addSub? i = some (d, dst, src, v) → 0 ≤ v ∧ v < 2 ^ 14

theorem addSub?_spec {i : MachineInstr} {d : InstDef} {dst src : Register} {v : Int}
    (h : addSub? i = some (d, dst, src, v)) :
    d.format = .Inst32MD3I ∧ i.operands = [.reg dst, .reg src, .imm v] := by
  obtain ⟨opcode, operands⟩ := i
  unfold addSub? at h
  split at h
  · next hops =>
    cases h
    exact ⟨rfl, hops⟩
  · next hops =>
    cases h
    exact ⟨rfl, hops⟩
  · cases h

theorem decoded_of_fits (ρ : Nat → Fin 32) {i : MachineInstr} (h : ImmFits i) : decoded ρ i = i := by
  unfold decoded
  cases hi : addSub? i with
  | none => rfl
  | some p =>
      obtain ⟨d, dst, src, v⟩ := p
      obtain ⟨hformat, hops⟩ := addSub?_spec hi
      obtain ⟨hlo, hhi⟩ := h d dst src v hi
      have himm : ((imm14 (d.Inst [.reg (physReg ρ dst), .reg (physReg ρ src),
          .imm (BitVec.ofInt 32 v)])).toNat : Int) = v := by
        rw [imm14_Inst hformat, BitVec.toNat_ofInt]
        omega
      obtain ⟨opcode, operands⟩ := i
      simp only [himm]
      exact congrArg _ hops.symm

theorem map_decoded_of_fits (ρ : Nat → Fin 32) {is : List MachineInstr} (h : ∀ i ∈ is, ImmFits i) :
    is.map (decoded ρ) = is := by
  rw [List.map_congr_left fun i hi => decoded_of_fits ρ (h i hi)]
  exact List.map_id is

/-! ## The frame code -/

theorem immFits_iff {i : MachineInstr} {d : InstDef} {dst src : Register} {v : Int}
    (h : addSub? i = some (d, dst, src, v)) : ImmFits i ↔ 0 ≤ v ∧ v < 2 ^ 14 := by
  constructor
  · intro hfits
    exact hfits d dst src v h
  · intro hv d' dst' src' v' h'
    rw [h] at h'
    cases h'
    exact hv

theorem immFits_of_none {i : MachineInstr} (h : addSub? i = none) : ImmFits i := by
  intro d dst src v hsome
  rw [h] at hsome
  cases hsome

theorem emitPrologue_fits_iff (mf : MachineFunction) :
    (∀ i ∈ emitPrologue mf, ImmFits i) ↔ mf.frameInfo.stackSize < 2 ^ 14 := by
  have hsave : ∀ i ∈ (if hasFP mf then
      [⟨.STORELri, [.reg (.gpr 31), .imm 0]⟩, ⟨.MOVrr, [.reg (.gpr 31), .reg (.gpr 30)]⟩]
      else []), ImmFits i := by
    intro i hi
    split at hi
    · simp only [List.mem_cons, List.not_mem_nil, or_false] at hi
      cases hi with
      | inl hstore =>
          subst hstore
          exact immFits_of_none rfl
      | inr hmove =>
          subst hmove
          exact immFits_of_none rfl
    · cases hi
  have hadd : ImmFits ⟨.ADDri, [.reg (.gpr 30), .reg (.gpr 30), .imm mf.frameInfo.stackSize]⟩ ↔
      mf.frameInfo.stackSize < 2 ^ 14 := by
    rw [immFits_iff rfl]
    omega
  unfold emitPrologue
  rw [List.forall_mem_append]
  by_cases h0 : mf.frameInfo.stackSize = 0
  · rw [if_neg (not_not.mpr h0), h0]
    exact iff_of_true ⟨hsave, fun i hi => by cases hi⟩ (by decide)
  · rw [if_pos h0, List.forall_mem_singleton, hadd]
    exact and_iff_right hsave

/-- The epilogue emits a subtraction only without objects of variable size. -/
theorem emitEpilogue_fits {mf : MachineFunction} (h : mf.frameInfo.stackSize < 2 ^ 14) :
    ∀ i ∈ emitEpilogue mf, ImmFits i := by
  have hsub : ImmFits ⟨.SUBri, [.reg (.gpr 30), .reg (.gpr 30), .imm mf.frameInfo.stackSize]⟩ := by
    rw [immFits_iff rfl]
    omega
  intro i hi
  unfold emitEpilogue at hi
  cases List.mem_append.mp hi with
  | inl hload =>
      split at hload
      · rw [List.mem_singleton.mp hload]
        exact immFits_of_none rfl
      · cases hload
  | inr hrestore =>
      split at hrestore
      · rw [List.mem_singleton.mp hrestore]
        exact immFits_of_none rfl
      · split at hrestore
        · rw [List.mem_singleton.mp hrestore]
          exact hsub
        · cases hrestore

/-- The offset added for a frame index, read as an unsigned word, is below `2 ^ 14`. -/
def ObjectInRange (mf : MachineFunction) (fi : Int) : Prop :=
  (mf.frameInfo.objectOffset fi + if hasFP mf then 0 else (mf.frameInfo.stackSize : Int)) % 2 ^ 32 <
    2 ^ 14

instance (mf : MachineFunction) (fi : Int) : Decidable (ObjectInRange mf fi) :=
  inferInstanceAs (Decidable (_ < _))

theorem objectInRange_iff (mf : MachineFunction) (fi : Int) :
    ObjectInRange mf fi ↔ 0 ≤ frameOffset mf fi ∧ frameOffset mf fi < 2 ^ 14 := by
  obtain ⟨hmod, hlo, hhi⟩ := toInt32_spec (mf.frameInfo.objectOffset fi)
  unfold ObjectInRange frameOffset
  by_cases hfp : hasFP mf = true
  · simp only [hfp, ↓reduceIte, Bool.not_true, Bool.false_eq_true]
    omega
  · simp only [hfp, Bool.false_eq_true, ↓reduceIte, Bool.not_false]
    obtain ⟨hmod', hlo', hhi'⟩ :=
      toInt32_spec (toInt32 (mf.frameInfo.objectOffset fi) + mf.frameInfo.stackSize)
    omega

theorem eliminateFrameIndex_fits_iff (mf : MachineFunction) (fi : Int) (VReg : Nat) :
    (∀ i ∈ (eliminateFrameIndex mf fi VReg).1, ImmFits i) ↔ ObjectInRange mf fi := by
  rw [objectInRange_iff]
  unfold eliminateFrameIndex
  generalize frameOffset mf fi = Offset
  by_cases h0 : Offset = 0
  · simp [h0]
  · by_cases hpos : Offset > 0
    · simp only [ne_eq, h0, not_false_eq_true, ↓reduceIte, hpos, List.forall_mem_singleton]
      exact immFits_iff rfl
    · simp only [ne_eq, h0, not_false_eq_true, ↓reduceIte, hpos, List.forall_mem_singleton]
      exact immFits_iff rfl

theorem run_eliminateFrameIndex {mf : MachineFunction} {fi : Int} (h : ObjectInRange mf fi)
    (VReg : Nat) (m : Machine) :
    (runInstrs (eliminateFrameIndex mf fi VReg).1 m).map
        (fun m => m.regs (eliminateFrameIndex mf fi VReg).2) =
      some (m.regs (getFrameRegister mf) + BitVec.ofInt 32 (frameOffset mf fi)) := by
  have hlo := ((objectInRange_iff mf fi).mp h).1
  unfold eliminateFrameIndex getFrameRegister
  generalize frameOffset mf fi = Offset at hlo ⊢
  by_cases h0 : Offset = 0
  · subst h0
    simp [runInstrs]
  · have hpos : Offset > 0 := by omega
    simp [h0, hpos, runInstrs, MachineInstr.exec, Machine.value]

/-! ## The condition -/

/-- The instructions of a function with the frame indices `uses`, each with its
virtual register. -/
def frameCode (mf : MachineFunction) (uses : List (Int × Nat)) : List MachineInstr :=
  emitPrologue mf ++ uses.flatMap (fun u => (eliminateFrameIndex mf u.1 u.2).1) ++ emitEpilogue mf

/-- Every immediate is in range, and the encoded sequences move their registers by the
stack size and by the offsets. -/
structure FrameArithmeticFits (mf : MachineFunction) (uses : List (Int × Nat)) : Prop where
  fits : ∀ i ∈ frameCode mf uses, ImmFits i
  prologue : ∀ ρ m, runInstrs ((emitPrologue mf).map (decoded ρ)) m = some (afterPrologue mf m)
  epilogue : ∀ ρ m, runInstrs ((emitEpilogue mf).map (decoded ρ)) m = some (afterEpilogue mf m)
  object : ∀ ρ m, ∀ u ∈ uses,
    (runInstrs ((eliminateFrameIndex mf u.1 u.2).1.map (decoded ρ)) m).map
        (fun m => m.regs (eliminateFrameIndex mf u.1 u.2).2) =
      some (m.regs (getFrameRegister mf) + BitVec.ofInt 32 (frameOffset mf u.1))

theorem frameCode_fits_iff (mf : MachineFunction) (uses : List (Int × Nat)) :
    (∀ i ∈ frameCode mf uses, ImmFits i) ↔
      mf.frameInfo.stackSize < 2 ^ 14 ∧ ∀ u ∈ uses, ObjectInRange mf u.1 := by
  have huses : (∀ i ∈ uses.flatMap (fun u => (eliminateFrameIndex mf u.1 u.2).1), ImmFits i) ↔
      ∀ u ∈ uses, ObjectInRange mf u.1 := by
    rw [List.forall_mem_flatMap]
    exact forall₂_congr fun u _ => eliminateFrameIndex_fits_iff mf u.1 u.2
  unfold frameCode
  rw [List.forall_mem_append, List.forall_mem_append, emitPrologue_fits_iff, huses]
  constructor
  · intro h
    exact h.1
  · intro h
    exact ⟨h, emitEpilogue_fits h.1⟩

/-- The frame arithmetic fits exactly when the stack size and every offset in use are
below `2 ^ 14`. -/
theorem frameArithmeticFits_iff (mf : MachineFunction) (uses : List (Int × Nat)) :
    FrameArithmeticFits mf uses ↔
      mf.frameInfo.stackSize < 2 ^ 14 ∧ ∀ u ∈ uses, ObjectInRange mf u.1 := by
  rw [← frameCode_fits_iff]
  constructor
  · intro h
    exact h.fits
  · intro h
    have hrange := (frameCode_fits_iff mf uses).mp h
    unfold frameCode at h
    rw [List.forall_mem_append, List.forall_mem_append] at h
    obtain ⟨⟨hprologue, huses⟩, hepilogue⟩ := h
    constructor
    · exact (frameCode_fits_iff mf uses).mpr hrange
    · intro ρ m
      rw [map_decoded_of_fits ρ hprologue]
      exact run_emitPrologue mf m
    · intro ρ m
      rw [map_decoded_of_fits ρ hepilogue]
      exact run_emitEpilogue mf m
    · intro ρ m u hu
      rw [map_decoded_of_fits ρ ((eliminateFrameIndex_fits_iff mf u.1 u.2).mpr (hrange.2 u hu))]
      exact run_eliminateFrameIndex (hrange.2 u hu) u.2 m

def wideFrame : MachineFunction := ⟨⟨2 ^ 14, false, false, fun _ => 0⟩, false⟩

/-- The prologue's immediate does not fit. -/
theorem wideFrame_not_fits : ¬ FrameArithmeticFits wideFrame [] := by
  intro h
  have hsize := (emitPrologue_fits_iff wideFrame).mp fun i hi => h.fits i (by simp [frameCode, hi])
  exact absurd hsize (by decide)

end Mandarin.Frame
