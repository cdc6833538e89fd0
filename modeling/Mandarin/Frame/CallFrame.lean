import Mandarin.Frame.FrameLowering
import Mathlib.Logic.Relation

/-! # Call-frame pseudo instructions

A call stands between `ADJCALLSTACKDOWN` and `ADJCALLSTACKUP` until the pseudos are
eliminated. In a function with objects of variable size an instruction is built for
a pseudo, but it is built in the function and never put into the block, so all that
elimination does to a block is to erase the pseudos.
-/

namespace Mandarin.Frame

variable {ι : Type}

/-! ## Elimination -/

/-- A pseudo with its immediates, an instruction that frame lowering has built or any
other instruction. -/
inductive BlockInstr (ι : Type) where
  | ADJCALLSTACKDOWN (amt : Word)
  | ADJCALLSTACKUP (amt1 amt2 : Word)
  | built (i : MachineInstr)
  | other (i : ι)
  deriving DecidableEq, Repr

namespace BlockInstr

def amount? : BlockInstr ι → Option Word
  | ADJCALLSTACKDOWN amt | ADJCALLSTACKUP amt _ => some amt
  | built _ | other _ => none

def isDown : BlockInstr ι → Bool
  | ADJCALLSTACKDOWN _ => true
  | _ => false

def withoutPseudos (MBB : List (BlockInstr ι)) : List (BlockInstr ι) :=
  MBB.filter fun MI => MI.amount?.isNone

end BlockInstr

open BlockInstr (withoutPseudos)

/-- A block and the instructions created in its function that are in no block. -/
structure BlockState (ι : Type) where
  MBB : List (BlockInstr ι)
  created : List MachineInstr

def hasReservedCallFrame (mf : MachineFunction) : Bool := !mf.frameInfo.hasVarSizedObjects

/-- `BuildMI` without a place in a block. -/
def BlockState.buildMI (s : BlockState ι) (i : MachineInstr) : BlockState ι :=
  { s with created := s.created ++ [i] }

def eliminateCallFramePseudoInstr (mf : MachineFunction) (s : BlockState ι) (I : Nat) :
    Option (BlockState ι) := do
  let MI ← s.MBB[I]?
  let amt ← MI.amount?
  let s :=
    if !hasReservedCallFrame mf then
      let Size := amt.toInt
      if Size ≠ 0 then
        if MI.isDown then s.buildMI ⟨.SUBri, [.reg (.gpr 30), .reg (.gpr 30), .imm Size]⟩
        else s.buildMI ⟨.ADDri, [.reg (.gpr 30), .reg (.gpr 30), .imm Size]⟩
      else s
    else s
  some { s with MBB := s.MBB.eraseIdx I }

def Eliminates (mf : MachineFunction) (s s' : BlockState ι) : Prop :=
  ∃ I, eliminateCallFramePseudoInstr mf s I = some s'

def Eliminated (mf : MachineFunction) (s s' : BlockState ι) : Prop :=
  Relation.ReflTransGen (Eliminates mf) s s' ∧ ∀ MI ∈ s'.MBB, MI.amount? = none

/-! ## What elimination leaves -/

/-- A step erases a pseudo and does nothing else to the block. -/
theorem Eliminates.erases {mf : MachineFunction} {s s' : BlockState ι} (h : Eliminates mf s s') :
    ∃ front MI amt back, MI.amount? = some amt ∧ s.MBB = front ++ MI :: back ∧
      s'.MBB = front ++ back := by
  obtain ⟨I, h⟩ := h
  unfold eliminateCallFramePseudoInstr at h
  obtain ⟨MI, hMI, h⟩ := Option.bind_eq_some_iff.mp h
  obtain ⟨amt, hamt, h⟩ := Option.bind_eq_some_iff.mp h
  obtain ⟨hlt, hget⟩ := List.getElem?_eq_some_iff.mp hMI
  have hMBB : s'.MBB = s.MBB.eraseIdx I := by
    rw [← Option.some.inj h]
    dsimp only
    split
    · split
      · split <;> rfl
      · rfl
    · rfl
  refine ⟨s.MBB.take I, MI, amt, s.MBB.drop (I + 1), hamt, ?_, ?_⟩
  · rw [← hget, ← List.drop_eq_getElem_cons hlt, List.take_append_drop]
  · rw [hMBB, List.eraseIdx_eq_take_drop_succ]

theorem Eliminates.withoutPseudos_eq {mf : MachineFunction} {s s' : BlockState ι}
    (h : Eliminates mf s s') : withoutPseudos s'.MBB = withoutPseudos s.MBB := by
  obtain ⟨front, MI, amt, back, hamt, hs, hs'⟩ := h.erases
  unfold withoutPseudos
  rw [hs, hs', List.filter_append, List.filter_append, List.filter_cons]
  simp [hamt]

theorem withoutPseudos_of_run {mf : MachineFunction} {s s' : BlockState ι}
    (h : Relation.ReflTransGen (Eliminates mf) s s') :
    withoutPseudos s'.MBB = withoutPseudos s.MBB := by
  induction h with
  | refl => rfl
  | tail _ hstep ih => rw [hstep.withoutPseudos_eq, ih]

theorem Eliminated.MBB_eq {mf : MachineFunction} {s s' : BlockState ι} (h : Eliminated mf s s') :
    s'.MBB = withoutPseudos s.MBB := by
  have hdone : withoutPseudos s'.MBB = s'.MBB := by
    unfold withoutPseudos
    rw [List.filter_eq_self]
    intro MI hMI
    rw [h.2 MI hMI]
    rfl
  rw [← hdone]
  exact withoutPseudos_of_run h.1

theorem exists_eliminated (mf : MachineFunction) (s : BlockState ι) :
    ∃ s', Eliminated mf s s' := by
  generalize hn : s.MBB.length = n
  induction n generalizing s with
  | zero =>
      refine ⟨s, .refl, ?_⟩
      rw [List.length_eq_zero_iff.mp hn]
      intro MI hMI
      cases hMI
  | succ n ih =>
      by_cases hnone : ∀ MI ∈ s.MBB, MI.amount? = none
      · exact ⟨s, .refl, hnone⟩
      · push Not at hnone
        obtain ⟨MI, hMI, hsome⟩ := hnone
        obtain ⟨amt, hamt⟩ := Option.ne_none_iff_exists'.mp hsome
        obtain ⟨I, hI⟩ := List.getElem?_of_mem hMI
        have hlt := (List.getElem?_eq_some_iff.mp hI).1
        obtain ⟨t, ht⟩ : ∃ t, eliminateCallFramePseudoInstr mf s I = some t := by
          simp [eliminateCallFramePseudoInstr, hI, hamt]
        have hstep : Eliminates mf s t := ⟨I, ht⟩
        have hlen : t.MBB.length = n := by
          obtain ⟨front, MI', amt', back, _, hs, ht'⟩ := hstep.erases
          rw [hs, List.length_append, List.length_cons] at hn
          rw [ht', List.length_append]
          omega
        obtain ⟨s', hrun, hdone⟩ := ih t hlen
        exact ⟨s', .head hstep hrun, hdone⟩

/-! ## What the pseudos mean -/

/-- Pseudos in pairs of equal amounts, with call sequences inside one another or not. -/
inductive Paired : List (BlockInstr ι) → Prop where
  | nil : Paired []
  | other (i : ι) {rest : List (BlockInstr ι)} (tail : Paired rest) : Paired (.other i :: rest)
  | call (n amt2 : Word) {body rest : List (BlockInstr ι)} (inner : Paired body)
      (tail : Paired rest) :
      Paired (.ADJCALLSTACKDOWN n :: (body ++ .ADJCALLSTACKUP n amt2 :: rest))

/-- The instruction moves the stack pointer by `n` bytes in the direction in which the
prologue allocates, and changes nothing else. -/
def Allocates (i : MachineInstr) (n : Word) : Prop :=
  ∀ m, i.exec m = some (m.setReg (.gpr 30) (m.sp + n))

/-- The block `b'` does with instructions what `b` says with pseudos: between the two
of a pair the stack pointer is `n` bytes further, behind them it is back. -/
inductive Kept (mf : MachineFunction) : List (BlockInstr ι) → List (BlockInstr ι) → Prop where
  | nil : Kept mf [] []
  | other (i : ι) {rest rest' : List (BlockInstr ι)} (tail : Kept mf rest rest') :
      Kept mf (.other i :: rest) (.other i :: rest')
  | vanish (n amt2 : Word) (h : hasReservedCallFrame mf = true ∨ n = 0)
      {body body' rest rest' : List (BlockInstr ι)} (inner : Kept mf body body')
      (tail : Kept mf rest rest') :
      Kept mf (.ADJCALLSTACKDOWN n :: (body ++ .ADJCALLSTACKUP n amt2 :: rest)) (body' ++ rest')
  | move (n amt2 : Word) (hvar : hasReservedCallFrame mf = false) (h0 : n ≠ 0)
      {i j : MachineInstr} (down : Allocates i n) (up : Allocates j (-n))
      {body body' rest rest' : List (BlockInstr ι)} (inner : Kept mf body body')
      (tail : Kept mf rest rest') :
      Kept mf (.ADJCALLSTACKDOWN n :: (body ++ .ADJCALLSTACKUP n amt2 :: rest))
        (.built i :: (body' ++ .built j :: rest'))

def NoAdjustment (MBB : List (BlockInstr ι)) : Prop :=
  ∀ MI ∈ MBB, ∀ amt, MI.amount? = some amt → amt = 0

theorem noAdjustment_call {n amt2 : Word} {body rest : List (BlockInstr ι)} :
    NoAdjustment (.ADJCALLSTACKDOWN n :: (body ++ .ADJCALLSTACKUP n amt2 :: rest)) ↔
      n = 0 ∧ NoAdjustment body ∧ NoAdjustment rest := by
  unfold NoAdjustment
  simp only [List.mem_cons, List.mem_append, or_imp, forall_and, forall_eq]
  simp only [BlockInstr.amount?, Option.some.injEq, forall_eq']
  constructor
  · intro h
    exact ⟨h.1, h.2.1, h.2.2.2⟩
  · intro h
    exact ⟨h.1, h.2.1, h.1, h.2.2⟩

theorem withoutPseudos_call (n amt2 : Word) (body rest : List (BlockInstr ι)) :
    withoutPseudos (.ADJCALLSTACKDOWN n :: (body ++ .ADJCALLSTACKUP n amt2 :: rest)) =
      withoutPseudos body ++ withoutPseudos rest := by
  simp [withoutPseudos, BlockInstr.amount?]

theorem Paired.not_built {MBB : List (BlockInstr ι)} (h : Paired MBB) (i : MachineInstr) :
    .built i ∉ MBB := by
  induction h with
  | nil => exact List.not_mem_nil
  | other j _ ih => simpa using ih
  | call n amt2 _ _ ihbody ihrest => simp [ihbody, ihrest]

/-- Without an instruction in place of a pseudo nothing may have to be adjusted. -/
theorem Kept.noAdjustment {mf : MachineFunction} {b b' : List (BlockInstr ι)} (h : Kept mf b b')
    (hbuilt : ∀ i, .built i ∉ b') : hasReservedCallFrame mf = true ∨ NoAdjustment b := by
  induction h with
  | nil => exact .inr fun MI hMI => by cases hMI
  | other i _ ih =>
      cases ih fun j hj => hbuilt j (List.mem_cons_of_mem _ hj) with
      | inl hreserved => exact .inl hreserved
      | inr hrest =>
          right
          intro MI hMI amt hamt
          cases hMI with
          | head => cases hamt
          | tail _ hMI => exact hrest MI hMI amt hamt
  | vanish n amt2 hn _ _ ihbody ihrest =>
      cases hn with
      | inl hreserved => exact .inl hreserved
      | inr h0 =>
          have hbody := ihbody fun j hj => hbuilt j (List.mem_append_left _ hj)
          have hrest := ihrest fun j hj => hbuilt j (List.mem_append_right _ hj)
          rw [noAdjustment_call]
          grind
  | move n amt2 _ _ _ _ _ _ _ _ => exact absurd List.mem_cons_self (hbuilt _)

theorem Paired.kept {mf : MachineFunction} {MBB : List (BlockInstr ι)} (h : Paired MBB)
    (hnone : hasReservedCallFrame mf = true ∨ NoAdjustment MBB) :
    Kept mf MBB (withoutPseudos MBB) := by
  induction h with
  | nil => exact .nil
  | other i _ ih =>
      apply Kept.other i
      apply ih
      cases hnone with
      | inl hreserved => exact .inl hreserved
      | inr hzero => exact .inr fun MI hMI => hzero MI (List.mem_cons_of_mem _ hMI)
  | call n amt2 _ _ ihbody ihrest =>
      rw [noAdjustment_call] at hnone
      rw [withoutPseudos_call]
      apply Kept.vanish n amt2
      · exact hnone.imp_right fun h => h.1
      · exact ihbody (hnone.imp_right fun h => h.2.1)
      · exact ihrest (hnone.imp_right fun h => h.2.2)

/-- Elimination comes to an end. It leaves all other instructions in order, and keeps the
meaning of the pseudos exactly when the call frame is reserved or they adjust by nothing. -/
theorem callFrame_kept_iff {mf : MachineFunction} {s : BlockState ι} (h : Paired s.MBB) :
    (∃ s', Eliminated mf s s') ∧
      ∀ s', Eliminated mf s s' → s'.MBB = withoutPseudos s.MBB ∧
        (Kept mf s.MBB s'.MBB ↔ mf.frameInfo.hasVarSizedObjects = false ∨ NoAdjustment s.MBB) := by
  have hreserved : hasReservedCallFrame mf = true ↔ mf.frameInfo.hasVarSizedObjects = false := by
    simp [hasReservedCallFrame]
  refine ⟨exists_eliminated mf s, ?_⟩
  intro s' hrun
  have hleft := hrun.MBB_eq
  refine ⟨hleft, ?_⟩
  rw [hleft, ← hreserved]
  constructor
  · intro hkept
    apply hkept.noAdjustment
    intro i hi
    exact h.not_built i (List.mem_filter.mp hi).1
  · exact h.kept

/-! ## A call with one word on the stack -/

def variableFrame : MachineFunction := ⟨⟨0, true, false, fun _ => 0⟩, false⟩

def oneWordCall : BlockState Unit :=
  ⟨[.ADJCALLSTACKDOWN 4, .other (), .ADJCALLSTACKUP 4 0], []⟩

/-- Behind elimination both instructions exist, and neither is in the block. -/
def oneWordCallLeft : BlockState Unit :=
  ⟨[.other ()],
    [⟨.SUBri, [.reg (.gpr 30), .reg (.gpr 30), .imm 4]⟩,
     ⟨.ADDri, [.reg (.gpr 30), .reg (.gpr 30), .imm 4]⟩]⟩

theorem paired_oneWordCall : Paired oneWordCall.MBB := .call 4 0 (.other () .nil) .nil

theorem eliminated_oneWordCall : Eliminated variableFrame oneWordCall oneWordCallLeft := by
  constructor
  · exact .head ⟨0, rfl⟩ (.single ⟨1, rfl⟩)
  · intro MI hMI
    rw [List.mem_singleton.mp hMI]
    rfl

theorem callFrame_kept_oneWordCall :
    oneWordCallLeft.MBB = withoutPseudos oneWordCall.MBB ∧
      (Kept variableFrame oneWordCall.MBB oneWordCallLeft.MBB ↔
        variableFrame.frameInfo.hasVarSizedObjects = false ∨ NoAdjustment oneWordCall.MBB) :=
  (callFrame_kept_iff paired_oneWordCall).2 oneWordCallLeft eliminated_oneWordCall

/-- The stack pointer is not moved for the word. -/
theorem oneWordCall_not_kept :
    Paired oneWordCall.MBB ∧ Eliminated variableFrame oneWordCall oneWordCallLeft ∧
      ¬ Kept variableFrame oneWordCall.MBB oneWordCallLeft.MBB := by
  refine ⟨paired_oneWordCall, eliminated_oneWordCall, ?_⟩
  intro hkept
  have hcases := hkept.noAdjustment fun i hi => by cases List.mem_singleton.mp hi
  cases hcases with
  | inl hreserved => cases hreserved
  | inr hzero =>
      have h4 := hzero (.ADJCALLSTACKDOWN 4) List.mem_cons_self 4 rfl
      exact absurd h4 (by decide)

end Mandarin.Frame
