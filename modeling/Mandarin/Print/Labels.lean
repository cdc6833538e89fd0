import Mandarin.Select.Function

/-! # Omitted labels

The printer leaves out the label of a block that it takes to be reached by falling
through only. It looks at the number of predecessors and at the barrier flag of
the last terminator in the layout predecessor, not at the operands of branches. A
conditional jump to the next block therefore loses its label.
-/

namespace Mandarin.Print

open Branch (BlockId Inst Exit transferThen transferThen_cons)
open Select (layoutSucc)

variable {ι : Type}

/-- The part of a machine function the printer's predicate reads. -/
structure MachineFunction (ι : Type) where
  layout : List BlockId
  block : BlockId → List (Inst ι)
  preds : BlockId → List BlockId
  isLandingPad : BlockId → Bool

/-- `isBarrier` is set for `JMPi`, `JMPr` and `RET`. -/
def isBarrier : Inst ι → Bool
  | .JMPi _ | .JMPr _ | .RET => true
  | _ => false

/-- The destination operand of a branch to a block. -/
def target : Inst ι → Option BlockId
  | .JMPi dst | .JCCi dst _ => some dst
  | _ => none

def isIndirectBranch : Inst ι → Bool
  | .JMPr _ | .JCCr _ _ => true
  | _ => false

/-- Where the loop leaves `I`: instructions nearest to the end come first, and `none`
is `end()`. It stops at the front of the block even if that is no terminator. -/
def findTerminator : List (Inst ι) → Option (Inst ι)
  | [] => none
  | [i] => some i
  | i :: is => if i.isTerminator then some i else findTerminator is

def isLayoutSuccessor (f : MachineFunction ι) (Pred MBB : BlockId) : Bool :=
  layoutSucc f.layout Pred = some MBB

def isBlockOnlyReachableByFallthrough (f : MachineFunction ι) (MBB : BlockId) : Bool :=
  if f.isLandingPad MBB then false
  else
    match f.preds MBB with
    | [Pred] =>
        if !isLayoutSuccessor f Pred MBB then false
        else
          match findTerminator (f.block Pred).reverse with
          | none => true
          | some I => !isBarrier I
    | _ => false

/-! ## Control flow -/

def FallsThrough (block : List (Inst ι)) : Prop :=
  ∃ holds, transferThen holds block .fallOff = .fallOff

def BranchesTo (block : List (Inst ι)) (MBB : BlockId) : Prop := ∃ i ∈ block, target i = some MBB

/-- Predecessor lists that agree with branches and fall-throughs; where an indirect
branch goes is not known. -/
structure Consistent (f : MachineFunction ι) : Prop where
  branch : ∀ P ∈ f.layout, ∀ B, BranchesTo (f.block P) B → P ∈ f.preds B
  fall : ∀ P B, FallsThrough (f.block P) → layoutSucc f.layout P = some B → P ∈ f.preds B
  pred : ∀ B, ∀ P ∈ f.preds B, P ∈ f.layout ∧
    (BranchesTo (f.block P) B ∨ (FallsThrough (f.block P) ∧ layoutSucc f.layout P = some B) ∨
      ∃ i ∈ f.block P, isIndirectBranch i = true)

/-- The block falls through exactly when it has no barrier: all conditions may be
false. -/
theorem fallsThrough_iff {block : List (Inst ι)} :
    FallsThrough block ↔ ∀ i ∈ block, isBarrier i = false := by
  constructor
  · intro h
    rcases h with ⟨holds, h⟩
    induction block with
    | nil => simp
    | cons i is ih =>
        rw [transferThen_cons] at h
        have hcons : isBarrier i = false → transferThen holds is .fallOff = .fallOff →
            ∀ j ∈ i :: is, isBarrier j = false := by
          intro hi his j hj
          rcases List.mem_cons.mp hj with rfl | hj
          · exact hi
          · exact ih his j hj
        cases i with
        | other i => exact hcons rfl h
        | debugValue i => exact hcons rfl h
        | JMPi dst => cases h
        | JMPr r => cases h
        | RET => cases h
        | JCCi dst cc =>
            by_cases hcc : holds cc = true
            · simp [Inst.transfer, hcc] at h
            · simp only [Inst.transfer, hcc, Bool.false_eq_true, ↓reduceIte] at h
              exact hcons rfl h
        | JCCr r cc =>
            by_cases hcc : holds cc = true
            · simp [Inst.transfer, hcc] at h
            · simp only [Inst.transfer, hcc, Bool.false_eq_true, ↓reduceIte] at h
              exact hcons rfl h
  · intro h
    refine ⟨fun _ => false, ?_⟩
    induction block with
    | nil => rfl
    | cons i is ih =>
        have hi := h i (by simp)
        have his := ih fun j hj => h j (by simp [hj])
        rw [transferThen_cons, his]
        cases i with
        | other i => rfl
        | debugValue i => rfl
        | JCCi dst cc => rfl
        | JCCr r cc => rfl
        | JMPi dst => cases hi
        | JMPr r => cases hi
        | RET => cases hi

/-! ## What the loop finds -/

def lastTerminator (block : List (Inst ι)) : Option (Inst ι) :=
  block.reverse.find? Inst.isTerminator

theorem isBarrier_of_not_terminator {i : Inst ι} (h : i.isTerminator = false) :
    isBarrier i = false := by
  cases i <;> first | rfl | cases h

/-- Stopping at a front that is no terminator does not matter. -/
theorem findTerminator_isBarrier (is : List (Inst ι)) :
    ((findTerminator is).any isBarrier) = ((is.find? Inst.isTerminator).any isBarrier) := by
  induction is with
  | nil => rfl
  | cons i is ih =>
      by_cases hi : i.isTerminator = true
      · cases is <;> simp [findTerminator, hi]
      · have hi' : i.isTerminator = false := by simpa using hi
        cases is with
        | nil => simp [findTerminator, hi', isBarrier_of_not_terminator hi']
        | cons j is => simpa [findTerminator, hi'] using ih

theorem isBlockOnlyReachableByFallthrough_iff (f : MachineFunction ι) (MBB : BlockId) :
    isBlockOnlyReachableByFallthrough f MBB = true ↔
      f.isLandingPad MBB = false ∧ ∃ Pred, f.preds MBB = [Pred] ∧
        layoutSucc f.layout Pred = some MBB ∧
        (lastTerminator (f.block Pred)).any isBarrier = false := by
  have hfind : ∀ Pred, (match findTerminator (f.block Pred).reverse with
      | none => true
      | some I => !isBarrier I) = !(lastTerminator (f.block Pred)).any isBarrier := by
    intro Pred
    rw [lastTerminator, ← findTerminator_isBarrier]
    cases findTerminator (f.block Pred).reverse <;> rfl
  unfold isBlockOnlyReachableByFallthrough
  by_cases hpad : f.isLandingPad MBB = true
  · simp [hpad]
  · have hpad' : f.isLandingPad MBB = false := by simpa using hpad
    rw [if_neg hpad]
    cases hpreds : f.preds MBB with
    | nil => simp
    | cons Pred rest =>
        cases rest with
        | cons P rest => simp
        | nil =>
            simp only [hfind, isLayoutSuccessor, hpad', true_and]
            by_cases hsucc : layoutSucc f.layout Pred = some MBB
            · simp [hsucc]
            · simp [hsucc]

/-! ## When a label may be left out -/

/-- A block without a label is entered by falling through and no branch names it. -/
def LabelSafe (f : MachineFunction ι) (MBB : BlockId) : Prop :=
  isBlockOnlyReachableByFallthrough f MBB = true →
    (∃ Pred ∈ f.layout, layoutSucc f.layout Pred = some MBB ∧ FallsThrough (f.block Pred)) ∧
      ∀ P ∈ f.layout, ¬ BranchesTo (f.block P) MBB

/-- The only predecessor is the layout predecessor, which ends in a conditional branch
and contains a branch to the block or an instruction control never runs past. -/
def LosesLabel (f : MachineFunction ι) (MBB : BlockId) : Prop :=
  f.isLandingPad MBB = false ∧ ∃ Pred t, f.preds MBB = [Pred] ∧
    layoutSucc f.layout Pred = some MBB ∧ lastTerminator (f.block Pred) = some t ∧
    isBarrier t = false ∧
    (BranchesTo (f.block Pred) MBB ∨ ∃ i ∈ f.block Pred, isBarrier i = true)

theorem lastTerminator_of_mem {block : List (Inst ι)} {i : Inst ι} (hi : i ∈ block)
    (h : i.isTerminator = true) : ∃ t, lastTerminator block = some t := by
  apply Option.isSome_iff_exists.mp
  rw [lastTerminator, List.find?_isSome]
  exact ⟨i, List.mem_reverse.mpr hi, h⟩

theorem isTerminator_of_target {i : Inst ι} {MBB : BlockId} (h : target i = some MBB) :
    i.isTerminator = true := by
  cases i <;> first | rfl | cases h

theorem isTerminator_of_indirect {i : Inst ι} (h : isIndirectBranch i = true) :
    i.isTerminator = true := by
  cases i <;> first | rfl | cases h

theorem LosesLabel.not_labelSafe {f : MachineFunction ι} (hf : Consistent f) {MBB : BlockId}
    (h : LosesLabel f MBB) : ¬ LabelSafe f MBB := by
  rcases h with ⟨hpad, Pred, t, hpreds, hsucc, hlast, hbarrier, hbad⟩
  intro hsafe
  have homit : isBlockOnlyReachableByFallthrough f MBB = true :=
    (isBlockOnlyReachableByFallthrough_iff f MBB).mpr
      ⟨hpad, Pred, hpreds, hsucc, by simp [hlast, hbarrier]⟩
  obtain ⟨⟨Pred', _, hsucc', hfall⟩, hnone⟩ := hsafe homit
  have hmem' : Pred' ∈ f.preds MBB := hf.fall Pred' MBB hfall hsucc'
  rw [hpreds, List.mem_singleton] at hmem'
  subst hmem'
  rcases hbad with hbranch | ⟨i, hi, hbar⟩
  · have hlayout : Pred' ∈ f.layout := (hf.pred MBB Pred' (by simp [hpreds])).1
    exact hnone Pred' hlayout hbranch
  · rw [fallsThrough_iff.mp hfall i hi] at hbar
    cases hbar

/-- No referenced label is omitted, except behind a conditional branch that goes to the
block or is dead. -/
theorem labelSafe_iff {f : MachineFunction ι} (hf : Consistent f) (MBB : BlockId) :
    LabelSafe f MBB ↔ ¬ LosesLabel f MBB := by
  constructor
  · intro hsafe hloses
    exact hloses.not_labelSafe hf hsafe
  · intro hgood homit
    rcases (isBlockOnlyReachableByFallthrough_iff f MBB).mp homit with
      ⟨hpad, Pred, hpreds, hsucc, hlast⟩
    -- a terminator in the predecessor makes the last one no barrier
    have hclean : ∀ i ∈ f.block Pred, i.isTerminator = true →
        ¬ BranchesTo (f.block Pred) MBB ∧ ∀ j ∈ f.block Pred, isBarrier j = false := by
      intro i hi hterminator
      rcases lastTerminator_of_mem hi hterminator with ⟨t, ht⟩
      have hbarrier : isBarrier t = false := by
        rw [ht] at hlast
        exact hlast
      constructor
      · intro hbranch
        exact hgood ⟨hpad, Pred, t, hpreds, hsucc, ht, hbarrier, .inl hbranch⟩
      · intro j hj
        by_contra hbar
        exact hgood ⟨hpad, Pred, t, hpreds, hsucc, ht, hbarrier, .inr ⟨j, hj, by simpa using hbar⟩⟩
    have hnoBranch : ¬ BranchesTo (f.block Pred) MBB := by
      intro hbranch
      rcases hbranch with ⟨i, hi, htarget⟩
      exact (hclean i hi (isTerminator_of_target htarget)).1 ⟨i, hi, htarget⟩
    obtain ⟨hlayout, hreached⟩ := hf.pred MBB Pred (by simp [hpreds])
    refine ⟨⟨Pred, hlayout, hsucc, ?_⟩, ?_⟩
    · rcases hreached with hbranch | ⟨hfall, _⟩ | ⟨i, hi, hindirect⟩
      · exact absurd hbranch hnoBranch
      · exact hfall
      · exact fallsThrough_iff.mpr (hclean i hi (isTerminator_of_indirect hindirect)).2
    · intro P hP hbranch
      have hmem : P ∈ f.preds MBB := hf.branch P hP MBB hbranch
      rw [hpreds, List.mem_singleton] at hmem
      rw [hmem] at hbranch
      exact hnoBranch hbranch

/-! ## Two blocks -/

def twoBlocks (first : List (Inst Unit)) : MachineFunction Unit where
  layout := [0, 1]
  block := fun b => if b = 0 then first else [.RET]
  preds := fun b => if b = 1 then [0] else []
  isLandingPad := fun _ => false

theorem consistent_twoBlocks {first : List (Inst Unit)} (hfall : FallsThrough first)
    (htarget : ∀ B, BranchesTo first B → B = 1) : Consistent (twoBlocks first) := by
  have hret : ∀ B, ¬ BranchesTo ([.RET] : List (Inst Unit)) B := by
    intro B h
    rcases h with ⟨i, hi, ht⟩
    rw [List.mem_singleton.mp hi] at ht
    cases ht
  have hnoFall : ¬ FallsThrough ([.RET] : List (Inst Unit)) := by
    intro h
    have hbar := fallsThrough_iff.mp h .RET (by simp)
    cases hbar
  constructor
  · intro P _ B hbranch
    by_cases hP : P = 0
    · subst hP
      rw [htarget B hbranch]
      exact List.mem_singleton.mpr rfl
    · rw [show (twoBlocks first).block P = [.RET] from if_neg hP] at hbranch
      exact absurd hbranch (hret B)
  · intro P B hfall' hsucc
    by_cases hP : P = 0
    · subst hP
      cases hsucc
      exact List.mem_singleton.mpr rfl
    · rw [show (twoBlocks first).block P = [.RET] from if_neg hP] at hfall'
      exact absurd hfall' hnoFall
  · intro B P hP
    by_cases hB : B = 1
    · subst hB
      rw [show (twoBlocks first).preds 1 = [0] from rfl, List.mem_singleton] at hP
      subst hP
      exact ⟨by simp [twoBlocks], .inr (.inl ⟨hfall, rfl⟩)⟩
    · rw [show (twoBlocks first).preds B = [] from if_neg hB] at hP
      cases hP

/-- A plain fall-through needs no label. -/
theorem labelSafe_fallThrough : LabelSafe (twoBlocks [.other ()]) 1 := by
  have hfall : FallsThrough ([.other ()] : List (Inst Unit)) := ⟨fun _ => false, rfl⟩
  have hnone : ∀ B, BranchesTo ([.other ()] : List (Inst Unit)) B → B = 1 := by
    intro B h
    rcases h with ⟨i, hi, ht⟩
    rw [List.mem_singleton.mp hi] at ht
    cases ht
  apply (labelSafe_iff (consistent_twoBlocks hfall hnone) 1).mpr
  intro hloses
  rcases hloses with ⟨_, Pred, t, hpreds, _, hlast, _⟩
  cases hpreds
  cases hlast

/-- A conditional jump to the next block: its label is referenced and not printed. -/
theorem labelLost_conditional :
    Consistent (twoBlocks [.JCCi 1 .COND_EQ]) ∧ ¬ LabelSafe (twoBlocks [.JCCi 1 .COND_EQ]) 1 := by
  have hfall : FallsThrough ([.JCCi 1 .COND_EQ] : List (Inst Unit)) := ⟨fun _ => false, rfl⟩
  have hone : ∀ B, BranchesTo ([.JCCi 1 .COND_EQ] : List (Inst Unit)) B → B = 1 := by
    intro B h
    rcases h with ⟨i, hi, ht⟩
    rw [List.mem_singleton.mp hi] at ht
    cases ht
    rfl
  have hconsistent := consistent_twoBlocks hfall hone
  refine ⟨hconsistent, LosesLabel.not_labelSafe hconsistent ?_⟩
  exact ⟨rfl, 0, .JCCi 1 .COND_EQ, rfl, rfl, rfl, rfl, .inl ⟨.JCCi 1 .COND_EQ, by decide, rfl⟩⟩

end Mandarin.Print
