import Mandarin.Branch.Block
import Mandarin.Lib.Loop

/-! # AnalyzeBranch, RemoveBranch and InsertBranch

The two scans walk an iterator from the end of the block towards its beginning
and erase instructions on the way. The iterator is a cut of the block: `pre`
holds the instructions in front of it, nearest first, and `suf` those from it on.
A step is one round of the loop. It either moves the iterator one instruction
back or erases an instruction and restarts at the end, so the length of the block
and the iterator's position, in this order, decrease.
-/

namespace Mandarin.Branch

open Loop

variable {ι : Type}

/-! ## Analysis -/

structure AnalyzeState (ι : Type) where
  pre : List (Inst ι)
  suf : List (Inst ι)
  TBB : Option BlockId
  FBB : Option BlockId
  Cond : List CondCodes

/-- The block and the out-parameters after the call, and the returned value:
`true` when the terminators were not understood. -/
structure Analysis (ι : Type) where
  block : List (Inst ι)
  TBB : Option BlockId
  FBB : Option BlockId
  Cond : List CondCodes
  failed : Bool
  deriving DecidableEq, Repr

def AnalyzeState.block (s : AnalyzeState ι) : List (Inst ι) := s.pre.reverse ++ s.suf

def AnalyzeState.finish (s : AnalyzeState ι) (failed : Bool) : Outcome (AnalyzeState ι) (Analysis ι) :=
  .done ⟨s.block, s.TBB, s.FBB, s.Cond, failed⟩

/-- The branch of the loop body for `JMPi`; `pre` and `rest` surround it. -/
def analyzeJMPi (next : Option BlockId) (allowModify : Bool) (pre rest : List (Inst ι))
    (dst : BlockId) (s : AnalyzeState ι) : AnalyzeState ι :=
  if !allowModify then { s with pre := pre, suf := .JMPi dst :: rest, TBB := some dst }
  else if next = some dst then
    -- everything behind the jump is erased, then the jump itself
    ⟨pre, [], none, none, []⟩
  else ⟨pre, [.JMPi dst], some dst, none, []⟩

def analyzeJCCi (s : AnalyzeState ι) (dst : BlockId) (BranchCode : CondCodes) :
    Outcome (AnalyzeState ι) (Analysis ι) :=
  if BranchCode = .COND_INVALID then s.finish true
  else
    match s.Cond with
    | [] => .again { s with FBB := s.TBB, TBB := some dst, Cond := [BranchCode] }
    | OldBranchCode :: _ =>
        if s.TBB ≠ some dst then s.finish true
        else if OldBranchCode = BranchCode then .again s
        else s.finish true

def analyzeStep (next : Option BlockId) (allowModify : Bool) (s : AnalyzeState ι) :
    Outcome (AnalyzeState ι) (Analysis ι) :=
  match s.pre with
  | [] => s.finish false
  | i :: pre =>
      -- the iterator now points at `i`
      let at_i : AnalyzeState ι := { s with pre := pre, suf := i :: s.suf }
      match i with
      | .debugValue _ => .again at_i
      | .other _ => at_i.finish false
      | .RET => at_i.finish true
      | .JMPr _ | .JCCr _ _ => at_i.finish true
      | .JMPi dst => .again (analyzeJMPi next allowModify pre s.suf dst s)
      | .JCCi dst cc => analyzeJCCi at_i dst cc

theorem analyzeJCCi_cases (s : AnalyzeState ι) (dst : BlockId) (cc : CondCodes) :
    analyzeJCCi s dst cc = s.finish true ∨
    (s.Cond = [] ∧
      analyzeJCCi s dst cc = .again { s with FBB := s.TBB, TBB := some dst, Cond := [cc] }) ∨
    ∃ rest, s.Cond = cc :: rest ∧ s.TBB = some dst ∧ analyzeJCCi s dst cc = .again s := by
  unfold analyzeJCCi
  by_cases hinvalid : cc = .COND_INVALID
  · exact .inl (if_pos hinvalid)
  · rw [if_neg hinvalid]
    cases hCond : s.Cond with
    | nil => exact .inr (.inl ⟨rfl, rfl⟩)
    | cons old rest =>
        by_cases hTBB : s.TBB = some dst
        · by_cases hold : old = cc
          · exact .inr (.inr ⟨rest, by rw [hold], hTBB, by simp [hTBB, hold]⟩)
          · exact .inl (by simp [hTBB, hold])
        · exact .inl (by simp [hTBB])

def AnalyzeState.measure (s : AnalyzeState ι) : Nat × Nat :=
  (s.pre.length + s.suf.length, s.pre.length)

theorem analyzeStep_decreases (next : Option BlockId) (allowModify : Bool) :
    Decreases (analyzeStep (ι := ι) next allowModify) AnalyzeState.measure := by
  intro s s' hstep
  obtain ⟨pre, suf, TBB, FBB, Cond⟩ := s
  cases pre with
  | nil => cases hstep
  | cons i pre =>
      have hback : ∀ t : AnalyzeState ι, t.pre = pre → t.suf.length ≤ suf.length + 1 →
          Prod.Lex (· < ·) (· < ·) t.measure (⟨i :: pre, suf, TBB, FBB, Cond⟩ :
            AnalyzeState ι).measure := by
        intro t hpre hsuf
        unfold AnalyzeState.measure
        rw [Prod.lex_iff, hpre, List.length_cons]
        show _ ∨ _
        simp only
        omega
      cases i with
      | debugValue i =>
          cases hstep
          exact hback _ rfl (Nat.le_refl _)
      | other i => cases hstep
      | RET => cases hstep
      | JMPr r => cases hstep
      | JCCr r cc => cases hstep
      | JMPi dst =>
          cases hstep
          unfold analyzeJMPi
          split
          · exact hback _ rfl (Nat.le_refl _)
          · split
            · exact hback _ rfl (Nat.zero_le _)
            · exact hback _ rfl (Nat.succ_le_succ (Nat.zero_le _))
      | JCCi dst cc =>
          have hstep' : analyzeJCCi ⟨pre, .JCCi dst cc :: suf, TBB, FBB, Cond⟩ dst cc = .again s' :=
            hstep
          rcases analyzeJCCi_cases ⟨pre, .JCCi dst cc :: suf, TBB, FBB, Cond⟩ dst cc with
            h | ⟨_, h⟩ | ⟨_, _, _, h⟩
          · rw [h] at hstep'
            cases hstep'
          · rw [h] at hstep'
            cases hstep'
            exact hback _ rfl (Nat.le_refl _)
          · rw [h] at hstep'
            cases hstep'
            exact hback _ rfl (Nat.le_refl _)

/-- `AnalyzeBranch` with null destinations and an empty condition on entry. -/
def analyzeBranch (next : Option BlockId) (allowModify : Bool) (block : List (Inst ι)) :
    Analysis ι :=
  run (analyzeStep next allowModify) AnalyzeState.measure (analyzeStep_decreases next allowModify)
    ⟨block.reverse, [], none, none, []⟩

/-! ## Removal -/

structure RemoveState (ι : Type) where
  pre : List (Inst ι)
  suf : List (Inst ι)
  Count : Nat

def removeStep (s : RemoveState ι) : Outcome (RemoveState ι) (List (Inst ι) × Nat) :=
  match s.pre with
  | [] => .done (s.suf, s.Count)
  | i :: pre =>
      if i.isDebugValue then .again { s with pre := pre, suf := i :: s.suf }
      else if !i.isBranch then .done ((i :: pre).reverse ++ s.suf, s.Count)
      else .again ⟨s.suf.reverse ++ pre, [], s.Count + 1⟩

def RemoveState.measure (s : RemoveState ι) : Nat × Nat :=
  (s.pre.length + s.suf.length, s.pre.length)

/-- What one round does: it stops at the front of the block or at an instruction that
stays, steps over a debug value, or erases a branch and starts from the end again. -/
theorem removeStep_cases (s : RemoveState ι) :
    (s.pre = [] ∧ removeStep s = .done (s.suf, s.Count)) ∨
    ∃ i pre, s.pre = i :: pre ∧
      ((i.isDebugValue = true ∧ removeStep s = .again ⟨pre, i :: s.suf, s.Count⟩) ∨
      (i.isDebugValue = false ∧ i.isBranch = false ∧
        removeStep s = .done (s.pre.reverse ++ s.suf, s.Count)) ∨
      (i.isDebugValue = false ∧ i.isBranch = true ∧
        removeStep s = .again ⟨s.suf.reverse ++ pre, [], s.Count + 1⟩)) := by
  rcases s with ⟨pre, suf, count⟩
  cases pre with
  | nil => exact .inl ⟨rfl, rfl⟩
  | cons i pre =>
      refine .inr ⟨i, pre, rfl, ?_⟩
      by_cases hd : i.isDebugValue = true
      · exact .inl ⟨hd, if_pos hd⟩
      · have hd' : i.isDebugValue = false := by simpa using hd
        by_cases hb : i.isBranch = true
        · exact .inr (.inr ⟨hd', hb, by simp [removeStep, hd', hb]⟩)
        · have hb' : i.isBranch = false := by simpa using hb
          exact .inr (.inl ⟨hd', hb', by simp [removeStep, hd', hb']⟩)

theorem removeStep_decreases : Decreases (removeStep (ι := ι)) RemoveState.measure := by
  intro s s' hstep
  show Prod.Lex (· < ·) (· < ·) _ _
  rw [Prod.lex_iff]
  unfold RemoveState.measure
  rcases removeStep_cases s with ⟨_, h⟩ | ⟨i, pre, hpre, ⟨_, h⟩ | ⟨_, _, h⟩ | ⟨_, _, h⟩⟩
  · rw [h] at hstep
    cases hstep
  · rw [h] at hstep
    cases hstep
    simp only [hpre, List.length_cons]
    omega
  · rw [h] at hstep
    cases hstep
  · rw [h] at hstep
    cases hstep
    simp only [hpre, List.length_append, List.length_reverse, List.length_cons, List.length_nil]
    omega

def removeBranch (block : List (Inst ι)) : List (Inst ι) × Nat :=
  run removeStep RemoveState.measure removeStep_decreases ⟨block.reverse, [], 0⟩

/-! ## Insertion -/

/-- `InsertBranch`; `none` where an assertion fails. -/
def insertBranch (block : List (Inst ι)) (TBB FBB : Option BlockId) (Cond : List CondCodes) :
    Option (List (Inst ι) × Nat) := do
  let T ← TBB
  match Cond with
  | [] => if FBB.isSome then none else some (block ++ [.JMPi T], 1)
  | [cc] =>
      match FBB with
      | none => some (block ++ [.JCCi T cc], 1)
      | some F => some (block ++ [.JCCi T cc] ++ [.JMPi F], 2)
  | _ => none

end Mandarin.Branch
