import Mandarin.Branch.ReadOnly

/-! # Inserted branches

What `InsertBranch` appends to a block without terminators is read back by the
analysis and taken away by the removal.
-/

namespace Mandarin.Branch

variable {ι : Type}

/-- The destinations and conditions `InsertBranch` accepts besides a given `TBB`. -/
def Accepted (FBB : Option BlockId) (Cond : List CondCodes) : Prop :=
  (Cond = [] ∧ FBB = none) ∨ ∃ cc, cc ≠ .COND_INVALID ∧ Cond = [cc]

def inserted (T : BlockId) (FBB : Option BlockId) : List CondCodes → List (Inst ι)
  | [] => [.JMPi T]
  | cc :: _ => .JCCi T cc :: FBB.toList.map .JMPi

theorem insertBranch_eq {FBB : Option BlockId} {Cond : List CondCodes} (h : Accepted FBB Cond)
    (B : List (Inst ι)) (T : BlockId) :
    insertBranch B (some T) FBB Cond =
      some (B ++ inserted T FBB Cond, (inserted (ι := ι) T FBB Cond).length) := by
  rcases h with ⟨rfl, rfl⟩ | ⟨cc, _, rfl⟩
  · rfl
  · cases FBB with
    | none => rfl
    | some F => simp [insertBranch, inserted, List.append_assoc]

theorem inserted_isBranch (T : BlockId) (FBB : Option BlockId) (Cond : List CondCodes) :
    ∀ i ∈ inserted (ι := ι) T FBB Cond, i.isBranch = true := by
  intro i hi
  cases Cond with
  | nil =>
      rw [inserted, List.mem_singleton] at hi
      rw [hi]
      rfl
  | cons cc Cond =>
      rcases List.mem_cons.mp hi with rfl | hi
      · rfl
      · rcases List.mem_map.mp hi with ⟨F, _, rfl⟩
        rfl

/-! ## Recovered by the analysis -/

theorem readBranches_inserted {FBB : Option BlockId} {Cond : List CondCodes}
    (h : Accepted FBB Cond) (T : BlockId) :
    readBranches (inserted (ι := ι) T FBB Cond) = some ⟨some T, FBB, Cond⟩ := by
  rcases h with ⟨rfl, rfl⟩ | ⟨cc, hvalid, rfl⟩
  · rfl
  · cases FBB <;> simp [inserted, Found.read, Found.conditional, hvalid]

theorem terminatorsLast_append {B js : List (Inst ι)} (hB : ∀ i ∈ B, i.isTerminator = false)
    (hjs : ∀ i ∈ js, i.isBranch = true) : TerminatorsLast (B ++ js) := by
  refine ⟨B, js, rfl, hB, ?_⟩
  intro i hi
  left
  have hbranch := hjs i hi
  cases i <;> first | rfl | cases hbranch

theorem analyzeBranch_inserted {B : List (Inst ι)} (hB : ∀ i ∈ B, i.isTerminator = false)
    {FBB : Option BlockId} {Cond : List CondCodes} (h : Accepted FBB Cond) (T : BlockId)
    (next : Option BlockId) :
    analyzeBranch next false (B ++ inserted T FBB Cond) =
      ⟨B ++ inserted T FBB Cond, some T, FBB, Cond, false⟩ := by
  have hwell := terminatorsLast_append hB (inserted_isBranch T FBB Cond)
  have hread : readBranches (B ++ inserted T FBB Cond) = some ⟨some T, FBB, Cond⟩ := by
    rw [readBranches_append_of_not_terminator hB, readBranches_inserted h]
  exact analyzeBranch_of_read hwell hread next

/-! ## Undone by the removal -/

theorem filter_branchTail {B : List (Inst ι)} (hB : ∀ i ∈ B, i.isTerminator = false) :
    (branchTail B).filter Inst.isDebugValue = branchTail B ∧
      (branchTail B).countP Inst.isBranch = 0 := by
  have hdebug : ∀ i ∈ branchTail B, i.isDebugValue = true := by
    intro i hi
    have htail : isBranchOrDebug i = true := List.mem_rtakeWhile_imp hi
    have hmem : i ∈ B := (List.rtakeWhile_suffix ..).mem hi
    have hterminator := hB i hmem
    cases i <;> simp_all [isBranchOrDebug, Inst.isTerminator, Inst.isBranch, Inst.isDebugValue]
  exact ⟨filter_isDebugValue_eq_self hdebug, countP_isBranch_eq_zero hdebug⟩

theorem removeBranch_append {B js : List (Inst ι)} (hB : ∀ i ∈ B, i.isTerminator = false)
    (hjs : ∀ i ∈ js, i.isBranch = true) : removeBranch (B ++ js) = (B, js.length) := by
  have htail : ∀ i ∈ js, isBranchOrDebug i = true := by
    intro i hi
    simp [isBranchOrDebug, hjs i hi]
  have hnoDebug : js.filter Inst.isDebugValue = [] := by
    apply List.filter_eq_nil_iff.mpr
    intro i hi hdebug
    have hnot := not_isBranch_of_isDebugValue hdebug
    rw [hjs i hi] at hnot
    cases hnot
  have hcount : js.countP Inst.isBranch = js.length := List.countP_eq_length.mpr hjs
  obtain ⟨hfilter, hzero⟩ := filter_branchTail hB
  rw [removeBranch_eq, branchFree_append htail, branchTail_append htail, List.filter_append,
    List.countP_append, hfilter, hzero, hnoDebug, hcount, List.append_nil, Nat.zero_add]
  exact congrArg (·, js.length) (List.rdropWhile_append_rtakeWhile ..)

/-- The block ends in a longest run of branches and debug values, of which the removal
keeps the debug values and counts the branches. -/
def RemovesRun (block : List (Inst ι)) : Prop :=
  ∃ front tail, block = front ++ tail ∧
    (∀ i ∈ tail, i.isBranch = true ∨ i.isDebugValue = true) ∧
    (∀ i, front.getLast? = some i → i.isBranch = false ∧ i.isDebugValue = false) ∧
    removeBranch block =
      (front ++ tail.filter Inst.isDebugValue, tail.countP Inst.isBranch)

theorem removesRun (block : List (Inst ι)) : RemovesRun block := by
  refine ⟨branchFree block, branchTail block, ?_, ?_, ?_, removeBranch_eq block⟩
  · exact (List.rdropWhile_append_rtakeWhile ..).symm
  · intro i hi
    have htail : isBranchOrDebug i = true := List.mem_rtakeWhile_imp hi
    simpa [isBranchOrDebug] using htail
  · intro i hi
    rcases List.getLast?_eq_some_iff.mp hi with ⟨front, hfront⟩
    have hne : block.rdropWhile isBranchOrDebug ≠ [] := by
      show branchFree block ≠ []
      rw [hfront]
      simp
    have hlast := List.rdropWhile_last_not isBranchOrDebug block hne
    have hi' : (block.rdropWhile isBranchOrDebug).getLast hne = i := by
      have heq : block.rdropWhile isBranchOrDebug = front ++ [i] := hfront
      simp [heq]
    rw [hi'] at hlast
    simpa [isBranchOrDebug] using hlast

/-- Inserted branches are recovered by the analysis and undone by the removal, which on
any block removes the branches at its end. -/
theorem insertBranch_round_trip :
    (∀ B : List (Inst ι), (∀ i ∈ B, i.isTerminator = false) →
      ∀ T FBB Cond, Accepted FBB Cond → ∃ block count,
        insertBranch B (some T) FBB Cond = some (block, count) ∧
        (∀ next, analyzeBranch next false block = ⟨block, some T, FBB, Cond, false⟩) ∧
        removeBranch block = (B, count)) ∧
    ∀ block : List (Inst ι), RemovesRun block := by
  constructor
  · intro B hB T FBB Cond h
    exact ⟨_, _, insertBranch_eq h B T, fun next => analyzeBranch_inserted hB h T next,
      removeBranch_append hB (inserted_isBranch T FBB Cond)⟩
  · exact removesRun

/-- A two-way branch behind a debug value. -/
theorem insertBranch_round_trip_two_way :
    ∃ block count,
      insertBranch [.other (), .debugValue ()] (some 1) (some 2) [.COND_GR] = some (block, count) ∧
      (∀ next, analyzeBranch next false block = ⟨block, some 1, some 2, [.COND_GR], false⟩) ∧
      removeBranch block = ([.other (), .debugValue ()], count) :=
  insertBranch_round_trip.1 _ (by decide) 1 (some 2) [.COND_GR] (.inr ⟨.COND_GR, by decide, rfl⟩)

end Mandarin.Branch
