import Mandarin.Branch.Analyze
import Mathlib.Tactic.Cases

/-! # Rewriting the end of a block

`RemoveBranch` takes away the branches of the longest tail of branches and debug
values. `AnalyzeBranch` keeps three facts while it walks back: the control
transfer of the block, the description of the part behind the iterator by the
out-parameters, and that this part consists of branches and debug values. A
successful analysis therefore describes the block, and a block rebuilt from the
description transfers control as before.
-/

namespace Mandarin.Branch

open Loop

variable {ι : Type}

/-! ## What RemoveBranch removes -/

def isBranchOrDebug (i : Inst ι) : Bool := i.isBranch || i.isDebugValue

/-- The longest tail of branches and debug values. -/
def branchTail (block : List (Inst ι)) : List (Inst ι) := block.rtakeWhile isBranchOrDebug

def branchFree (block : List (Inst ι)) : List (Inst ι) := block.rdropWhile isBranchOrDebug

theorem branchTail_append {is js : List (Inst ι)} (h : ∀ j ∈ js, isBranchOrDebug j = true) :
    branchTail (is ++ js) = branchTail is ++ js := by
  unfold branchTail List.rtakeWhile
  rw [List.reverse_append, List.takeWhile_append_of_pos (by simpa using h), List.reverse_append,
    List.reverse_reverse]

theorem branchFree_append {is js : List (Inst ι)} (h : ∀ j ∈ js, isBranchOrDebug j = true) :
    branchFree (is ++ js) = branchFree is := by
  unfold branchFree List.rdropWhile
  rw [List.reverse_append, List.dropWhile_append_of_pos (by simpa using h)]

theorem branchTail_concat {is : List (Inst ι)} {i : Inst ι} (h : isBranchOrDebug i = false) :
    branchTail (is ++ [i]) = [] := List.rtakeWhile_concat_neg _ _ _ (by simp [h])

theorem branchFree_concat {is : List (Inst ι)} {i : Inst ι} (h : isBranchOrDebug i = false) :
    branchFree (is ++ [i]) = is ++ [i] := List.rdropWhile_concat_neg _ _ _ (by simp [h])

theorem filter_isDebugValue_eq_self {is : List (Inst ι)} (h : ∀ i ∈ is, i.isDebugValue = true) :
    is.filter Inst.isDebugValue = is := List.filter_eq_self.mpr h

theorem not_isBranch_of_isDebugValue {i : Inst ι} (h : i.isDebugValue = true) :
    i.isBranch = false := by
  cases i <;> simp_all [Inst.isDebugValue, Inst.isBranch]

theorem countP_isBranch_eq_zero {is : List (Inst ι)} (h : ∀ i ∈ is, i.isDebugValue = true) :
    is.countP Inst.isBranch = 0 := by
  rw [List.countP_eq_zero]
  intro i hi
  simp [not_isBranch_of_isDebugValue (h i hi)]

/-- The result `r` is what is left to do in state `s`, behind which there are only
debug values. -/
def Removes (s : RemoveState ι) (r : List (Inst ι) × Nat) : Prop :=
  (∀ i ∈ s.suf, i.isDebugValue = true) →
    r = (branchFree (s.pre.reverse ++ s.suf) ++
        (branchTail (s.pre.reverse ++ s.suf)).filter Inst.isDebugValue,
      s.Count + (branchTail (s.pre.reverse ++ s.suf)).countP Inst.isBranch)

theorem isBranchOrDebug_of_debugValues {is : List (Inst ι)}
    (h : ∀ i ∈ is, i.isDebugValue = true) : ∀ i ∈ is, isBranchOrDebug i = true := by
  intro i hi
  simp [isBranchOrDebug, h i hi]

theorem removeStep_done {s : RemoveState ι} {r : List (Inst ι) × Nat}
    (hstep : removeStep s = .done r) : Removes s r := by
  intro hdebug
  have htail := isBranchOrDebug_of_debugValues hdebug
  rw [branchFree_append htail, branchTail_append htail]
  rcases removeStep_cases s with ⟨hpre, h⟩ | ⟨i, pre, hpre, ⟨_, h⟩ | ⟨hd, hb, h⟩ | ⟨_, _, h⟩⟩
  · rw [h] at hstep
    cases hstep
    rw [hpre]
    show _ = ([] ++ ([] ++ s.suf).filter Inst.isDebugValue,
      s.Count + ([] ++ s.suf).countP Inst.isBranch)
    rw [List.nil_append, List.nil_append, filter_isDebugValue_eq_self hdebug,
      countP_isBranch_eq_zero hdebug, Nat.add_zero]
  · rw [h] at hstep
    cases hstep
  · rw [h] at hstep
    cases hstep
    have hi : isBranchOrDebug i = false := by simp [isBranchOrDebug, hb, hd]
    rw [hpre, List.reverse_cons, branchFree_concat hi, branchTail_concat hi, List.nil_append,
      filter_isDebugValue_eq_self hdebug, countP_isBranch_eq_zero hdebug, Nat.add_zero]
  · rw [h] at hstep
    cases hstep

theorem removeStep_again {s s' : RemoveState ι} {r : List (Inst ι) × Nat}
    (hstep : removeStep s = .again s') (hr : Removes s' r) : Removes s r := by
  intro hdebug
  have htail := isBranchOrDebug_of_debugValues hdebug
  rcases removeStep_cases s with ⟨_, h⟩ | ⟨i, pre, hpre, ⟨hd, h⟩ | ⟨_, _, h⟩ | ⟨hd, hb, h⟩⟩
  · rw [h] at hstep
    cases hstep
  · rw [h] at hstep
    cases hstep
    have hdebug' : ∀ j ∈ i :: s.suf, j.isDebugValue = true := by
      intro j hj
      rcases List.mem_cons.mp hj with rfl | hj
      · exact hd
      · exact hdebug j hj
    rw [hr hdebug', hpre]
    simp
  · rw [h] at hstep
    cases hstep
  · rw [h] at hstep
    cases hstep
    have hi : ∀ j ∈ i :: s.suf, isBranchOrDebug j = true := by
      intro j hj
      rcases List.mem_cons.mp hj with rfl | hj
      · simp [isBranchOrDebug, hb]
      · exact htail j hj
    rw [hr (by simp), hpre, List.reverse_cons, List.append_assoc, List.singleton_append,
      branchFree_append hi, branchTail_append hi]
    simp only [List.append_nil, List.reverse_append, List.reverse_reverse,
      branchFree_append htail, branchTail_append htail, List.filter_append,
      List.countP_append, List.filter_cons, List.countP_cons, hb, hd, Bool.false_eq_true,
      ↓reduceIte, Prod.mk.injEq, true_and]
    omega

/-- `RemoveBranch` removes exactly the branches of the longest tail of branches and
debug values, and returns their number. -/
theorem removeBranch_eq (block : List (Inst ι)) :
    removeBranch block = (branchFree block ++ (branchTail block).filter Inst.isDebugValue,
      (branchTail block).countP Inst.isBranch) := by
  have hrun : Removes ⟨block.reverse, [], 0⟩ (removeBranch block) :=
    run_rel (fun _ _ => removeStep_done) (fun _ _ _ => removeStep_again) _
  simpa using hrun (by simp)

/-! ## What AnalyzeBranch knows -/

/-- The control transfer the out-parameters describe: no `TBB` is a fall-through,
no condition always takes `TBB`, and `FBB` or the fall-through is the other way. -/
def describe (holds : CondCodes → Bool) (next TBB FBB : Option BlockId) (Cond : List CondCodes) :
    Exit :=
  match TBB with
  | none => fallThrough next
  | some t =>
      match Cond with
      | [] => .block t
      | cc :: _ => if holds cc then .block t else fallThrough (FBB.or next)

/-- What `InsertBranch` accepts, or no branch at all. -/
def Insertable (TBB FBB : Option BlockId) (Cond : List CondCodes) : Prop :=
  (Cond = [] ∧ FBB = none) ∨ ∃ cc t, Cond = [cc] ∧ TBB = some t

/-- Invariant of the scan of `original`. -/
structure AnalyzeInv (holds : CondCodes → Bool) (next : Option BlockId) (original : List (Inst ι))
    (s : AnalyzeState ι) : Prop where
  transfers : transfer holds next s.block = transfer holds next original
  describes : describe holds next s.TBB s.FBB s.Cond = transferThen holds s.suf (fallThrough next)
  behind : ∀ i ∈ s.suf, isBranchOrDebug i = true
  insertable : Insertable s.TBB s.FBB s.Cond
  keeps : kept s.block = kept original
  wellFormed : TerminatorsLast s.block

structure Analyzed (holds : CondCodes → Bool) (next : Option BlockId) (original : List (Inst ι))
    (r : Analysis ι) : Prop where
  transfers : transfer holds next r.block = transfer holds next original
  keeps : kept r.block = kept original
  exact : r.failed = false →
    describe holds next r.TBB r.FBB r.Cond = transfer holds next original ∧
      Insertable r.TBB r.FBB r.Cond ∧
      ∃ body tail, r.block = body ++ tail ∧ (∀ i ∈ body, i.isTerminator = false) ∧
        ∀ i ∈ tail, isBranchOrDebug i = true

variable {holds : CondCodes → Bool} {next : Option BlockId} {original : List (Inst ι)}

theorem TerminatorsLast.take {pre suf suf' : List (Inst ι)} (h : TerminatorsLast (pre ++ suf))
    (hsuf : suf'.Sublist suf) : TerminatorsLast (pre ++ suf') := by
  rcases h with ⟨body, tail, heq, hbody, htail⟩
  rcases List.append_eq_append_iff.mp heq with ⟨rest, hrest, hrest'⟩ | ⟨rest, hrest, hrest'⟩
  · rw [hrest'] at hsuf
    rcases List.sublist_append_iff.mp hsuf with ⟨l, m, hlm, hl, hm⟩
    refine ⟨pre ++ l, m, by rw [hlm, List.append_assoc], ?_, fun i hi => htail i (hm.subset hi)⟩
    intro i hi
    apply hbody
    rw [hrest]
    rcases List.mem_append.mp hi with hi | hi
    · exact List.mem_append_left _ hi
    · exact List.mem_append_right _ (hl.subset hi)
  · refine ⟨body, rest ++ suf', by rw [hrest, List.append_assoc], hbody, ?_⟩
    intro i hi
    apply htail
    rw [hrest']
    rcases List.mem_append.mp hi with hi | hi
    · exact List.mem_append_left _ hi
    · exact List.mem_append_right _ (hsuf.subset hi)

theorem AnalyzeState.block_back (s : AnalyzeState ι) {i : Inst ι} {pre : List (Inst ι)}
    (hpre : s.pre = i :: pre) : pre.reverse ++ i :: s.suf = s.block := by
  rw [AnalyzeState.block, hpre, List.reverse_cons, List.append_assoc, List.singleton_append]

theorem AnalyzeInv.back {s : AnalyzeState ι} (h : AnalyzeInv holds next original s) {i : Inst ι}
    {pre : List (Inst ι)} (hpre : s.pre = i :: pre) (hi : isBranchOrDebug i = true)
    {TBB FBB : Option BlockId} {Cond : List CondCodes}
    (hdesc : describe holds next TBB FBB Cond =
      i.transfer holds (transferThen holds s.suf (fallThrough next)))
    (hins : Insertable TBB FBB Cond) :
    AnalyzeInv holds next original ⟨pre, i :: s.suf, TBB, FBB, Cond⟩ := by
  have hblock := s.block_back hpre
  refine ⟨?_, hdesc, ?_, hins, ?_, ?_⟩
  · show transfer holds next (pre.reverse ++ i :: s.suf) = _
    rw [hblock, h.transfers]
  · intro j hj
    rcases List.mem_cons.mp hj with rfl | hj
    · exact hi
    · exact h.behind j hj
  · show kept (pre.reverse ++ i :: s.suf) = _
    rw [hblock, h.keeps]
  · show TerminatorsLast (pre.reverse ++ i :: s.suf)
    rw [hblock]
    exact h.wellFormed

theorem AnalyzeInv.jump {s : AnalyzeState ι} (h : AnalyzeInv holds next original s) {dst : BlockId}
    {pre : List (Inst ι)} (hpre : s.pre = .JMPi dst :: pre) :
    AnalyzeInv holds next original (analyzeJMPi next true pre s.suf dst s) := by
  have hblock := s.block_back hpre
  have htransfer := h.transfers
  have hkeeps := h.keeps
  have hwell := h.wellFormed
  rw [← hblock] at htransfer hkeeps hwell
  have hnil : kept s.suf = [] := kept_eq_nil fun i hi => by
    simpa [isBranchOrDebug] using h.behind i hi
  rw [kept_append, show Inst.JMPi dst :: s.suf = [.JMPi dst] ++ s.suf from rfl, kept_append, hnil]
    at hkeeps
  rw [transfer, transferThen_append, transferThen_cons] at htransfer
  unfold analyzeJMPi
  rw [if_neg (by simp)]
  by_cases hnext : next = some dst
  · rw [if_pos hnext]
    refine ⟨?_, rfl, by simp, Or.inl ⟨rfl, rfl⟩, ?_, hwell.take (List.nil_sublist _)⟩
    · show transferThen holds (pre.reverse ++ []) _ = _
      rw [List.append_nil, ← htransfer, hnext]
      rfl
    · show kept (pre.reverse ++ []) = _
      rw [List.append_nil, ← hkeeps]
      exact (List.append_nil _).symm
  · rw [if_neg hnext]
    refine ⟨?_, rfl, by simp [isBranchOrDebug, Inst.isBranch], Or.inl ⟨rfl, rfl⟩, ?_, ?_⟩
    · show transferThen holds (pre.reverse ++ [.JMPi dst]) _ = _
      rw [transferThen_append, ← htransfer]
      rfl
    · show kept (pre.reverse ++ [.JMPi dst]) = _
      rw [kept_append, ← hkeeps]
      rfl
    · exact hwell.take (List.Sublist.cons_cons _ (List.nil_sublist _))

theorem AnalyzeInv.conditional {s s' : AnalyzeState ι} (h : AnalyzeInv holds next original s)
    {dst : BlockId} {cc : CondCodes} {pre : List (Inst ι)} (hpre : s.pre = .JCCi dst cc :: pre)
    (hstep : analyzeJCCi { s with pre := pre, suf := .JCCi dst cc :: s.suf } dst cc = .again s') :
    AnalyzeInv holds next original s' := by
  have hdesc := h.describes
  have hins := h.insertable
  rcases analyzeJCCi_cases { s with pre := pre, suf := .JCCi dst cc :: s.suf } dst cc with
    hcase | ⟨hCond, hcase⟩ | ⟨rest, hCond, hTBB, hcase⟩
  · rw [hcase] at hstep
    cases hstep
  · rw [hcase] at hstep
    cases hstep
    have hCond' : s.Cond = [] := hCond
    rw [hCond'] at hdesc
    apply h.back hpre rfl _ (Or.inr ⟨cc, dst, rfl, rfl⟩)
    rw [← hdesc]
    show (if holds cc then Exit.block dst else _) = if holds cc then Exit.block dst else _
    cases hTBB : s.TBB <;> rfl
  · rw [hcase] at hstep
    cases hstep
    apply h.back hpre rfl _ hins
    have hCond' : s.Cond = cc :: rest := hCond
    have hTBB' : s.TBB = some dst := hTBB
    rw [← hdesc, hCond', hTBB']
    show (if holds cc then Exit.block dst else _) =
      if holds cc then Exit.block dst else if holds cc then Exit.block dst else _
    split <;> rfl

theorem analyzeStep_inv {s s' : AnalyzeState ι} (h : AnalyzeInv holds next original s)
    (hstep : analyzeStep next true s = .again s') : AnalyzeInv holds next original s' := by
  unfold analyzeStep at hstep
  cases hpre : s.pre with
  | nil =>
      rw [hpre] at hstep
      cases hstep
  | cons i pre =>
      rw [hpre] at hstep
      cases i with
      | debugValue i =>
          cases hstep
          exact h.back hpre rfl h.describes h.insertable
      | other i => cases hstep
      | RET => cases hstep
      | JMPr r => cases hstep
      | JCCr r cc => cases hstep
      | JMPi dst =>
          cases hstep
          exact h.jump hpre
      | JCCi dst cc => exact h.conditional hpre hstep

theorem AnalyzeInv.failed {s : AnalyzeState ι} (h : AnalyzeInv holds next original s)
    {block : List (Inst ι)} (hblock : block = s.block) (TBB FBB : Option BlockId)
    (Cond : List CondCodes) : Analyzed holds next original ⟨block, TBB, FBB, Cond, true⟩ := by
  rw [hblock]
  exact ⟨h.transfers, h.keeps, fun hfail => by cases hfail⟩

theorem AnalyzeInv.succeeded {s : AnalyzeState ι} (h : AnalyzeInv holds next original s)
    {body : List (Inst ι)} (hblock : s.block = body ++ s.suf)
    (hbody : ∀ i ∈ body, i.isTerminator = false) :
    Analyzed holds next original ⟨s.block, s.TBB, s.FBB, s.Cond, false⟩ := by
  refine ⟨h.transfers, h.keeps, ?_⟩
  intro _
  refine ⟨?_, h.insertable, body, s.suf, hblock, hbody, h.behind⟩
  show describe holds next s.TBB s.FBB s.Cond = _
  rw [h.describes, ← h.transfers, hblock, transfer, transferThen_append,
    transferThen_of_not_terminator hbody]

theorem analyzeStep_done {s : AnalyzeState ι} {r : Analysis ι}
    (h : AnalyzeInv holds next original s) (hstep : analyzeStep next true s = .done r) :
    Analyzed holds next original r := by
  unfold analyzeStep at hstep
  cases hpre : s.pre with
  | nil =>
      rw [hpre] at hstep
      cases hstep
      apply @AnalyzeInv.succeeded ι holds next original s h []
      · rw [AnalyzeState.block, hpre]
        rfl
      · simp
  | cons i pre =>
      have hblock := s.block_back hpre
      rw [hpre] at hstep
      cases i with
      | debugValue i => cases hstep
      | other i =>
          cases hstep
          have hbefore : ∀ j ∈ pre.reverse, j.isTerminator = false := by
            have hwell := h.wellFormed
            rw [← hblock] at hwell
            exact hwell.before rfl rfl
          show Analyzed holds next original ⟨pre.reverse ++ .other i :: s.suf, _, _, _, _⟩
          rw [hblock]
          apply @AnalyzeInv.succeeded ι holds next original s h (pre.reverse ++ [.other i])
          · rw [← hblock, List.append_assoc, List.singleton_append]
          · intro j hj
            rcases List.mem_append.mp hj with hj | hj
            · exact hbefore j hj
            · rw [List.mem_singleton.mp hj]
              rfl
      | RET =>
          cases hstep
          exact h.failed hblock _ _ _
      | JMPr r =>
          cases hstep
          exact h.failed hblock _ _ _
      | JCCr r cc =>
          cases hstep
          exact h.failed hblock _ _ _
      | JMPi dst => cases hstep
      | JCCi dst cc =>
          have hstep' : analyzeJCCi { s with pre := pre, suf := .JCCi dst cc :: s.suf } dst cc =
              .done r := hstep
          rcases analyzeJCCi_cases { s with pre := pre, suf := .JCCi dst cc :: s.suf } dst cc with
            hcase | ⟨_, hcase⟩ | ⟨_, _, _, hcase⟩
          · rw [hcase] at hstep'
            cases hstep'
            exact h.failed hblock _ _ _
          · rw [hcase] at hstep'
            cases hstep'
          · rw [hcase] at hstep'
            cases hstep'

theorem analyzeBranch_analyzed (holds : CondCodes → Bool) (next : Option BlockId)
    {block : List (Inst ι)} (hwell : TerminatorsLast block) :
    Analyzed holds next block (analyzeBranch next true block) := by
  apply @run_inv _ _ _ _ _ _ _ (AnalyzeInv holds next block)
  · intro s r h hstep
    exact analyzeStep_done h hstep
  · intro s s' h hstep
    exact analyzeStep_inv h hstep
  · have hstart : (⟨block.reverse, [], none, none, []⟩ : AnalyzeState ι).block = block := by
      simp [AnalyzeState.block]
    exact ⟨by rw [hstart], rfl, by simp, Or.inl ⟨rfl, rfl⟩, by rw [hstart], by rwa [hstart]⟩

/-! ## Rebuilding the block -/

/-- `RemoveBranch`, and `InsertBranch` if there is a destination. -/
def rebuild (block : List (Inst ι)) (TBB FBB : Option BlockId) (Cond : List CondCodes) :
    Option (List (Inst ι)) :=
  let rest := (removeBranch block).1
  match TBB with
  | none => some rest
  | some t => (insertBranch rest (some t) FBB Cond).map Prod.fst

theorem insertBranch_spec {block : List (Inst ι)} {t : BlockId} {FBB : Option BlockId}
    {Cond : List CondCodes} (hins : Insertable (some t) FBB Cond)
    (hblock : ∀ i ∈ block, i.isTerminator = false) :
    ∃ block' n, insertBranch block (some t) FBB Cond = some (block', n) ∧
      transfer holds next block' = describe holds next (some t) FBB Cond ∧
      kept block' = kept block := by
  rcases hins with ⟨rfl, rfl⟩ | ⟨cc, t', rfl, _⟩
  · refine ⟨_, _, rfl, ?_, ?_⟩
    · rw [transfer, transferThen_append, transferThen_of_not_terminator hblock]
      rfl
    · rw [kept_append]
      exact List.append_nil _
  · cases FBB with
    | none =>
        refine ⟨_, _, rfl, ?_, ?_⟩
        · rw [transfer, transferThen_append, transferThen_of_not_terminator hblock]
          rfl
        · rw [kept_append]
          exact List.append_nil _
    | some f =>
        refine ⟨_, _, rfl, ?_, ?_⟩
        · rw [transfer, transferThen_append, transferThen_append,
            transferThen_of_not_terminator hblock]
          rfl
        · rw [kept_append, kept_append, List.append_assoc]
          exact List.append_nil _

/-- Behind instructions that are no terminators `RemoveBranch` keeps the debug
values only. -/
theorem removeBranch_spec {body tail : List (Inst ι)} (hbody : ∀ i ∈ body, i.isTerminator = false)
    (htail : ∀ i ∈ tail, isBranchOrDebug i = true) :
    (∀ i ∈ (removeBranch (body ++ tail)).1, i.isTerminator = false) ∧
      kept (removeBranch (body ++ tail)).1 = kept (body ++ tail) := by
  have hsplit : branchFree body ++ branchTail body = body := List.rdropWhile_append_rtakeWhile ..
  have hkept : ∀ is : List (Inst ι), (∀ i ∈ is, isBranchOrDebug i = true) → kept is = [] := by
    intro is h
    exact kept_eq_nil fun i hi => by simpa [isBranchOrDebug] using h i hi
  have hbodyTail : ∀ i ∈ branchTail body, isBranchOrDebug i = true :=
    fun i hi => List.mem_rtakeWhile_imp hi
  have hnoTerminator : ∀ i : Inst ι, i.isDebugValue = true → i.isTerminator = false := by
    intro i hi
    cases i <;> simp_all [Inst.isDebugValue, Inst.isTerminator, Inst.isBranch]
  rw [removeBranch_eq, branchFree_append htail, branchTail_append htail]
  constructor
  · intro i hi
    rcases List.mem_append.mp hi with hi | hi
    · apply hbody
      rw [← hsplit]
      exact List.mem_append_left _ hi
    · exact hnoTerminator i (List.mem_filter.mp hi).2
  · rw [kept_append, kept_append, hkept tail htail, List.append_nil]
    conv_rhs => rw [← hsplit, kept_append, hkept _ hbodyTail]
    congr 1
    apply hkept
    intro i hi
    simp [isBranchOrDebug, (List.mem_filter.mp hi).2]

/-- Branch rewriting preserves control flow. -/
theorem analyzeBranch_rewrite {block : List (Inst ι)} (hwell : TerminatorsLast block)
    (next : Option BlockId) (holds : CondCodes → Bool) :
    transfer holds next (analyzeBranch next true block).block = transfer holds next block ∧
      ((analyzeBranch next true block).failed = false →
        describe holds next (analyzeBranch next true block).TBB (analyzeBranch next true block).FBB
            (analyzeBranch next true block).Cond = transfer holds next block ∧
          ∃ block', rebuild (analyzeBranch next true block).block (analyzeBranch next true block).TBB
              (analyzeBranch next true block).FBB (analyzeBranch next true block).Cond =
                some block' ∧
            transfer holds next block' = transfer holds next block ∧ kept block' = kept block) := by
  have h := analyzeBranch_analyzed holds next hwell
  generalize analyzeBranch next true block = r at h
  refine ⟨h.transfers, ?_⟩
  intro hfail
  rcases h.exact hfail with ⟨hdesc, hins, body, tail, hblock, hbody, htail⟩
  obtain ⟨hclean, hkept⟩ := removeBranch_spec hbody htail
  rw [← hblock, h.keeps] at hkept
  rw [← hblock] at hclean
  refine ⟨hdesc, ?_⟩
  unfold rebuild
  cases hTBB : r.TBB with
  | none =>
      rw [hTBB] at hdesc
      refine ⟨_, rfl, ?_, hkept⟩
      rw [transfer, transferThen_of_not_terminator hclean, ← hdesc]
      rfl
  | some t =>
      rw [hTBB] at hdesc hins
      rcases @insertBranch_spec ι holds next _ t r.FBB r.Cond hins hclean with
        ⟨block', n, hinsert, htransfer, hkept'⟩
      refine ⟨block', ?_, by rw [htransfer, hdesc], by rw [hkept', hkept]⟩
      show (insertBranch (removeBranch r.block).1 (some t) r.FBB r.Cond).map Prod.fst = some block'
      rw [hinsert]
      rfl

/-- A conditional jump in front of a jump to the layout successor. -/
def towardsNext : List (Inst Unit) := [.other (), .JCCi 1 .COND_EQ, .debugValue (), .JMPi 2]

theorem towardsNext_terminatorsLast : TerminatorsLast towardsNext := by
  refine ⟨[.other ()], [.JCCi 1 .COND_EQ, .debugValue (), .JMPi 2], rfl, ?_, ?_⟩
  · intro i hi
    rw [List.mem_singleton.mp hi]
    rfl
  · intro i hi
    simp only [List.mem_cons, List.not_mem_nil, or_false] at hi
    rcases hi with rfl | rfl | rfl <;> simp [Inst.isTerminator, Inst.isBranch, Inst.isDebugValue]

theorem analyzeBranch_towardsNext : analyzeBranch (some 2) true towardsNext =
    ⟨[.other (), .JCCi 1 .COND_EQ, .debugValue ()], some 1, none, [.COND_EQ], false⟩ :=
  Eq.trans (run_again rfl) (Eq.trans (run_again rfl) (Eq.trans (run_again rfl) (run_done rfl)))

/-- The jump is gone, and rebuilt the block goes where it went. -/
theorem analyzeBranch_rewrite_example :
    transfer (fun _ => false) (some 2) [.other (), .JCCi 1 .COND_EQ, .debugValue ()] = .block 2 ∧
      describe (fun _ => false) (some 2) (some 1) none [.COND_EQ] = .block 2 ∧
      ∃ block', rebuild [.other (), .JCCi 1 .COND_EQ, .debugValue ()] (some 1) none [.COND_EQ] =
          some block' ∧
        transfer (fun _ => false) (some 2) block' = .block 2 ∧ kept block' = kept towardsNext := by
  have h := analyzeBranch_rewrite towardsNext_terminatorsLast (some 2) fun _ => false
  rw [analyzeBranch_towardsNext] at h
  exact ⟨h.1, h.2 rfl⟩

end Mandarin.Branch
