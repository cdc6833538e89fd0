import Mandarin.Branch.Insertion
import Mandarin.Select.Function

/-! # Blocks laid out in another order

The block a modifying analysis leaves is in a normal form: analysing it again finds the
same and changes nothing. Branches taken away and inserted again with every
fall-through spelled out do not depend on the block behind, so blocks can be laid out in
any order and the jumps the new order makes superfluous erased.
-/

namespace Mandarin.Branch

open Loop
open Select (layoutSucc)

variable {ι : Type} {next : Option BlockId}

/-! ## Analysing again -/

def AnalyzeState.start (block : List (Inst ι)) : AnalyzeState ι := ⟨block.reverse, [], none, none, []⟩

def scan (next : Option BlockId) (allowModify : Bool) (s : AnalyzeState ι) : Analysis ι :=
  run (analyzeStep next allowModify) AnalyzeState.measure (analyzeStep_decreases next allowModify) s

theorem analyzeBranch_eq_scan (next : Option BlockId) (allowModify : Bool) (block : List (Inst ι)) :
    analyzeBranch next allowModify block = scan next allowModify (.start block) := rfl

theorem AnalyzeState.start_block (s : AnalyzeState ι) :
    start s.block = ⟨s.suf.reverse ++ s.pre, [], none, none, []⟩ := by
  unfold start AnalyzeState.block
  rw [List.reverse_append, List.reverse_reverse]

/-- The block of the state or the result of a round. -/
def outcomeBlock : Outcome (AnalyzeState ι) (Analysis ι) → List (Inst ι)
  | .again s => s.block
  | .done r => r.block

theorem analyzeJCCi_block (s : AnalyzeState ι) (dst : BlockId) (cc : CondCodes) :
    outcomeBlock (analyzeJCCi s dst cc) = s.block := by
  rcases analyzeJCCi_cases s dst cc with h | ⟨_, h⟩ | ⟨_, _, _, h⟩
  · rw [h]
    rfl
  · rw [h]
    rfl
  · rw [h]
    rfl

/-- A round at anything but a jump is the same in both modes and leaves the block alone. -/
theorem analyzeStep_or_jump (next : Option BlockId) (s : AnalyzeState ι) :
    ((∀ allowModify, analyzeStep next allowModify s = analyzeStep next true s) ∧
      outcomeBlock (analyzeStep next true s) = s.block) ∨ ∃ dst pre, s.pre = .JMPi dst :: pre := by
  rcases s with ⟨pre, suf, TBB, FBB, Cond⟩
  cases pre with
  | nil => exact .inl ⟨fun _ => rfl, rfl⟩
  | cons i pre =>
      have hblock : pre.reverse ++ i :: suf = AnalyzeState.block ⟨i :: pre, suf, TBB, FBB, Cond⟩ :=
        @AnalyzeState.block_back ι ⟨i :: pre, suf, TBB, FBB, Cond⟩ i pre rfl
      cases i with
      | JMPi dst => exact .inr ⟨dst, pre, rfl⟩
      | debugValue i => exact .inl ⟨fun _ => rfl, hblock⟩
      | other i => exact .inl ⟨fun _ => rfl, hblock⟩
      | RET => exact .inl ⟨fun _ => rfl, hblock⟩
      | JMPr r => exact .inl ⟨fun _ => rfl, hblock⟩
      | JCCr r cc => exact .inl ⟨fun _ => rfl, hblock⟩
      | JCCi dst cc => exact .inl ⟨fun _ => rfl, (analyzeJCCi_block _ dst cc).trans hblock⟩

/-- Where the modifying scan has got to, any scan of the block as it is then gets as well. -/
def Rescanned (next : Option BlockId) (s : AnalyzeState ι) : Prop :=
  ∀ allowModify, scan next allowModify (.start s.block) = scan next allowModify s

theorem scan_again {allowModify : Bool} {s s' : AnalyzeState ι}
    (h : analyzeStep next allowModify s = .again s') :
    scan next allowModify s = scan next allowModify s' := run_again h

theorem scan_done {allowModify : Bool} {s : AnalyzeState ι} {r : Analysis ι}
    (h : analyzeStep next allowModify s = .done r) : scan next allowModify s = r := run_done h

/-- At a jump what is erased was scanned in vain. -/
theorem rescanned_jump (next : Option BlockId) (dst : BlockId) (pre suf : List (Inst ι))
    (s : AnalyzeState ι) : Rescanned next (analyzeJMPi next true pre suf dst s) := by
  intro allowModify
  rw [AnalyzeState.start_block]
  unfold analyzeJMPi
  rw [if_neg (by simp)]
  by_cases hnext : next = some dst
  · rw [if_pos hnext]
    rfl
  · rw [if_neg hnext]
    apply scan_again
    show Outcome.again (analyzeJMPi next allowModify pre [] dst _) = _
    unfold analyzeJMPi
    cases allowModify with
    | false => rfl
    | true => rw [if_neg (by simp), if_neg hnext]

theorem Rescanned.again {s s' : AnalyzeState ι} (h : Rescanned next s)
    (hstep : analyzeStep next true s = .again s') : Rescanned next s' := by
  rcases analyzeStep_or_jump next s with ⟨hsame, hblock⟩ | ⟨dst, pre, hpre⟩
  · intro allowModify
    rw [hstep] at hblock
    have hblock' : s'.block = s.block := hblock
    rw [hblock', h allowModify]
    exact scan_again ((hsame allowModify).trans hstep)
  · rcases s with ⟨_, suf, TBB, FBB, Cond⟩
    cases hpre
    cases hstep
    exact rescanned_jump next dst pre suf _

theorem Rescanned.done {s : AnalyzeState ι} {r : Analysis ι} (h : Rescanned next s)
    (hstep : analyzeStep next true s = .done r) (allowModify : Bool) :
    analyzeBranch next allowModify r.block = r := by
  rcases analyzeStep_or_jump next s with ⟨hsame, hblock⟩ | ⟨dst, pre, hpre⟩
  · rw [hstep] at hblock
    have hblock' : r.block = s.block := hblock
    rw [analyzeBranch_eq_scan, hblock', h allowModify]
    exact scan_done ((hsame allowModify).trans hstep)
  · rcases s with ⟨_, suf, TBB, FBB, Cond⟩
    cases hpre
    cases hstep

/-! ## No jump to the next block -/

/-- The unconditional destination, if there is one, is not the next block. -/
def Tight (next TBB FBB : Option BlockId) (Cond : List CondCodes) : Prop :=
  ∀ b, next = some b → (Cond = [] → TBB ≠ some b) ∧ FBB ≠ some b

theorem Tight.again {s s' : AnalyzeState ι} (h : Tight next s.TBB s.FBB s.Cond)
    (hstep : analyzeStep next true s = .again s') : Tight next s'.TBB s'.FBB s'.Cond := by
  rcases s with ⟨pre, suf, TBB, FBB, Cond⟩
  cases pre with
  | nil => cases hstep
  | cons i pre =>
      cases i with
      | debugValue i =>
          cases hstep
          exact h
      | other i => cases hstep
      | RET => cases hstep
      | JMPr r => cases hstep
      | JCCr r cc => cases hstep
      | JMPi dst =>
          cases hstep
          unfold analyzeJMPi
          rw [if_neg (by simp)]
          intro b hb
          split
          · simp
          · rename_i hne
            simp only [ne_eq, Option.some.injEq, reduceCtorEq, not_false_eq_true, and_true]
            rintro _ rfl
            exact hne hb
      | JCCi dst cc =>
          have hstep' : analyzeJCCi ⟨pre, .JCCi dst cc :: suf, TBB, FBB, Cond⟩ dst cc = .again s' :=
            hstep
          rcases analyzeJCCi_cases ⟨pre, .JCCi dst cc :: suf, TBB, FBB, Cond⟩ dst cc with
            hcase | ⟨hCond, hcase⟩ | ⟨_, _, _, hcase⟩
          · rw [hcase] at hstep'
            cases hstep'
          · rw [hcase] at hstep'
            cases hstep'
            intro b hb
            simp only [reduceCtorEq, false_implies, true_and]
            exact (h b hb).1 hCond
          · rw [hcase] at hstep'
            cases hstep'
            exact h

theorem Tight.done {s : AnalyzeState ι} {r : Analysis ι} (h : Tight next s.TBB s.FBB s.Cond)
    (hstep : analyzeStep next true s = .done r) : Tight next r.TBB r.FBB r.Cond := by
  rcases s with ⟨pre, suf, TBB, FBB, Cond⟩
  cases pre with
  | nil =>
      cases hstep
      exact h
  | cons i pre =>
      cases i with
      | debugValue i => cases hstep
      | JMPi dst => cases hstep
      | other i =>
          cases hstep
          exact h
      | RET =>
          cases hstep
          exact h
      | JMPr r =>
          cases hstep
          exact h
      | JCCr r cc =>
          cases hstep
          exact h
      | JCCi dst cc =>
          have hstep' : analyzeJCCi ⟨pre, .JCCi dst cc :: suf, TBB, FBB, Cond⟩ dst cc = .done r :=
            hstep
          rcases analyzeJCCi_cases ⟨pre, .JCCi dst cc :: suf, TBB, FBB, Cond⟩ dst cc with
            hcase | ⟨_, hcase⟩ | ⟨_, _, _, hcase⟩
          · rw [hcase] at hstep'
            cases hstep'
            exact h
          · rw [hcase] at hstep'
            cases hstep'
          · rw [hcase] at hstep'
            cases hstep'

/-- A modifying analysis puts any block in a normal form: either mode finds the same
there, verdict included, and changes nothing, and no jump is left that only goes to the
next block. -/
theorem analyzeBranch_normal (next : Option BlockId) (block : List (Inst ι)) :
    (∀ allowModify, analyzeBranch next allowModify (analyzeBranch next true block).block =
        analyzeBranch next true block) ∧
      Tight next (analyzeBranch next true block).TBB (analyzeBranch next true block).FBB
        (analyzeBranch next true block).Cond := by
  have hstart : (AnalyzeState.start block).block = block := by
    simp [AnalyzeState.start, AnalyzeState.block]
  constructor
  · apply @run_inv _ _ _ _ _ _ _ (Rescanned next)
      (fun r => ∀ allowModify, analyzeBranch next allowModify r.block = r)
    · exact fun _ _ h hstep => h.done hstep
    · exact fun _ _ h hstep => h.again hstep
    · intro allowModify
      show scan next allowModify (.start (AnalyzeState.start block).block) = _
      rw [hstart]
      rfl
  · apply @run_inv _ _ _ _ _ _ _ (fun s : AnalyzeState ι => Tight next s.TBB s.FBB s.Cond)
      (fun r : Analysis ι => Tight next r.TBB r.FBB r.Cond)
    · exact fun _ _ h hstep => h.done hstep
    · exact fun _ _ h hstep => h.again hstep
    · intro b _
      simp

/-! ## Any other order -/

def otherwise (next : Option BlockId) (r : Analysis ι) : Option BlockId :=
  if r.Cond = [] then none else r.FBB.or next

/-- A block rebuilt with its fall-throughs spelled out, then analysed in front of `next'`;
a block that is not understood stays. -/
def relay (next next' : Option BlockId) (block : List (Inst ι)) : Option (List (Inst ι)) :=
  match analyzeBranch next true block with
  | r => if r.failed then some r.block
      else (insertBranch (removeBranch r.block).1 (r.TBB.or next) (otherwise next r) r.Cond).map
        fun inserted => (analyzeBranch next' true inserted.1).block

theorem insertBranch_append {block block' : List (Inst ι)} {TBB FBB : Option BlockId}
    {Cond : List CondCodes} {n : Nat} (h : insertBranch block TBB FBB Cond = some (block', n)) :
    ∃ js, block' = block ++ js ∧ ∀ i ∈ js, i.isBranch = true := by
  cases TBB with
  | none => cases h
  | some T =>
      match Cond, FBB, h with
      | [], none, h =>
          cases h
          exact ⟨[.JMPi T], rfl, by simp [Inst.isBranch]⟩
      | [cc], none, h =>
          cases h
          exact ⟨[.JCCi T cc], rfl, by simp [Inst.isBranch]⟩
      | [cc], some F, h =>
          cases h
          refine ⟨[.JCCi T cc, .JMPi F], ?_, by simp [Inst.isBranch]⟩
          rw [List.append_assoc]
          rfl

theorem describe_spelled {r : Analysis ι} (hins : Insertable r.TBB r.FBB r.Cond)
    (hinside : ∀ holds, describe holds next r.TBB r.FBB r.Cond ≠ .fallOff) :
    ∃ t, r.TBB.or next = some t ∧ Insertable (some t) (otherwise next r) r.Cond ∧
      ∀ holds next', describe holds next' (some t) (otherwise next r) r.Cond =
        describe holds next r.TBB r.FBB r.Cond := by
  rcases r with ⟨block, TBB, FBB, Cond, failed⟩
  rcases hins with ⟨hCond, hFBB⟩ | ⟨cc, t, hCond, hTBB⟩
  · cases hCond
    cases hFBB
    cases TBB with
    | some t => exact ⟨t, rfl, .inl ⟨rfl, rfl⟩, fun _ _ => rfl⟩
    | none =>
        cases next with
        | some b => exact ⟨b, rfl, .inl ⟨rfl, rfl⟩, fun _ _ => rfl⟩
        | none => exact absurd rfl (hinside fun _ => false)
  · cases hCond
    cases hTBB
    refine ⟨t, rfl, .inr ⟨cc, t, rfl, rfl⟩, ?_⟩
    intro holds next'
    have hfall := hinside fun _ => false
    show (if holds cc then Exit.block t else fallThrough ((FBB.or next).or next')) =
      if holds cc then Exit.block t else fallThrough (FBB.or next)
    cases helse : FBB.or next with
    | some f => rfl
    | none =>
        simp only [describe, helse, Bool.false_eq_true, ↓reduceIte] at hfall
        exact absurd rfl hfall

/-- Control does not run off the end of the block. -/
def NeverFalls (block : List (Inst ι)) : Prop :=
  ∀ holds next next', transfer holds next block = transfer holds next' block

/-- A block that is not understood can only be moved if it does not fall through. -/
def Movable (next next' : Option BlockId) (block : List (Inst ι)) : Prop :=
  (analyzeBranch next true block).failed = true →
    next' = next ∨ NeverFalls (analyzeBranch next true block).block

theorem relay_spec {block : List (Inst ι)} (hwell : TerminatorsLast block)
    (hinside : ∀ holds, transfer holds next block ≠ .fallOff) {next' : Option BlockId}
    (hmovable : Movable next next' block) :
    ∃ block', relay next next' block = some block' ∧ kept block' = kept block ∧
      ∀ holds, transfer holds next' block' = transfer holds next block := by
  have h := fun holds => analyzeBranch_analyzed holds next hwell
  unfold relay
  unfold Movable at hmovable
  generalize analyzeBranch next true block = r at h hmovable
  show ∃ block', (if r.failed then some r.block
      else (insertBranch (removeBranch r.block).1 (r.TBB.or next) (otherwise next r) r.Cond).map
        fun inserted => (analyzeBranch next' true inserted.1).block) = some block' ∧ _
  cases hfail : r.failed with
  | true =>
      refine ⟨r.block, rfl, (h fun _ => false).keeps, ?_⟩
      intro holds
      rcases hmovable hfail with hsame | hnever
      · rw [hsame]
        exact (h holds).transfers
      · exact (hnever holds next' next).trans (h holds).transfers
  | false =>
      have hdesc := fun holds => ((h holds).exact hfail).1
      rcases (h fun _ => false).exact hfail with ⟨_, hins, body, tail, hblock, hbody, htail⟩
      rcases removeBranch_spec hbody htail with ⟨hclean, hkept⟩
      rw [← hblock] at hclean hkept
      obtain ⟨t, hT, hins', hspelled⟩ := describe_spelled hins fun holds => by
        rw [hdesc holds]
        exact hinside holds
      have hspec := fun holds =>
        @insertBranch_spec ι holds next' _ t (otherwise next r) r.Cond hins' hclean
      rcases hspec fun _ => false with ⟨inserted, n, hinsert, _, hkept'⟩
      rcases insertBranch_append hinsert with ⟨js, rfl, hjs⟩
      have hwell' := terminatorsLast_append hclean hjs
      have hagain := fun holds => analyzeBranch_analyzed holds next' hwell'
      refine ⟨(analyzeBranch next' true ((removeBranch r.block).1 ++ js)).block, ?_, ?_, ?_⟩
      · rw [hT, hinsert]
        rfl
      · rw [(hagain fun _ => false).keeps, hkept', hkept, (h fun _ => false).keeps]
      · intro holds
        rcases hspec holds with ⟨inserted', n', hinsert', htransfer, _⟩
        rw [hinsert] at hinsert'
        cases hinsert'
        rw [(hagain holds).transfers, htransfer, hspelled, hdesc]

/-! ## What a relaid block looks like -/

theorem analyzeStep_again_pre {s s' : AnalyzeState ι} (hstep : analyzeStep next true s = .again s') :
    ∃ i, s.pre = i :: s'.pre := by
  rcases s with ⟨pre, suf, TBB, FBB, Cond⟩
  cases pre with
  | nil => cases hstep
  | cons i pre =>
      refine ⟨i, ?_⟩
      cases i with
      | debugValue i =>
          cases hstep
          rfl
      | other i => cases hstep
      | RET => cases hstep
      | JMPr r => cases hstep
      | JCCr r cc => cases hstep
      | JMPi dst =>
          cases hstep
          unfold analyzeJMPi
          rw [if_neg (by simp)]
          split <;> rfl
      | JCCi dst cc =>
          have hstep' : analyzeJCCi ⟨pre, .JCCi dst cc :: suf, TBB, FBB, Cond⟩ dst cc = .again s' :=
            hstep
          rcases analyzeJCCi_cases ⟨pre, .JCCi dst cc :: suf, TBB, FBB, Cond⟩ dst cc with
            h | ⟨_, h⟩ | ⟨_, _, _, h⟩
          · rw [h] at hstep'
            cases hstep'
          · rw [h] at hstep'
            cases hstep'
            rfl
          · rw [h] at hstep'
            cases hstep'
            rfl

theorem scan_block {s : AnalyzeState ι} (h : ∀ i ∈ s.pre, ∀ dst, i ≠ .JMPi dst) :
    (scan next true s).block = s.block := by
  apply @run_inv _ _ _ _ _ _ _ (fun t : AnalyzeState ι =>
    t.block = s.block ∧ ∀ i ∈ t.pre, ∀ dst, i ≠ .JMPi dst) (fun r : Analysis ι => r.block = s.block)
  · intro t r ht hstep
    rcases analyzeStep_or_jump next t with ⟨_, hblock⟩ | ⟨dst, pre, hpre⟩
    · rw [hstep] at hblock
      exact Eq.trans hblock ht.1
    · exact absurd rfl (ht.2 (.JMPi dst) (by simp [hpre]) dst)
  · intro t t' ht hstep
    rcases analyzeStep_again_pre hstep with ⟨i, hpre⟩
    refine ⟨?_, fun j hj => ht.2 j (by simp [hpre, hj])⟩
    rcases analyzeStep_or_jump next t with ⟨_, hblock⟩ | ⟨dst, pre, hjump⟩
    · rw [hstep] at hblock
      exact Eq.trans hblock ht.1
    · exact absurd rfl (ht.2 (.JMPi dst) (by simp [hjump]) dst)
  · exact ⟨rfl, h⟩

/-- Only a jump at the end is erased, and only in front of its destination. -/
theorem analyzeBranch_jump_block {is : List (Inst ι)} (h : ∀ i ∈ is, ∀ dst, i ≠ .JMPi dst)
    (F : BlockId) : (analyzeBranch next true (is ++ [.JMPi F])).block =
      is ++ if next = some F then [] else [.JMPi F] := by
  have hstart : AnalyzeState.start (is ++ [Inst.JMPi F]) =
      ⟨.JMPi F :: is.reverse, [], none, none, []⟩ := by
    unfold AnalyzeState.start
    rw [List.reverse_append]
    rfl
  have hstep : analyzeStep next true ⟨.JMPi F :: is.reverse, [], none, none, []⟩ =
      .again (analyzeJMPi next true is.reverse [] F ⟨.JMPi F :: is.reverse, [], none, none, []⟩) := rfl
  rw [analyzeBranch_eq_scan, hstart, scan_again hstep]
  unfold analyzeJMPi
  rw [if_neg (by simp)]
  by_cases hnext : next = some F
  · rw [if_pos hnext, if_pos hnext, scan_block (by simpa using h), AnalyzeState.block,
      List.reverse_reverse]
  · rw [if_neg hnext, if_neg hnext, scan_block (by simpa using h), AnalyzeState.block,
      List.reverse_reverse]

theorem analyzeBranch_terminatorsLast {block : List (Inst ι)} (hwell : TerminatorsLast block) :
    TerminatorsLast (analyzeBranch next true block).block := by
  apply @run_inv _ _ _ _ _ _ _ (AnalyzeInv (fun _ => false) next block)
    (fun r : Analysis ι => TerminatorsLast r.block)
  · intro s r h hstep
    rcases analyzeStep_or_jump next s with ⟨_, hblock⟩ | ⟨dst, pre, hpre⟩
    · rw [hstep] at hblock
      have hblock' : r.block = s.block := hblock
      rw [hblock']
      exact h.wellFormed
    · rcases s with ⟨_, suf, TBB, FBB, Cond⟩
      cases hpre
      cases hstep
  · exact fun s s' h hstep => analyzeStep_inv h hstep
  · have hstart : (⟨block.reverse, [], none, none, []⟩ : AnalyzeState ι).block = block := by
      simp [AnalyzeState.block]
    exact ⟨by rw [hstart], rfl, by simp, Or.inl ⟨rfl, rfl⟩, by rw [hstart], by rwa [hstart]⟩

/-- What a block ends in behind the branches for `next'`. -/
inductive Ends (next next' : Option BlockId) (r : Analysis ι) (B : List (Inst ι)) :
    List (Inst ι) → Prop where
  | jump (T : BlockId) (hCond : r.Cond = []) :
      Ends next next' r B (B ++ if next' = some T then [] else [.JMPi T])
  | conditional (cc : CondCodes) (T F : BlockId) (hCond : r.Cond = [cc]) (hTBB : r.TBB = some T)
      (hFBB : otherwise next r = some F) :
      Ends next next' r B (B ++ .JCCi T cc :: if next' = some F then [] else [.JMPi F])

/-- A block that is understood is relaid as its other instructions, a conditional jump if it
had one, and a jump unless that goes to the next block. -/
theorem relay_ends {block block' : List (Inst ι)} (hwell : TerminatorsLast block)
    (hinside : ∀ holds, transfer holds next block ≠ .fallOff) {next' : Option BlockId}
    (hrelay : relay next next' block = some block')
    (hfail : (analyzeBranch next true block).failed = false) :
    ∃ B, (∀ i ∈ B, i.isTerminator = false) ∧ Ends next next' (analyzeBranch next true block) B block' := by
  have h := fun holds => analyzeBranch_analyzed holds next hwell
  unfold relay at hrelay
  generalize analyzeBranch next true block = r at h hrelay hfail
  have hrelay' : (if r.failed then some r.block
      else (insertBranch (removeBranch r.block).1 (r.TBB.or next) (otherwise next r) r.Cond).map
        fun inserted => (analyzeBranch next' true inserted.1).block) = some block' := hrelay
  rw [hfail] at hrelay'
  rcases (h fun _ => false).exact hfail with ⟨hdesc, hins, body, tail, hblock, hbody, htail⟩
  obtain ⟨hclean, _⟩ := removeBranch_spec hbody htail
  rw [← hblock] at hclean
  refine ⟨_, hclean, ?_⟩
  have hnoJump : ∀ i ∈ (removeBranch r.block).1, ∀ dst, i ≠ .JMPi dst := by
    rintro i hi dst rfl
    cases hclean _ hi
  generalize (removeBranch r.block).1 = B at hnoJump hrelay'
  have hfall := hinside fun _ => false
  rw [← hdesc] at hfall
  rcases r with ⟨_, TBB, FBB, Cond, failed⟩
  rcases hins with ⟨hCond, hFBB⟩ | ⟨cc, T, hCond, hTBB⟩
  · cases hCond
    cases hFBB
    obtain ⟨T, hT⟩ : ∃ T, TBB.or next = some T := by
      cases TBB with
      | some T => exact ⟨T, rfl⟩
      | none =>
          cases next with
          | some b => exact ⟨b, rfl⟩
          | none => exact absurd rfl hfall
    rw [hT] at hrelay'
    have heq : (analyzeBranch next' true (B ++ [.JMPi T])).block = block' :=
      Option.some.inj hrelay'
    rw [← heq, analyzeBranch_jump_block hnoJump]
    exact .jump T rfl
  · cases hCond
    cases hTBB
    have hfall' : fallThrough (FBB.or next) ≠ .fallOff := hfall
    obtain ⟨F, hF⟩ : ∃ F, FBB.or next = some F := by
      cases helse : FBB.or next with
      | some F => exact ⟨F, rfl⟩
      | none =>
          rw [helse] at hfall'
          exact absurd rfl hfall'
    have hother : ∀ b : List (Inst ι), otherwise next ⟨b, some T, FBB, [cc], failed⟩ = some F :=
      fun _ => hF
    rw [hother] at hrelay'
    have heq : (analyzeBranch next' true (B ++ [.JCCi T cc] ++ [.JMPi F])).block = block' :=
      Option.some.inj hrelay'
    have hnoJump' : ∀ i ∈ B ++ [.JCCi T cc], ∀ dst, i ≠ .JMPi dst := by
      intro i hi dst
      rcases List.mem_append.mp hi with hi | hi
      · exact hnoJump i hi dst
      · rw [List.mem_singleton.mp hi]
        simp
    rw [← heq, analyzeBranch_jump_block hnoJump', List.append_assoc, List.singleton_append]
    exact .conditional cc T F rfl rfl (hother _)

theorem relay_terminatorsLast {block block' : List (Inst ι)} (hwell : TerminatorsLast block)
    (hinside : ∀ holds, transfer holds next block ≠ .fallOff) {next' : Option BlockId}
    (hrelay : relay next next' block = some block') : TerminatorsLast block' := by
  cases hfail : (analyzeBranch next true block).failed with
  | true =>
      unfold relay at hrelay
      simp only [hfail, ↓reduceIte, Option.some.injEq] at hrelay
      rw [← hrelay]
      exact analyzeBranch_terminatorsLast hwell
  | false =>
      obtain ⟨B, hB, hends⟩ := relay_ends hwell hinside hrelay hfail
      cases hends with
      | jump T hCond =>
          apply terminatorsLast_append hB
          split <;> simp [Inst.isBranch]
      | conditional cc T F hCond hTBB hFBB =>
          apply terminatorsLast_append hB
          split <;> simp [Inst.isBranch]

/-! ## Functions -/

/-- Where control goes from block to block, the condition codes meaning at the end of
each what `conds` says. -/
def trace (next : BlockId → Option BlockId) (blocks : BlockId → List (Inst ι)) :
    BlockId → List (CondCodes → Bool) → List Exit
  | _, [] => []
  | b, holds :: conds =>
      match transfer holds (next b) (blocks b) with
      | .block c => .block c :: trace next blocks c conds
      | e => [e]

/-- Control stays inside the blocks laid out. -/
structure Inside (layout : List BlockId) (blocks : BlockId → List (Inst ι)) : Prop where
  wellFormed : ∀ b ∈ layout, TerminatorsLast (blocks b)
  closed : ∀ b ∈ layout, ∀ holds c,
    transfer holds (layoutSucc layout b) (blocks b) = .block c → c ∈ layout
  noFallOff : ∀ b ∈ layout, ∀ holds, transfer holds (layoutSucc layout b) (blocks b) ≠ .fallOff

/-- Blocks can be laid out in any order, as long as those that are not understood and
fall through keep their successors: every block is rebuilt with its other instructions as
they were, and control takes the same way through the function whatever the conditions
are. -/
theorem relayout_preserves {layout layout' : List BlockId} {blocks : BlockId → List (Inst ι)}
    (h : Inside layout blocks)
    (hmovable : ∀ b ∈ layout, Movable (layoutSucc layout b) (layoutSucc layout' b) (blocks b)) :
    ∃ blocks' : BlockId → List (Inst ι),
      (∀ b ∈ layout, relay (layoutSucc layout b) (layoutSucc layout' b) (blocks b) =
          some (blocks' b) ∧ kept (blocks' b) = kept (blocks b)) ∧
        ∀ b ∈ layout, ∀ conds,
          trace (layoutSucc layout') blocks' b conds = trace (layoutSucc layout) blocks b conds := by
  have hblocks : ∀ b, ∃ block', b ∈ layout →
      relay (layoutSucc layout b) (layoutSucc layout' b) (blocks b) = some block' ∧
        kept block' = kept (blocks b) ∧ ∀ holds, transfer holds (layoutSucc layout' b) block' =
          transfer holds (layoutSucc layout b) (blocks b) := by
    intro b
    by_cases hb : b ∈ layout
    · obtain ⟨block', hrelay⟩ :=
        relay_spec (h.wellFormed b hb) (h.noFallOff b hb) (hmovable b hb)
      exact ⟨block', fun _ => hrelay⟩
    · exact ⟨[], fun hmem => absurd hmem hb⟩
  choose blocks' hrelay using hblocks
  refine ⟨blocks', fun b hb => ⟨(hrelay b hb).1, (hrelay b hb).2.1⟩, ?_⟩
  intro b hb conds
  induction conds generalizing b with
  | nil => rfl
  | cons holds conds ih =>
      unfold trace
      rw [(hrelay b hb).2.2 holds]
      cases hexit : transfer holds (layoutSucc layout b) (blocks b) with
      | block c => exact congrArg _ (ih c (h.closed b hb holds c hexit))
      | indirect r => rfl
      | ret => rfl
      | fallOff => rfl

/-- A conditional jump over a block that jumps to where it falls. -/
def diamond : BlockId → List (Inst Unit)
  | 0 => [.JCCi 2 .COND_EQ]
  | 1 => [.JMPi 2]
  | _ => [.RET]

theorem diamond_transfer (holds : CondCodes → Bool) (next : Option BlockId) (b : BlockId) :
    transfer holds next (diamond b) =
      match b with
      | 0 => if holds .COND_EQ then .block 2 else fallThrough next
      | 1 => .block 2
      | _ => .ret := by
  unfold diamond
  split <;> rfl

theorem diamond_inside : Inside [0, 1, 2] diamond where
  wellFormed := by
    intro b _
    apply terminatorsLast_of_branches
    unfold diamond
    split <;> decide
  closed := by
    intro b hb holds c h
    rw [diamond_transfer] at h
    simp only [List.mem_cons, List.not_mem_nil, or_false] at hb
    rcases hb with rfl | rfl | rfl
    · by_cases heq : holds .COND_EQ = true
      · rw [if_pos heq] at h
        cases h
        decide
      · rw [if_neg heq] at h
        cases h
        decide
    · cases h
      decide
    · cases h
  noFallOff := by
    intro b hb holds h
    rw [diamond_transfer] at h
    simp only [List.mem_cons, List.not_mem_nil, or_false] at hb
    rcases hb with rfl | rfl | rfl
    · by_cases heq : holds .COND_EQ = true
      · rw [if_pos heq] at h
        cases h
      · rw [if_neg heq] at h
        cases h
    · cases h
    · cases h

theorem analyzeBranch_diamond :
    analyzeBranch (some 1) true (diamond 0) = ⟨diamond 0, some 2, none, [.COND_EQ], false⟩ ∧
      analyzeBranch (some 2) true (diamond 1) = ⟨[], none, none, [], false⟩ ∧
      analyzeBranch none true (diamond 2) = ⟨diamond 2, none, none, [], true⟩ :=
  ⟨(scan_again rfl).trans (scan_done rfl), (scan_again rfl).trans (scan_done rfl), scan_done rfl⟩

theorem diamond_movable : ∀ b ∈ [0, 1, 2],
    Movable (layoutSucc [0, 1, 2] b) (layoutSucc [0, 2, 1] b) (diamond b) := by
  obtain ⟨h0, h1, h2⟩ := analyzeBranch_diamond
  intro b hb hfailed
  simp only [List.mem_cons, List.not_mem_nil, or_false] at hb
  rcases hb with rfl | rfl | rfl
  · rw [show layoutSucc [0, 1, 2] 0 = some 1 from rfl, h0] at hfailed
    cases hfailed
  · rw [show layoutSucc [0, 1, 2] 1 = some 2 from rfl, h1] at hfailed
    cases hfailed
  · rw [show layoutSucc [0, 1, 2] 2 = none from rfl, h2]
    exact .inr fun _ _ _ => rfl

/-- The skipped block is moved behind the others. -/
theorem relayout_preserves_diamond : ∃ blocks' : BlockId → List (Inst Unit), ∀ conds,
    trace (layoutSucc [0, 2, 1]) blocks' 0 conds = trace (layoutSucc [0, 1, 2]) diamond 0 conds := by
  obtain ⟨blocks', _, htrace⟩ :=
    @relayout_preserves Unit [0, 1, 2] [0, 2, 1] diamond diamond_inside diamond_movable
  exact ⟨blocks', htrace 0 List.mem_cons_self⟩

theorem relay_diamond :
    relay (some 1) (some 2) (diamond 0) = some [.JCCi 2 .COND_EQ, .JMPi 1] ∧
      relay (some 2) none (diamond 1) = some [.JMPi 2] ∧
      relay none (some 1) (diamond 2) = some [.RET] := by
  obtain ⟨h0, h1, h2⟩ := analyzeBranch_diamond
  have hremove0 : removeBranch (diamond 0) = ([], 1) := by rw [removeBranch_eq]; rfl
  have hremove1 : removeBranch ([] : List (Inst Unit)) = ([], 0) := by rw [removeBranch_eq]; rfl
  refine ⟨?_, ?_, ?_⟩
  · unfold relay
    simp only [h0, hremove0]
    have hjump := @analyzeBranch_jump_block Unit (some 2) [.JCCi 2 .COND_EQ] (by simp) 1
    exact congrArg some hjump
  · unfold relay
    simp only [h1, hremove1]
    have hjump := @analyzeBranch_jump_block Unit none [] (by simp) 2
    exact congrArg some hjump
  · unfold relay
    simp only [h2]
    rfl

end Mandarin.Branch
