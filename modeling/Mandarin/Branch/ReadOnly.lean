import Mandarin.Branch.Rewrite

/-! # Analysis without modification

Without permission to modify, the scan reads every branch and erases nothing, so
its result is a right fold over the block. A jump met on the way replaces `TBB`
and leaves `FBB` and `Cond` as a conditional jump behind it set them. What comes
out is the control transfer unless there is such a jump in front of the last
conditional one and control differs between the two.
-/

namespace Mandarin.Branch

open Loop

variable {ι : Type}

/-! ## The scan as a fold -/

structure Found where
  TBB : Option BlockId
  FBB : Option BlockId
  Cond : List CondCodes
  deriving DecidableEq, Repr

def Found.conditional (found : Found) (dst : BlockId) (cc : CondCodes) : Option Found :=
  if cc = .COND_INVALID then none
  else
    match found.Cond with
    | [] => some ⟨some dst, found.TBB, [cc]⟩
    | old :: _ => if found.TBB = some dst ∧ old = cc then some found else none

/-- What reading one instruction in front of the others does to them; `none` is a
failed analysis. -/
def Found.read (i : Inst ι) (found : Found) : Option Found :=
  match i with
  | .other _ | .debugValue _ => some found
  | .RET | .JMPr _ | .JCCr _ _ => none
  | .JMPi dst => some { found with TBB := some dst }
  | .JCCi dst cc => found.conditional dst cc

def readBranches (is : List (Inst ι)) : Option Found :=
  is.foldr (fun i found => found.bind (Found.read i)) (some ⟨none, none, []⟩)

@[simp] theorem readBranches_nil : readBranches ([] : List (Inst ι)) = some ⟨none, none, []⟩ := rfl

@[simp] theorem readBranches_cons (i : Inst ι) (is : List (Inst ι)) :
    readBranches (i :: is) = (readBranches is).bind (Found.read i) := rfl

theorem readBranches_append_of_none {is js : List (Inst ι)} (h : readBranches js = none) :
    readBranches (is ++ js) = none := by
  induction is with
  | nil => exact h
  | cons i is ih => rw [List.cons_append, readBranches_cons, ih, Option.bind_none]

theorem readBranches_append_of_not_terminator {is js : List (Inst ι)}
    (h : ∀ i ∈ is, i.isTerminator = false) : readBranches (is ++ js) = readBranches js := by
  induction is with
  | nil => rfl
  | cons i is ih =>
      rw [List.cons_append, readBranches_cons, ih fun j hj => h j (by simp [hj])]
      have hi := h i (by simp)
      cases i with
      | other i => cases readBranches js <;> rfl
      | debugValue i => cases readBranches js <;> rfl
      | JMPi dst => cases hi
      | JCCi dst cc => cases hi
      | JMPr r => cases hi
      | JCCr r cc => cases hi
      | RET => cases hi

def AnalyzeState.found (s : AnalyzeState ι) : Found := ⟨s.TBB, s.FBB, s.Cond⟩

/-- The result `r` is what the fold says of the block in state `s`. -/
def ReadsAs (s : AnalyzeState ι) (r : Analysis ι) : Prop :=
  readBranches s.suf = some s.found → TerminatorsLast s.block →
    r.block = s.block ∧
      ((r.failed = true ∧ readBranches s.block = none) ∨
        (r.failed = false ∧ readBranches s.block = some ⟨r.TBB, r.FBB, r.Cond⟩))

theorem readsAs_of_failed {s : AnalyzeState ι} {r : Analysis ι} {i : Inst ι} {pre : List (Inst ι)}
    (hpre : s.pre = i :: pre) (hblock : r.block = s.block) (hfailed : r.failed = true)
    (hread : Found.read i s.found = none) : ReadsAs s r := by
  intro hsuf _
  refine ⟨hblock, Or.inl ⟨hfailed, ?_⟩⟩
  rw [← s.block_back hpre]
  apply readBranches_append_of_none
  rw [readBranches_cons, hsuf]
  exact hread

theorem analyzeJCCi_found (s : AnalyzeState ι) (dst : BlockId) (cc : CondCodes) :
    (s.found.conditional dst cc = none ∧ analyzeJCCi s dst cc = s.finish true) ∨
      ∃ found : Found, s.found.conditional dst cc = some found ∧
        analyzeJCCi s dst cc =
          .again { s with TBB := found.TBB, FBB := found.FBB, Cond := found.Cond } := by
  unfold Found.conditional analyzeJCCi
  by_cases hinvalid : cc = .COND_INVALID
  · exact .inl ⟨if_pos hinvalid, if_pos hinvalid⟩
  · rw [if_neg hinvalid, if_neg hinvalid]
    obtain ⟨pre, suf, TBB, FBB, Cond⟩ := s
    cases Cond with
    | nil => exact .inr ⟨⟨some dst, TBB, [cc]⟩, rfl, rfl⟩
    | cons old rest =>
        by_cases hTBB : TBB = some dst
        · by_cases hold : old = cc
          · exact .inr ⟨⟨TBB, FBB, old :: rest⟩, by simp [AnalyzeState.found, hTBB, hold],
              by simp [hTBB, hold]⟩
          · exact .inl ⟨by simp [AnalyzeState.found, hold], by simp [hTBB, hold]⟩
        · exact .inl ⟨by simp [AnalyzeState.found, hTBB], by simp [hTBB]⟩

theorem readsAs_of_again {s s' : AnalyzeState ι} {r : Analysis ι} {i : Inst ι}
    {pre : List (Inst ι)} (h : ReadsAs s' r) (hpre : s.pre = i :: pre) (hpre' : s'.pre = pre)
    (hsuf' : s'.suf = i :: s.suf) (hread : Found.read i s.found = some s'.found) :
    ReadsAs s r := by
  intro hsuf hwell
  have hblock : s'.block = s.block := by
    rw [AnalyzeState.block, hpre', hsuf', s.block_back hpre]
  have hsuf'' : readBranches s'.suf = some s'.found := by
    rw [hsuf', readBranches_cons, hsuf]
    exact hread
  rw [← hblock] at hwell ⊢
  exact h hsuf'' hwell

theorem analyzeStep_readsAs_done {next : Option BlockId} {s : AnalyzeState ι} {r : Analysis ι}
    (hstep : analyzeStep next false s = .done r) : ReadsAs s r := by
  unfold analyzeStep at hstep
  cases hpre : s.pre with
  | nil =>
      rw [hpre] at hstep
      cases hstep
      intro hsuf _
      refine ⟨rfl, Or.inr ⟨rfl, ?_⟩⟩
      rw [AnalyzeState.block, hpre]
      exact hsuf
  | cons i pre =>
      rw [hpre] at hstep
      have hblock := s.block_back hpre
      cases i with
      | debugValue i => cases hstep
      | other i =>
          cases hstep
          intro hsuf hwell
          refine ⟨hblock, Or.inr ⟨rfl, ?_⟩⟩
          rw [← hblock] at hwell ⊢
          have hbefore := hwell.before rfl rfl
          rw [readBranches_append_of_not_terminator hbefore, readBranches_cons, hsuf]
          rfl
      | RET =>
          cases hstep
          exact readsAs_of_failed hpre hblock rfl rfl
      | JMPr q =>
          cases hstep
          exact readsAs_of_failed hpre hblock rfl rfl
      | JCCr q cc =>
          cases hstep
          exact readsAs_of_failed hpre hblock rfl rfl
      | JMPi dst => cases hstep
      | JCCi dst cc =>
          rcases analyzeJCCi_found { s with pre := pre, suf := .JCCi dst cc :: s.suf } dst cc with
            ⟨hnone, hcase⟩ | ⟨found, _, hcase⟩
          · simp only [hcase] at hstep
            cases hstep
            exact readsAs_of_failed hpre hblock rfl hnone
          · simp only [hcase] at hstep
            cases hstep

theorem analyzeStep_readsAs_again {next : Option BlockId} {s s' : AnalyzeState ι} {r : Analysis ι}
    (hstep : analyzeStep next false s = .again s') (h : ReadsAs s' r) : ReadsAs s r := by
  unfold analyzeStep at hstep
  cases hpre : s.pre with
  | nil =>
      rw [hpre] at hstep
      cases hstep
  | cons i pre =>
      rw [hpre] at hstep
      cases i with
      | debugValue i =>
          cases hstep
          exact readsAs_of_again h hpre rfl rfl rfl
      | other i => cases hstep
      | RET => cases hstep
      | JMPr q => cases hstep
      | JCCr q cc => cases hstep
      | JMPi dst =>
          cases hstep
          exact readsAs_of_again h hpre rfl rfl rfl
      | JCCi dst cc =>
          rcases analyzeJCCi_found { s with pre := pre, suf := .JCCi dst cc :: s.suf } dst cc with
            ⟨_, hcase⟩ | ⟨found, hsome, hcase⟩
          · simp only [hcase] at hstep
            cases hstep
          · simp only [hcase] at hstep
            cases hstep
            exact readsAs_of_again h hpre rfl rfl hsome

/-- The read-only analysis leaves the block alone and returns what the fold reads. -/
theorem analyzeBranch_readOnly {block : List (Inst ι)} (hwell : TerminatorsLast block)
    (next : Option BlockId) :
    (analyzeBranch next false block).block = block ∧
      (((analyzeBranch next false block).failed = true ∧ readBranches block = none) ∨
        ((analyzeBranch next false block).failed = false ∧
          readBranches block = some ⟨(analyzeBranch next false block).TBB,
            (analyzeBranch next false block).FBB, (analyzeBranch next false block).Cond⟩)) := by
  have hrun : ReadsAs ⟨block.reverse, [], none, none, []⟩ (analyzeBranch next false block) :=
    run_rel (fun _ _ => analyzeStep_readsAs_done) (fun _ _ _ => analyzeStep_readsAs_again) _
  have hblock : (⟨block.reverse, [], none, none, []⟩ : AnalyzeState ι).block = block := by
    simp [AnalyzeState.block]
  unfold ReadsAs at hrun
  rw [hblock] at hrun
  exact hrun rfl hwell

theorem analyzeBranch_of_read {block : List (Inst ι)} (hwell : TerminatorsLast block)
    {found : Found} (hread : readBranches block = some found) (next : Option BlockId) :
    analyzeBranch next false block = ⟨block, found.TBB, found.FBB, found.Cond, false⟩ := by
  obtain ⟨hblock, hresult⟩ := analyzeBranch_readOnly hwell next
  generalize analyzeBranch next false block = r at hblock hresult
  obtain ⟨_, TBB, FBB, Cond, failed⟩ := r
  rw [hread] at hresult
  rcases hresult with ⟨_, hnone⟩ | ⟨hsuccess, hfound⟩
  · cases hnone
  · cases hblock
    cases hsuccess
    cases hfound
    rfl

/-! ## What the fold reads -/

def firstJump : List (Inst ι) → Option BlockId
  | [] => none
  | .JMPi dst :: _ => some dst
  | _ :: is => firstJump is

/-- Without branches except direct jumps. -/
def JumpsOnly : List (Inst ι) → Prop
  | [] => True
  | .JCCi _ _ :: _ | .RET :: _ | .JMPr _ :: _ | .JCCr _ _ :: _ => False
  | _ :: is => JumpsOnly is

/-- Only direct branches, whose conditional ones have the code `cc` and jump where
the next direct jump does, or to `dst` if there is none behind them. -/
def Repeats (dst : BlockId) (cc : CondCodes) : List (Inst ι) → Prop
  | [] => True
  | .JCCi d c :: is => (c = cc ∧ d = (firstJump is).getD dst) ∧ Repeats dst cc is
  | .RET :: _ | .JMPr _ :: _ | .JCCr _ _ :: _ => False
  | _ :: is => Repeats dst cc is

theorem readBranches_jumpsOnly {is : List (Inst ι)} (h : JumpsOnly is) :
    readBranches is = some ⟨firstJump is, none, []⟩ := by
  induction is with
  | nil => rfl
  | cons i is ih =>
      rw [readBranches_cons]
      cases i with
      | other i =>
          rw [ih h]
          rfl
      | debugValue i =>
          rw [ih h]
          rfl
      | JMPi dst =>
          rw [ih h]
          rfl
      | JCCi dst cc => cases h
      | JMPr r => cases h
      | JCCr r cc => cases h
      | RET => cases h

theorem readBranches_repeats {earlier behind : List (Inst ι)} {dst : BlockId} {cc : CondCodes}
    (hvalid : cc ≠ .COND_INVALID) (hbehind : JumpsOnly behind) (hearlier : Repeats dst cc earlier) :
    readBranches (earlier ++ .JCCi dst cc :: behind) =
      some ⟨some ((firstJump earlier).getD dst), firstJump behind, [cc]⟩ := by
  induction earlier with
  | nil =>
      rw [List.nil_append, readBranches_cons, readBranches_jumpsOnly hbehind]
      simp [Found.read, Found.conditional, hvalid, firstJump]
  | cons i is ih =>
      rw [List.cons_append, readBranches_cons]
      cases i with
      | other i =>
          rw [ih hearlier]
          rfl
      | debugValue i =>
          rw [ih hearlier]
          rfl
      | JMPi d =>
          rw [ih hearlier]
          rfl
      | JCCi d c =>
          rcases hearlier with ⟨⟨rfl, rfl⟩, hrest⟩
          rw [ih hrest]
          simp [Found.read, Found.conditional, hvalid, firstJump]
      | JMPr r => cases hearlier
      | JCCr r c => cases hearlier
      | RET => cases hearlier

/-- A conditional jump with the jumps behind it and the branches in front that repeat it. -/
def Conditional (is : List (Inst ι)) (earlier behind : List (Inst ι)) (dst : BlockId)
    (cc : CondCodes) : Prop :=
  is = earlier ++ .JCCi dst cc :: behind ∧ cc ≠ .COND_INVALID ∧ JumpsOnly behind ∧
    Repeats dst cc earlier

theorem readBranches_some {is : List (Inst ι)} {found : Found} (h : readBranches is = some found) :
    JumpsOnly is ∨ ∃ earlier behind dst cc, Conditional is earlier behind dst cc := by
  induction is generalizing found with
  | nil => exact .inl trivial
  | cons i is ih =>
      rw [readBranches_cons, Option.bind_eq_some_iff] at h
      rcases h with ⟨found', hfound', hread⟩
      -- an instruction that neither side of the alternative minds
      have hskip : ∀ {i : Inst ι}, (JumpsOnly is → JumpsOnly (i :: is)) →
          (∀ dst cc earlier, Repeats dst cc earlier → Repeats dst cc (i :: earlier)) →
          JumpsOnly (i :: is) ∨ ∃ earlier behind dst cc,
            Conditional (i :: is) earlier behind dst cc := by
        intro i hjump hrepeat
        rcases ih hfound' with hjumps | ⟨earlier, behind, dst, cc, rfl, hvalid, hbehind, hearlier⟩
        · exact .inl (hjump hjumps)
        · exact .inr ⟨i :: earlier, behind, dst, cc, rfl, hvalid, hbehind, hrepeat _ _ _ hearlier⟩
      cases i with
      | other i => exact hskip (fun h => h) fun _ _ _ h => h
      | debugValue i => exact hskip (fun h => h) fun _ _ _ h => h
      | JMPi d => exact hskip (fun h => h) fun _ _ _ h => h
      | RET => cases hread
      | JMPr r => cases hread
      | JCCr r c => cases hread
      | JCCi d c =>
          have hvalid : c ≠ .COND_INVALID := by
            intro hc
            rw [hc] at hread
            cases hread
          rcases ih hfound' with hjumps | ⟨earlier, behind, dst, cc, rfl, hcc, hbehind, hearlier⟩
          · exact .inr ⟨[], is, d, c, rfl, hvalid, hjumps, trivial⟩
          · rw [readBranches_repeats hcc hbehind hearlier] at hfound'
            cases hfound'
            have hsame : (firstJump earlier).getD dst = d ∧ cc = c := by
              by_contra hne
              simp [Found.read, Found.conditional, hvalid, hne] at hread
            exact .inr ⟨.JCCi d c :: earlier, behind, dst, cc, rfl, hcc, hbehind,
              ⟨hsame.2.symm, hsame.1.symm⟩, hearlier⟩

/-! ## Control transfer of what the fold accepts -/

theorem transferThen_jumpsOnly (holds : CondCodes → Bool) {is : List (Inst ι)} (h : JumpsOnly is)
    (next : Option BlockId) :
    transferThen holds is (fallThrough next) = fallThrough ((firstJump is).or next) := by
  induction is with
  | nil => rfl
  | cons i is ih =>
      rw [transferThen_cons]
      cases i with
      | other i => exact ih h
      | debugValue i => exact ih h
      | JMPi dst => rfl
      | JCCi dst cc => cases h
      | JMPr r => cases h
      | JCCr r cc => cases h
      | RET => cases h

/-- Control reaches what is behind the repeated jumps only past all direct ones. -/
theorem transferThen_repeats (holds : CondCodes → Bool) {earlier : List (Inst ι)} {dst : BlockId}
    {cc : CondCodes} (h : Repeats dst cc earlier) (k : Exit) :
    transferThen holds earlier (if holds cc then .block dst else k) =
      if holds cc then .block ((firstJump earlier).getD dst)
      else ((firstJump earlier).map Exit.block).getD k := by
  induction earlier with
  | nil => rfl
  | cons i is ih =>
      rw [transferThen_cons]
      cases i with
      | other i => exact ih h
      | debugValue i => exact ih h
      | JMPi d => exact (ite_self _).symm
      | JCCi d c =>
          rcases h with ⟨⟨rfl, rfl⟩, hrest⟩
          rw [ih hrest]
          by_cases hc : holds c = true
          · simp [Inst.transfer, firstJump, hc]
          · simp [Inst.transfer, firstJump, hc]
      | JMPr r => cases h
      | JCCr r c => cases h
      | RET => cases h

/-! ## When the description is exact -/

/-- The analysis left the block alone and describes its control transfer, as the
modifying one does where it succeeds. -/
structure ReadExactly (holds : CondCodes → Bool) (next : Option BlockId) (block : List (Inst ι)) :
    Prop where
  unchanged : (analyzeBranch next false block).block = block
  describes : describe holds next (analyzeBranch next false block).TBB
    (analyzeBranch next false block).FBB (analyzeBranch next false block).Cond =
      transfer holds next block
  asModified : (analyzeBranch next true block).failed = false →
    describe holds next (analyzeBranch next true block).TBB (analyzeBranch next true block).FBB
        (analyzeBranch next true block).Cond =
      describe holds next (analyzeBranch next false block).TBB
        (analyzeBranch next false block).FBB (analyzeBranch next false block).Cond

/-- There is a jump in front of the last conditional one, all conditional jumps repeat
it, its condition is false, and control behind it goes elsewhere than to the
destination of the jump. -/
def Misread (holds : CondCodes → Bool) (next : Option BlockId) (block : List (Inst ι)) : Prop :=
  ∃ earlier behind dst cc jump, Conditional block earlier behind dst cc ∧
    firstJump earlier = some jump ∧ holds cc = false ∧
    fallThrough ((firstJump behind).or next) ≠ .block jump

theorem transfer_conditional (holds : CondCodes → Bool) (next : Option BlockId)
    {block earlier behind : List (Inst ι)} {dst : BlockId} {cc : CondCodes}
    (h : Conditional block earlier behind dst cc) :
    transfer holds next block =
      if holds cc then .block ((firstJump earlier).getD dst)
      else ((firstJump earlier).map Exit.block).getD
        (fallThrough ((firstJump behind).or next)) := by
  rcases h with ⟨rfl, _, hbehind, hearlier⟩
  rw [transfer, transferThen_append, transferThen_cons, transferThen_jumpsOnly holds hbehind]
  exact transferThen_repeats holds hearlier _

theorem found_of_conditional {block earlier behind : List (Inst ι)} {dst : BlockId}
    {cc : CondCodes} {found : Found} (hread : readBranches block = some found)
    (h : Conditional block earlier behind dst cc) :
    found = ⟨some ((firstJump earlier).getD dst), firstJump behind, [cc]⟩ := by
  rcases h with ⟨rfl, hvalid, hbehind, hearlier⟩
  rw [readBranches_repeats hvalid hbehind hearlier] at hread
  exact (Option.some.inj hread).symm

theorem describe_readBranches_iff (holds : CondCodes → Bool) (next : Option BlockId)
    {block : List (Inst ι)} {found : Found} (hread : readBranches block = some found) :
    describe holds next found.TBB found.FBB found.Cond = transfer holds next block ↔
      ¬ Misread holds next block := by
  constructor
  · intro hexact hmisread
    rcases hmisread with ⟨earlier, behind, dst, cc, jump, hcond, hjump, hcc, helse⟩
    rw [transfer_conditional holds next hcond, found_of_conditional hread hcond] at hexact
    simp only [describe, hcc, hjump, Bool.false_eq_true, ↓reduceIte, Option.map_some,
      Option.getD_some] at hexact
    exact helse hexact
  · intro hgood
    rcases readBranches_some hread with hjumps | ⟨earlier, behind, dst, cc, hcond⟩
    · rw [readBranches_jumpsOnly hjumps] at hread
      cases hread
      rw [transfer, transferThen_jumpsOnly holds hjumps]
      cases firstJump block <;> rfl
    · rw [transfer_conditional holds next hcond, found_of_conditional hread hcond]
      by_cases hcc : holds cc = true
      · simp [describe, hcc]
      · cases hjump : firstJump earlier with
        | none => simp [describe, hcc]
        | some jump =>
            simp only [describe, hcc, Bool.false_eq_true, ↓reduceIte, Option.map_some,
              Option.getD_some]
            by_contra helse
            exact hgood ⟨earlier, behind, dst, cc, jump, hcond, hjump, by simpa using hcc, helse⟩

/-- The analysis without modification is exact where it succeeds, unless a jump in
front of the last conditional one makes it misread. -/
theorem analyzeBranch_readOnly_iff {block : List (Inst ι)} (hwell : TerminatorsLast block)
    (holds : CondCodes → Bool) (next : Option BlockId) :
    ((analyzeBranch next false block).failed = false → ReadExactly holds next block) ↔
      ¬ Misread holds next block := by
  obtain ⟨hblock, hresult⟩ := analyzeBranch_readOnly hwell next
  have hmodified := (analyzeBranch_analyzed holds next hwell).exact
  constructor
  · intro h hmisread
    rcases hresult with ⟨_, hnone⟩ | ⟨hsuccess, hread⟩
    · rcases hmisread with ⟨earlier, behind, dst, cc, _, ⟨rfl, hvalid, hbehind, hearlier⟩, _⟩
      rw [readBranches_repeats hvalid hbehind hearlier] at hnone
      cases hnone
    · exact (describe_readBranches_iff holds next hread).mp (h hsuccess).describes hmisread
  · intro hgood hsuccess
    rcases hresult with ⟨hfailed, _⟩ | ⟨_, hread⟩
    · rw [hfailed] at hsuccess
      cases hsuccess
    · have hdesc := (describe_readBranches_iff holds next hread).mpr hgood
      refine ⟨hblock, hdesc, ?_⟩
      intro htrue
      rw [(hmodified htrue).1]
      exact hdesc.symm

theorem terminatorsLast_of_branches {block : List (Inst ι)}
    (h : ∀ i ∈ block, i.isTerminator = true) : TerminatorsLast block :=
  ⟨[], block, rfl, by simp, fun i hi => .inl (h i hi)⟩

/-- A conditional jump and the jump behind it. -/
theorem analyzeBranch_readOnly_two_way :
    (analyzeBranch (ι := Unit) (some 3) false [.JCCi 1 .COND_EQ, .JMPi 2]).failed = false ∧
      ReadExactly (ι := Unit) (fun _ => false) (some 3) [.JCCi 1 .COND_EQ, .JMPi 2] := by
  have hwell : TerminatorsLast (ι := Unit) [.JCCi 1 .COND_EQ, .JMPi 2] :=
    terminatorsLast_of_branches (by decide)
  have hread : readBranches (ι := Unit) [.JCCi 1 .COND_EQ, .JMPi 2] =
      some ⟨some 1, some 2, [.COND_EQ]⟩ := rfl
  have hsuccess : (analyzeBranch (ι := Unit) (some 3) false
      [.JCCi 1 .COND_EQ, .JMPi 2]).failed = false := by
    rw [analyzeBranch_of_read hwell hread (some 3)]
  refine ⟨hsuccess, (analyzeBranch_readOnly_iff hwell (fun _ => false) (some 3)).mpr ?_ hsuccess⟩
  intro hmisread
  rcases hmisread with ⟨earlier, behind, dst, cc, jump, ⟨hblock, _⟩, hjump, _⟩
  -- the only conditional jump is the first instruction
  match earlier, hblock, hjump with
  | [_], hblock, _ => cases hblock
  | _ :: _ :: earlier, hblock, _ =>
      have hlen := congrArg List.length hblock
      simp at hlen

/-- A conditional jump behind a jump: the block goes to 1, the description to 3. -/
theorem analyzeBranch_readOnly_misreads :
    TerminatorsLast (ι := Unit) [.JMPi 1, .JCCi 2 .COND_EQ] ∧
      (analyzeBranch (ι := Unit) (some 3) false [.JMPi 1, .JCCi 2 .COND_EQ]).failed = false ∧
      ¬ ReadExactly (ι := Unit) (fun _ => false) (some 3) [.JMPi 1, .JCCi 2 .COND_EQ] := by
  have hwell : TerminatorsLast (ι := Unit) [.JMPi 1, .JCCi 2 .COND_EQ] :=
    terminatorsLast_of_branches (by decide)
  have hread : readBranches (ι := Unit) [.JMPi 1, .JCCi 2 .COND_EQ] =
      some ⟨some 1, none, [.COND_EQ]⟩ := rfl
  have hanalysis := analyzeBranch_of_read hwell hread (some 3)
  refine ⟨hwell, by rw [hanalysis], ?_⟩
  intro hexact
  have hdesc := hexact.describes
  rw [hanalysis] at hdesc
  apply (describe_readBranches_iff (fun _ => false) (some 3) hread).mp hdesc
  exact ⟨[.JMPi 1], [], 2, .COND_EQ, 1, ⟨rfl, by decide, trivial, trivial⟩, rfl, rfl, by decide⟩

end Mandarin.Branch
