import Mandarin.Isel.Lowering

/-! # Conditions of branches and selects

Both lowerings give the six codes of the signed comparison the same meaning, with
or without swapped operands and with constants in registers or in the
instruction. They differ where the tables differ: no path has a code for the
unsigned orderings, and only the select knows the ordered and unordered float
codes.
-/

namespace Mandarin.Isel

open Branch (BlockId CondCodes)

variable {F α : Type} {vt : CmpVT}

/-! ## Integer conditions -/

def CondCode.intMeaning : CondCode → Option (Word → Word → Bool)
  | .SETEQ => some fun a b => a = b
  | .SETNE => some fun a b => a ≠ b
  | .SETGT => some fun a b => b.slt a
  | .SETGE => some fun a b => b.sle a
  | .SETLT => some fun a b => a.slt b
  | .SETLE => some fun a b => a.sle b
  | .SETUGT => some fun a b => b.ult a
  | .SETUGE => some fun a b => b.ule a
  | .SETULT => some fun a b => a.ult b
  | .SETULE => some fun a b => a.ule b
  | _ => none

def CondCode.unsignedOrdering : CondCode → Bool
  | .SETUGT | .SETUGE | .SETULT | .SETULE => true
  | _ => false

def operandNodes : SDValue F .i32 → List Node
  | .Constant c => constants c
  | .node n => [.reg n]

/-- The instructions `MDicmp` can be selected to. -/
def icmpInstrs (LHS RHS : SDValue F .i32) : List Compare :=
  (operandNodes LHS).flatMap fun src1 =>
    match RHS with
    | .Constant c => icmpPatterns src1 c
    | .node n => [.SCMPrr src1 (.reg n)]

def CompareNode.instrs : CompareNode F .i32 → List Compare
  | .ICMP LHS RHS => icmpInstrs LHS RHS

/-- The branch is lowered, and it jumps to its destination exactly when the condition
holds of the operands, whatever instruction compares them. -/
def BranchMeans (CC : CondCode) (holds : Word → Word → Bool) (LHS RHS : SDValue F .i32)
    (Dest : BlockId) : Prop :=
  ∃ br, lowerBR_CC CC LHS RHS Dest = some br ∧ br.Dest = Dest ∧ br.Flag.instrs ≠ [] ∧
    ∀ unordered env, ∀ cmp ∈ br.Flag.instrs, cmp.Fits ∧
      br.taken unordered (cmp.eval env.int) = holds (LHS.evalInt env) (RHS.evalInt env)

def SelectMeans (CC : CondCode) (holds : Word → Word → Bool) (LHS RHS : SDValue F .i32)
    (TrueVal FalseVal : α) : Prop :=
  ∃ select, lowerSELECT_CC LHS RHS TrueVal FalseVal CC = some select ∧
    select.Flag.instrs ≠ [] ∧
    ∀ unordered env, ∀ cmp ∈ select.Flag.instrs, cmp.Fits ∧
      select.value unordered (cmp.eval env.int) =
        if holds (LHS.evalInt env) (RHS.evalInt env) then TrueVal else FalseVal

theorem operandNodes_spec {v : SDValue F .i32} {node : Node} (h : node ∈ operandNodes v) :
    node.Fits ∧ ∀ env : Env F, node.eval env.int = v.evalInt env := by
  cases v with
  | Constant c =>
      have hbuilds := builds_of_mem_constants h
      exact ⟨hbuilds.fits, fun env => hbuilds.eval env.int⟩
  | node n =>
      rw [operandNodes, List.mem_singleton] at h
      subst h
      exact ⟨fits_reg n, fun _ => rfl⟩

theorem instrs_spec {node : CompareNode F .i32} {cmp : Compare} (h : cmp ∈ node.instrs) :
    cmp.Fits ∧ ∀ env : Env F, cmp.eval env.int = node.outcome env := by
  cases node with
  | ICMP LHS RHS =>
      rcases List.mem_flatMap.mp h with ⟨src1, hsrc1, hcmp⟩
      obtain ⟨hfits, heval⟩ := operandNodes_spec hsrc1
      cases RHS with
      | Constant c =>
          refine ⟨(icmpPatterns_spec hfits hcmp fun _ => 0).2, fun env => ?_⟩
          rw [(icmpPatterns_spec hfits hcmp env.int).1, heval env]
          rfl
      | node n =>
          rw [List.mem_singleton] at hcmp
          subst hcmp
          refine ⟨fits_append hfits (fits_reg n), fun env => ?_⟩
          rw [Compare.eval, heval env]
          rfl

theorem instrs_ne_nil (node : CompareNode F .i32) : node.instrs ≠ [] := by
  have hnodes : ∀ v : SDValue F .i32, operandNodes v ≠ [] := by
    intro v
    cases v <;> simp [operandNodes, constants]
  cases node with
  | ICMP LHS RHS =>
      intro hnil
      have hempty := List.flatMap_eq_nil_iff.mp hnil
      rcases List.exists_mem_of_ne_nil _ (hnodes LHS) with ⟨src1, hsrc1⟩
      have hnone := hempty src1 hsrc1
      cases RHS <;> simp [icmpPatterns, constants] at hnone

/-! ## The six signed codes -/

/-- The relation of signed integers a condition tests. -/
def testedRelation : CondCodes → Int → Int → Bool
  | .COND_EQ, x, y => x = y
  | .COND_NE, x, y => x ≠ y
  | .COND_GR, x, y => y < x
  | .COND_LS, x, y => x < y
  | .COND_GE, x, y => y ≤ x
  | .COND_LE, x, y => x ≤ y
  | .COND_INVALID, _, _ => false

theorem condHolds_signedCompare (unordered : CondCodes → Bool) (cc : CondCodes) (a b : Word) :
    condHolds unordered cc (signedCompare a b) = testedRelation cc a.toInt b.toInt := by
  cases hout : signedCompare a b with
  | less =>
      have h := signedCompare_eq_less.mp hout
      cases cc <;> simp [condHolds, testedRelation] <;> omega
  | equal =>
      have h := signedCompare_eq_equal.mp hout
      cases cc <;> simp [condHolds, testedRelation, h]
  | greater =>
      have h := signedCompare_eq_greater.mp hout
      cases cc <;> simp [condHolds, testedRelation] <;> omega
  | unordered => exact absurd hout (signedCompare_ne_unordered a b)

theorem testedRelation_eq {CC : CondCode} {cc : CondCodes} {holds : Word → Word → Bool}
    (hcc : dagIntCCToMDCC CC = some cc) (hmeaning : CC.intMeaning = some holds) (a b : Word) :
    testedRelation cc a.toInt b.toInt = holds a b := by
  cases CC <;> cases hcc <;> cases hmeaning <;> first | rfl | simp [testedRelation, BitVec.toInt_inj]

/-- The integer codes with an entry in the table are those that are not unsigned. -/
theorem dagIntCCToMDCC_isSome {CC : CondCode} {holds : Word → Word → Bool}
    (h : CC.intMeaning = some holds) :
    (dagIntCCToMDCC CC).isSome = !CC.unsignedOrdering := by
  cases CC <;> cases h <;> rfl

theorem branchMeans_of_signed {CC : CondCode} {cc : CondCodes} {holds : Word → Word → Bool}
    (hcc : dagIntCCToMDCC CC = some cc) (hmeaning : CC.intMeaning = some holds)
    (LHS RHS : SDValue F .i32) (Dest : BlockId) : BranchMeans CC holds LHS RHS Dest := by
  have hlower := lowerBR_CC_eq CC LHS RHS Dest
  rw [hcc, Option.map_some] at hlower
  refine ⟨_, hlower, rfl, instrs_ne_nil _, ?_⟩
  intro unordered env cmp hcmp
  obtain ⟨hfits, heval⟩ := instrs_spec hcmp
  refine ⟨hfits, ?_⟩
  rw [heval env, lowerBR_CC_taken hlower]
  show condHolds unordered cc (signedCompare (LHS.evalInt env) (RHS.evalInt env)) = _
  rw [condHolds_signedCompare, testedRelation_eq hcc hmeaning]

theorem selectMeans_of_signed {CC : CondCode} {cc : CondCodes} {holds : Word → Word → Bool}
    (hcc : dagIntCCToMDCC CC = some cc) (hmeaning : CC.intMeaning = some holds)
    (LHS RHS : SDValue F .i32) (TrueVal FalseVal : α) :
    SelectMeans CC holds LHS RHS TrueVal FalseVal := by
  have hlower := lowerSELECT_CC_eq LHS RHS TrueVal FalseVal CC
  rw [selectCondition, hcc, Option.map_some] at hlower
  refine ⟨_, hlower, instrs_ne_nil _, ?_⟩
  intro unordered env cmp hcmp
  obtain ⟨hfits, heval⟩ := instrs_spec hcmp
  refine ⟨hfits, ?_⟩
  rw [heval env]
  have hpick : condHolds unordered cc (signedCompare (LHS.evalInt env) (RHS.evalInt env)) =
      holds (LHS.evalInt env) (RHS.evalInt env) := by
    rw [condHolds_signedCompare, testedRelation_eq hcc hmeaning]
  unfold SelectCC.value SelectCC.picksTrue
  rw [← hpick]
  rfl

/-- An integer comparison is lowered to what it means, in a branch and in a select,
exactly when it is not one of the unsigned orderings. -/
theorem integerComparison_lowered_iff {CC : CondCode} {holds : Word → Word → Bool}
    (hmeaning : CC.intMeaning = some holds) (LHS RHS : SDValue F .i32) (Dest : BlockId)
    (TrueVal FalseVal : α) :
    BranchMeans CC holds LHS RHS Dest ∧ SelectMeans CC holds LHS RHS TrueVal FalseVal ↔
      CC.unsignedOrdering = false := by
  have htable := dagIntCCToMDCC_isSome hmeaning
  constructor
  · intro h
    rcases h.1 with ⟨br, hbr, _⟩
    rw [lowerBR_CC_eq] at hbr
    cases hcc : dagIntCCToMDCC CC with
    | none =>
        rw [hcc] at hbr
        cases hbr
    | some cc =>
        rw [hcc] at htable
        simpa using htable.symm
  · intro h
    rw [h] at htable
    rcases Option.isSome_iff_exists.mp htable with ⟨cc, hcc⟩
    exact ⟨branchMeans_of_signed hcc hmeaning LHS RHS Dest,
      selectMeans_of_signed hcc hmeaning LHS RHS TrueVal FalseVal⟩

/-- `x > -1` for a value `x`, the constant held by the instruction. -/
theorem integerComparison_lowered_greater :
    BranchMeans (F := Unit) .SETGT (fun a b => b.slt a) (.node 0) (.Constant (-1)) 3 ∧
      SelectMeans (F := Unit) .SETGT (fun a b => b.slt a) (.node 0) (.Constant (-1)) true false :=
  (integerComparison_lowered_iff rfl (.node 0) (.Constant (-1)) 3 true false).mpr rfl

/-- An unsigned range check is not lowered at all. -/
theorem unsignedComparison_not_lowered :
    CondCode.intMeaning .SETULT = some (fun a b => a.ult b) ∧
      ¬ BranchMeans (F := Unit) .SETULT (fun a b => a.ult b) (.node 0) (.Constant 10) 3 ∧
      ¬ SelectMeans (F := Unit) .SETULT (fun a b => a.ult b) (.node 0) (.Constant 10) true false := by
  refine ⟨rfl, ?_, ?_⟩
  · intro h
    rcases h with ⟨br, hbr, _⟩
    cases hbr
  · intro h
    rcases h with ⟨select, hselect, _⟩
    cases hselect

/-! ## Branch and select -/

/-- Branch and select are lowered for the same comparisons, and then the branch is
taken exactly when the select picks its first value. -/
def LoweringsAgree (CC : CondCode) (LHS RHS : SDValue F vt) (Dest : BlockId)
    (TrueVal FalseVal : α) : Prop :=
  ((lowerBR_CC CC LHS RHS Dest).isSome ↔
    (lowerSELECT_CC LHS RHS TrueVal FalseVal CC).isSome) ∧
  ∀ br select, lowerBR_CC CC LHS RHS Dest = some br →
    lowerSELECT_CC LHS RHS TrueVal FalseVal CC = some select →
    ∀ unordered env, br.taken unordered (br.Flag.outcome env) =
      select.picksTrue unordered (select.Flag.outcome env)

/-- The codes only `DAGFloatCCToMDCC` has an entry for. -/
def CondCode.floatOnly : CondCode → Bool
  | .SETOEQ | .SETUNE | .SETOLT | .SETOGT | .SETOLE | .SETOGE => true
  | _ => false

theorem selectCondition_eq (vt : CmpVT) (CC : CondCode) :
    (vt = .f32 ∧ CC.floatOnly = true ∧ dagIntCCToMDCC CC = none ∧
        (selectCondition vt CC).isSome = true) ∨
      (¬ (vt = .f32 ∧ CC.floatOnly = true) ∧ selectCondition vt CC = dagIntCCToMDCC CC) := by
  cases vt with
  | i32 => exact .inr ⟨by simp, rfl⟩
  | f32 => cases CC <;> simp [CondCode.floatOnly, selectCondition, dagIntCCToMDCC, dagFloatCCToMDCC]

/-- The lowerings agree except on the codes only floats have. -/
theorem lowerings_agree_iff (CC : CondCode) (LHS RHS : SDValue F vt) (Dest : BlockId)
    (TrueVal FalseVal : α) :
    LoweringsAgree CC LHS RHS Dest TrueVal FalseVal ↔ ¬ (vt = .f32 ∧ CC.floatOnly = true) := by
  have hbr := lowerBR_CC_eq CC LHS RHS Dest
  have hselect := lowerSELECT_CC_eq LHS RHS TrueVal FalseVal CC
  rcases selectCondition_eq vt CC with ⟨hvt, hfloat, hnone, hsome⟩ | ⟨hshared, htable⟩
  · constructor
    · intro h
      have hiff := h.1
      rw [hbr, hselect, hnone] at hiff
      simp [hsome] at hiff
    · intro h
      exact absurd ⟨hvt, hfloat⟩ h
  · constructor
    · intro _
      exact hshared
    · intro _
      constructor
      · rw [hbr, hselect, htable]
        simp
      · intro br select hb hs unordered env
        rw [lowerBR_CC_taken hb]
        rw [hbr] at hb
        rw [hselect, htable] at hs
        cases hcc : dagIntCCToMDCC CC with
        | none =>
            rw [hcc] at hb
            cases hb
        | some cc =>
            rw [hcc] at hb hs
            cases hb
            cases hs
            rfl

/-- An ordered comparison of floats is lowered in a select and not in a branch. -/
theorem lowerings_disagree :
    ¬ LoweringsAgree .SETOLT (.node 0 : SDValue Unit .f32) (.node 1) 3 true false := by
  intro h
  have hiff := h.1
  exact absurd (hiff.mpr rfl) (by decide)

end Mandarin.Isel
