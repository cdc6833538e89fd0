import Mandarin.Branch.Block
import Mandarin.Isel.Immediate

/-! # Lowering of conditional branches and selects

`LowerBR_CC` compares through `EmitCMP`, `LowerSELECT_CC` builds its comparison
itself and takes the condition from one of two tables. The result `none` stands
for `llvm_unreachable`. Operands carry the type of the comparison; `F` are the
floats, whose comparison is part of the environment.
-/

namespace Mandarin.Isel

open Branch (BlockId CondCodes)

inductive CondCode where
  | SETFALSE | SETOEQ | SETOGT | SETOGE | SETOLT | SETOLE | SETONE | SETO
  | SETUO | SETUEQ | SETUGT | SETUGE | SETULT | SETULE | SETUNE | SETTRUE
  | SETFALSE2 | SETEQ | SETGT | SETGE | SETLT | SETLE | SETNE | SETTRUE2
  deriving DecidableEq, Repr

/-- The types for which `BR_CC` and `SELECT_CC` are custom lowered. -/
inductive CmpVT where
  | i32 | f32
  deriving DecidableEq, Repr

inductive SDValue (F : Type) : CmpVT → Type where
  | Constant (c : Word) : SDValue F .i32
  | ConstantFP (c : F) : SDValue F .f32
  | node {vt : CmpVT} (n : Nat) : SDValue F vt

inductive CompareNode (F : Type) : CmpVT → Type where
  | ICMP (LHS RHS : SDValue F .i32) : CompareNode F .i32
  | FCMP (LHS RHS : SDValue F .f32) : CompareNode F .f32

structure BrCC (F : Type) (vt : CmpVT) where
  Dest : BlockId
  TargetCC : CondCodes
  Flag : CompareNode F vt

/-- `MDISD::SELECT_CC`; the selected values may be of any type. -/
structure SelectCC (F : Type) (vt : CmpVT) (α : Type) where
  TrueVal : α
  FalseVal : α
  TargetCC : CondCodes
  Flag : CompareNode F vt

variable {F α : Type} {vt : CmpVT}

/-! ## Lowering -/

def dagIntCCToMDCC : CondCode → Option CondCodes
  | .SETEQ => some .COND_EQ
  | .SETNE => some .COND_NE
  | .SETLT => some .COND_LS
  | .SETGT => some .COND_GR
  | .SETLE => some .COND_LE
  | .SETGE => some .COND_GE
  | _ => none

def dagFloatCCToMDCC : CondCode → Option CondCodes
  | .SETEQ | .SETOEQ => some .COND_EQ
  | .SETNE | .SETUNE => some .COND_NE
  | .SETLT | .SETOLT => some .COND_LS
  | .SETGT | .SETOGT => some .COND_GR
  | .SETLE | .SETOLE => some .COND_LE
  | .SETGE | .SETOGE => some .COND_GE
  | _ => none

/-- `getOpcode() == ISD::Constant` -/
def SDValue.isConstant : SDValue F vt → Bool
  | Constant _ => true
  | _ => false

/-- Operands with a constant left one moved to the right. -/
def swapConstant (LHS RHS : SDValue F vt) : SDValue F vt × SDValue F vt :=
  if LHS.isConstant then (RHS, LHS) else (LHS, RHS)

def compareNode : {vt : CmpVT} → SDValue F vt → SDValue F vt → CompareNode F vt
  | .f32, LHS, RHS => .FCMP LHS RHS
  | .i32, LHS, RHS => .ICMP LHS RHS

def emitCMP (LHS RHS : SDValue F vt) (CC : CondCode) : Option (CondCodes × CompareNode F vt) :=
  let swapped := swapConstant LHS RHS
  match CC with
  | .SETEQ => some (.COND_EQ, compareNode swapped.1 swapped.2)
  | .SETGT => some (.COND_GR, compareNode LHS RHS)
  | .SETGE => some (.COND_GE, compareNode LHS RHS)
  | .SETLT => some (.COND_LS, compareNode LHS RHS)
  | .SETLE => some (.COND_LE, compareNode LHS RHS)
  | .SETNE => some (.COND_NE, compareNode swapped.1 swapped.2)
  | _ => none

def lowerBR_CC (CC : CondCode) (LHS RHS : SDValue F vt) (Dest : BlockId) : Option (BrCC F vt) := do
  let (TargetCC, Flag) ← emitCMP LHS RHS CC
  some ⟨Dest, TargetCC, Flag⟩

/-- The table `LowerSELECT_CC` looks the condition up in. -/
def selectCondition (vt : CmpVT) (CC : CondCode) : Option CondCodes :=
  match vt with
  | .i32 => dagIntCCToMDCC CC
  | .f32 => dagFloatCCToMDCC CC

def lowerSELECT_CC (LHS RHS : SDValue F vt) (TrueVal FalseVal : α) (CC : CondCode) :
    Option (SelectCC F vt α) := do
  let MDCC ← selectCondition vt CC
  some ⟨TrueVal, FalseVal, MDCC, compareNode LHS RHS⟩

/-! ## Meaning of the nodes -/

structure Env (F : Type) where
  int : Nat → Word
  float : Nat → F
  fcmp : F → F → Outcome

def SDValue.evalInt (env : Env F) : SDValue F .i32 → Word
  | Constant c => c
  | node n => env.int n

def SDValue.evalFloat (env : Env F) : SDValue F .f32 → F
  | ConstantFP c => c
  | node n => env.float n

/-- What the comparison leaves in `CC_FLAG`. -/
def CompareNode.outcome (env : Env F) : CompareNode F vt → Outcome
  | ICMP LHS RHS => signedCompare (LHS.evalInt env) (RHS.evalInt env)
  | FCMP LHS RHS => env.fcmp (LHS.evalFloat env) (RHS.evalFloat env)

/-- When a condition holds of the flag. What it does on unordered operands is up to
the machine. -/
def condHolds (unordered : CondCodes → Bool) (cc : CondCodes) : Outcome → Bool
  | .less => cc = .COND_LS ∨ cc = .COND_LE ∨ cc = .COND_NE
  | .equal => cc = .COND_EQ ∨ cc = .COND_LE ∨ cc = .COND_GE
  | .greater => cc = .COND_GR ∨ cc = .COND_GE ∨ cc = .COND_NE
  | .unordered => unordered cc

def BrCC.taken (unordered : CondCodes → Bool) (flag : Outcome) (br : BrCC F vt) : Bool :=
  condHolds unordered br.TargetCC flag

def SelectCC.picksTrue (unordered : CondCodes → Bool) (flag : Outcome)
    (select : SelectCC F vt α) : Bool :=
  condHolds unordered select.TargetCC flag

def SelectCC.value (unordered : CondCodes → Bool) (flag : Outcome) (select : SelectCC F vt α) : α :=
  if select.picksTrue unordered flag then select.TrueVal else select.FalseVal

/-! ## Which codes each path accepts -/

/-- The six codes all tables share, as `EmitCMP` translates them. -/
theorem emitCMP_eq (LHS RHS : SDValue F vt) (CC : CondCode) :
    emitCMP LHS RHS CC = (dagIntCCToMDCC CC).map fun cc =>
      (cc, if cc = .COND_EQ ∨ cc = .COND_NE then
          compareNode (swapConstant LHS RHS).1 (swapConstant LHS RHS).2
        else compareNode LHS RHS) := by
  cases CC <;> rfl

theorem lowerBR_CC_eq (CC : CondCode) (LHS RHS : SDValue F vt) (Dest : BlockId) :
    lowerBR_CC CC LHS RHS Dest = (dagIntCCToMDCC CC).map fun cc =>
      ⟨Dest, cc, if cc = .COND_EQ ∨ cc = .COND_NE then
          compareNode (swapConstant LHS RHS).1 (swapConstant LHS RHS).2
        else compareNode LHS RHS⟩ := by
  unfold lowerBR_CC
  rw [emitCMP_eq]
  cases dagIntCCToMDCC CC <;> rfl

theorem lowerSELECT_CC_eq (LHS RHS : SDValue F vt) (TrueVal FalseVal : α) (CC : CondCode) :
    lowerSELECT_CC LHS RHS TrueVal FalseVal CC = (selectCondition vt CC).map fun cc =>
      ⟨TrueVal, FalseVal, cc, compareNode LHS RHS⟩ := by
  unfold lowerSELECT_CC
  cases selectCondition vt CC <;> rfl

/-! ## Swapped operands -/

theorem condHolds_mirror (unordered : CondCodes → Bool) {cc : CondCodes}
    (h : cc = .COND_EQ ∨ cc = .COND_NE) (o : Outcome) :
    condHolds unordered cc o.mirror = condHolds unordered cc o := by
  rcases h with rfl | rfl <;> cases o <;> rfl

theorem outcome_swapConstant (env : Env F) (LHS RHS : SDValue F vt) :
    (compareNode (swapConstant LHS RHS).1 (swapConstant LHS RHS).2).outcome env =
        (compareNode LHS RHS).outcome env ∨
      (compareNode (swapConstant LHS RHS).1 (swapConstant LHS RHS).2).outcome env =
        ((compareNode LHS RHS).outcome env).mirror := by
  cases LHS with
  | Constant c =>
      right
      exact signedCompare_comm ..
  | ConstantFP c => exact .inl rfl
  | node n => exact .inl rfl

theorem lowerBR_CC_taken {CC : CondCode} {LHS RHS : SDValue F vt} {Dest : BlockId} {br : BrCC F vt}
    (h : lowerBR_CC CC LHS RHS Dest = some br) (unordered : CondCodes → Bool) (env : Env F) :
    br.taken unordered (br.Flag.outcome env) =
      condHolds unordered br.TargetCC ((compareNode LHS RHS).outcome env) := by
  rw [lowerBR_CC_eq] at h
  cases hcc : dagIntCCToMDCC CC with
  | none =>
      rw [hcc] at h
      cases h
  | some cc =>
      rw [hcc] at h
      cases h
      by_cases hsymm : cc = .COND_EQ ∨ cc = .COND_NE
      · simp only [BrCC.taken, if_pos hsymm]
        rcases outcome_swapConstant env LHS RHS with hout | hout
        · rw [hout]
        · rw [hout, condHolds_mirror unordered hsymm]
      · simp only [BrCC.taken, if_neg hsymm]

end Mandarin.Isel
