import Mandarin.Isel.Arithmetic

/-! # Constants in instructions

A constant operand is either held by an immediate field of the instruction or
built in a register. The patterns decide by its range. Whatever pattern is taken,
every emitted immediate fits its field, so the operation sees the constant itself.
-/

namespace Mandarin.Isel

open Immediate

/-! ## Predicates and transformations of the source -/

/-- `isInt<w>(N->getSExtValue())` -/
def isInt (w : Nat) (v : Word) : Bool :=
  decide (-(2 ^ (w - 1) : Int) ≤ v.toInt ∧ v.toInt < 2 ^ (w - 1))

/-- `isUInt<w>(N->getZExtValue())` -/
def isUInt (w : Nat) (v : Word) : Bool := decide (v.toNat < 2 ^ w)

def simm14 (v : Word) : Bool := isInt 14 v
def uimm14 (v : Word) : Bool := isUInt 14 v
def simm19 (v : Word) : Bool := isInt 19 v
def uimm19 (v : Word) : Bool := isUInt 19 v

def LO19 (v : Word) : Word := v &&& 524287
def HI13 (v : Word) : Word := v >>> 19

theorem fits_of_isInt {w : Nat} {v : Word} (h : isInt w v = true) : (⟨w, true⟩ : Field).fits v :=
  of_decide_eq_true h

theorem fits_of_isUInt {w : Nat} {v : Word} (h : isUInt w v = true) :
    (⟨w, false⟩ : Field).fits v :=
  of_decide_eq_true h

/-! ## Selected instructions -/

/-- Instructions that compute a register; `reg` is a value already in one, `rr` and `ri`
are the forms of the ALU instructions. -/
inductive Node where
  | reg (n : Nat)
  | LDIri (src : Word)
  | rr (op : AluOp) (src1 src2 : Node)
  | ri (op : AluOp) (src1 : Node) (src2 : Word)
  | NEGrr (src : Node)
  | NOTrr (src : Node)
  deriving DecidableEq, Repr

inductive Compare where
  | SCMPrr (src1 src2 : Node)
  | SCMPri (src1 : Node) (src2 : Word)
  deriving DecidableEq, Repr

/-- The field `imm19` of `LDIri` and of `SCMPri`. -/
def ldiField : Field := ⟨19, false⟩
def scmpField : Field := ⟨19, true⟩

def fieldValue (f : Field) (v : Word) : Word := f.read 32 (f.encode v)

theorem fieldValue_of_fits {f : Field} {v : Word} (hpos : 0 < f.width) (hle : f.width ≤ 32)
    (h : f.fits v) : fieldValue f v = v := f.read_encode hpos hle h

namespace Node

def eval (regs : Nat → Word) : Node → Word
  | reg n => regs n
  | LDIri src => fieldValue ldiField src
  | rr op src1 src2 => op.eval (src1.eval regs) (src2.eval regs)
  | ri op src1 src2 => op.eval (src1.eval regs) (fieldValue op.imm14 src2)
  | NEGrr src => -src.eval regs
  | NOTrr src => ~~~src.eval regs

def immediates : Node → List (Field × Word)
  | reg _ => []
  | LDIri src => [(ldiField, src)]
  | rr _ src1 src2 => src1.immediates ++ src2.immediates
  | ri op src1 src2 => src1.immediates ++ [(op.imm14, src2)]
  | NEGrr src | NOTrr src => src.immediates

def Fits (node : Node) : Prop := ∀ imm ∈ node.immediates, imm.1.fits imm.2

end Node

namespace Compare

def eval (regs : Nat → Word) : Compare → Outcome
  | SCMPrr src1 src2 => signedCompare (src1.eval regs) (src2.eval regs)
  | SCMPri src1 src2 => signedCompare (src1.eval regs) (fieldValue scmpField src2)

def immediates : Compare → List (Field × Word)
  | SCMPrr src1 src2 => src1.immediates ++ src2.immediates
  | SCMPri src1 src2 => src1.immediates ++ [(scmpField, src2)]

def Fits (cmp : Compare) : Prop := ∀ imm ∈ cmp.immediates, imm.1.fits imm.2

end Compare

/-! ## Selection patterns -/

/-- The predicate on the constant of the `ri` form. -/
def AluOp.admits (op : AluOp) (c : Word) : Bool :=
  if op.signedImm then simm14 c else uimm14 c

/-- The patterns that build a constant: small ones, then any. -/
def constants (c : Word) : List Node :=
  (if uimm19 c then [.LDIri c] else []) ++
    [.rr .OR (.LDIri (LO19 c)) (.ri .SHL (.LDIri (HI13 c)) 19)]

/-- The patterns that take the constant away: into the `ri` form if its predicate admits
the constant, or into `not`, which is `xor` with -1. -/
def constantPatterns (op : AluOp) (src1 : Node) (c : Word) : List Node :=
  (if op.admits c then [.ri op src1 c] else []) ++
    (if op = .XOR ∧ c = -1 then [.NOTrr src1] else [])

/-- The patterns that match an operation on a value and a constant. -/
def aluPatterns (op : AluOp) (src1 : Node) (c : Word) : List Node :=
  constantPatterns op src1 c ++ (constants c).map (.rr op src1)

/-- The patterns that match an operation on a constant and a value; `ineg` is `sub` from 0. -/
def leftPatterns (op : AluOp) (c : Word) (src2 : Node) : List Node :=
  (if op.isCommutative then constantPatterns op src2 c else []) ++
    (if op = .SUB ∧ c = 0 then [.NEGrr src2] else []) ++
    (constants c).map fun node => .rr op node src2

/-- The patterns that match `MDicmp` of a value and a constant. -/
def icmpPatterns (src1 : Node) (c : Word) : List Compare :=
  (if simm19 c then [.SCMPri src1 c] else []) ++ (constants c).map (.SCMPrr src1)

/-! ## Constants in registers -/

theorem ldiField_LO19 (c : Word) : ldiField.fits (LO19 c) := low_lt 19 c

theorem ldiField_HI13 (c : Word) : ldiField.fits (HI13 c) := by
  have h : (HI13 c).toNat < 2 ^ 13 := high_lt (k := 19) (by decide) c
  exact Nat.lt_trans h (by decide)

theorem imm14_shiftAmount : AluOp.SHL.imm14.fits (19 : Word) := by decide

theorem eval_LDIri {c : Word} (h : ldiField.fits c) (regs : Nat → Word) :
    (Node.LDIri c).eval regs = c :=
  fieldValue_of_fits (by decide) (by decide) h

theorem LO19_or_HI13 (c : Word) : LO19 c ||| HI13 c <<< (19 : Word) = c := low_or_high 19 c

structure Node.Builds (node : Node) (c : Word) : Prop where
  eval : ∀ regs, node.eval regs = c
  fits : node.Fits

theorem builds_LDIri {c : Word} (h : uimm19 c = true) : (Node.LDIri c).Builds c := by
  have hfits : ldiField.fits c := fits_of_isUInt h
  exact ⟨eval_LDIri hfits, by simpa [Node.Fits, Node.immediates] using hfits⟩

theorem builds_halves (c : Word) :
    (Node.rr .OR (.LDIri (LO19 c)) (.ri .SHL (.LDIri (HI13 c)) 19)).Builds c := by
  constructor
  · intro regs
    have hlow := eval_LDIri (ldiField_LO19 c) regs
    have hhigh := eval_LDIri (ldiField_HI13 c) regs
    have hshift : fieldValue AluOp.SHL.imm14 19 = 19 :=
      fieldValue_of_fits (by decide) (by decide) imm14_shiftAmount
    show (Node.LDIri (LO19 c)).eval regs |||
      (Node.LDIri (HI13 c)).eval regs <<< fieldValue AluOp.SHL.imm14 19 = c
    rw [hlow, hhigh, hshift]
    exact LO19_or_HI13 c
  · intro imm himm
    simp only [Node.immediates, List.singleton_append, List.mem_cons, List.not_mem_nil,
      or_false] at himm
    rcases himm with rfl | rfl | rfl
    · exact ldiField_LO19 c
    · exact ldiField_HI13 c
    · exact imm14_shiftAmount

theorem builds_of_mem_constants {c : Word} {node : Node} (h : node ∈ constants c) :
    node.Builds c := by
  unfold constants at h
  by_cases hc : uimm19 c = true
  · simp only [hc, ↓reduceIte, List.singleton_append, List.mem_cons, List.not_mem_nil,
      or_false] at h
    rcases h with rfl | rfl
    · exact builds_LDIri hc
    · exact builds_halves c
  · simp only [hc, Bool.false_eq_true, ↓reduceIte, List.nil_append, List.mem_singleton] at h
    subst h
    exact builds_halves c

/-! ## What the patterns compute -/

theorem AluOp.fits_of_admits {op : AluOp} {c : Word} (h : op.admits c = true) :
    op.imm14.fits c := by
  unfold admits at h
  by_cases hs : op.signedImm = true
  · rw [if_pos hs] at h
    rw [imm14, hs]
    exact fits_of_isInt h
  · rw [if_neg hs] at h
    have hs' : op.signedImm = false := by simpa using hs
    rw [imm14, hs']
    exact fits_of_isUInt h

theorem fits_append {src : Node} (hsrc : src.Fits) {imms : List (Field × Word)}
    (h : ∀ imm ∈ imms, imm.1.fits imm.2) : ∀ imm ∈ src.immediates ++ imms, imm.1.fits imm.2 := by
  intro imm himm
  rcases List.mem_append.mp himm with himm | himm
  · exact hsrc imm himm
  · exact h imm himm

theorem fits_singleton {f : Field} {v : Word} (h : f.fits v) :
    ∀ imm ∈ [(f, v)], imm.1.fits imm.2 := by
  intro imm himm
  rw [List.mem_singleton.mp himm]
  exact h

theorem constantPatterns_spec {op : AluOp} {src1 node : Node} {c : Word} (hsrc : src1.Fits)
    (h : node ∈ constantPatterns op src1 c) (regs : Nat → Word) :
    node.eval regs = op.eval (src1.eval regs) c ∧ node.Fits := by
  rcases List.mem_append.mp h with hri | hnot
  · by_cases hc : op.admits c = true
    · rw [if_pos hc, List.mem_singleton] at hri
      subst hri
      have hfits := AluOp.fits_of_admits hc
      have hvalue : fieldValue op.imm14 c = c :=
        fieldValue_of_fits (by decide : 0 < 14) (by decide : 14 ≤ 32) hfits
      rw [Node.eval, hvalue]
      exact ⟨rfl, fits_append hsrc (fits_singleton hfits)⟩
    · rw [if_neg hc] at hri
      cases hri
  · by_cases hc : op = .XOR ∧ c = -1
    · rw [if_pos hc, List.mem_singleton] at hnot
      subst hnot
      rw [hc.1, hc.2]
      exact ⟨BitVec.xor_allOnes.symm, hsrc⟩
    · rw [if_neg hc] at hnot
      cases hnot

theorem aluPatterns_spec {op : AluOp} {src1 node : Node} {c : Word} (hsrc : src1.Fits)
    (h : node ∈ aluPatterns op src1 c) (regs : Nat → Word) :
    node.eval regs = op.eval (src1.eval regs) c ∧ node.Fits := by
  rcases List.mem_append.mp h with hshort | hlong
  · exact constantPatterns_spec hsrc hshort regs
  · rcases List.mem_map.mp hlong with ⟨const, hconst, rfl⟩
    have hbuilds := builds_of_mem_constants hconst
    rw [Node.eval, hbuilds.eval]
    exact ⟨rfl, fits_append hsrc hbuilds.fits⟩

theorem leftPatterns_spec {op : AluOp} {src2 node : Node} {c : Word} (hsrc : src2.Fits)
    (h : node ∈ leftPatterns op c src2) (regs : Nat → Word) :
    node.eval regs = op.eval c (src2.eval regs) ∧ node.Fits := by
  rcases List.mem_append.mp h with hshort | hlong
  · rcases List.mem_append.mp hshort with hcomm | hneg
    · by_cases hc : op.isCommutative = true
      · rw [if_pos hc] at hcomm
        rw [AluOp.eval_comm hc c]
        exact constantPatterns_spec hsrc hcomm regs
      · rw [if_neg hc] at hcomm
        cases hcomm
    · by_cases hc : op = .SUB ∧ c = 0
      · rw [if_pos hc, List.mem_singleton] at hneg
        subst hneg
        rw [hc.1, hc.2]
        exact ⟨(BitVec.zero_sub _).symm, hsrc⟩
      · rw [if_neg hc] at hneg
        cases hneg
  · rcases List.mem_map.mp hlong with ⟨const, hconst, rfl⟩
    have hbuilds := builds_of_mem_constants hconst
    rw [Node.eval, hbuilds.eval]
    exact ⟨rfl, fits_append hbuilds.fits hsrc⟩

theorem icmpPatterns_spec {src1 : Node} {cmp : Compare} {c : Word} (hsrc : src1.Fits)
    (h : cmp ∈ icmpPatterns src1 c) (regs : Nat → Word) :
    cmp.eval regs = signedCompare (src1.eval regs) c ∧ cmp.Fits := by
  rcases List.mem_append.mp h with hshort | hlong
  · by_cases hc : simm19 c = true
    · rw [if_pos hc, List.mem_singleton] at hshort
      subst hshort
      have hfits : scmpField.fits c := fits_of_isInt hc
      rw [Compare.eval, fieldValue_of_fits (by decide) (by decide) hfits]
      exact ⟨rfl, fits_append hsrc (fits_singleton hfits)⟩
    · rw [if_neg hc] at hshort
      cases hshort
  · rcases List.mem_map.mp hlong with ⟨const, hconst, rfl⟩
    have hbuilds := builds_of_mem_constants hconst
    rw [Compare.eval, hbuilds.eval]
    exact ⟨rfl, fits_append hsrc hbuilds.fits⟩

theorem fits_reg (n : Nat) : (Node.reg n).Fits := by
  intro imm himm
  cases himm

/-- Every pattern that matches an operation of a register and a constant, in either
order, or a signed comparison of them computes it from immediates that fit their fields. -/
theorem patterns_intact (c : Word) (n : Nat) (regs : Nat → Word) :
    (∀ op, ∀ node ∈ aluPatterns op (.reg n) c,
      node.eval regs = op.eval (regs n) c ∧ node.Fits) ∧
    (∀ op, ∀ node ∈ leftPatterns op c (.reg n),
      node.eval regs = op.eval c (regs n) ∧ node.Fits) ∧
    ∀ cmp ∈ icmpPatterns (.reg n) c,
      cmp.eval regs = signedCompare (regs n) c ∧ cmp.Fits :=
  ⟨fun _ _ h => aluPatterns_spec (fits_reg n) h regs,
    fun _ _ h => leftPatterns_spec (fits_reg n) h regs,
    fun _ h => icmpPatterns_spec (fits_reg n) h regs⟩

/-- The smallest constant that is too wide for `LDIri`, and the greatest of all: built in
two halves it is or'ed to a value, by `not` it is xor'ed. -/
theorem patterns_intact_huge :
    (Node.rr .OR (.reg 0) (.rr .OR (.LDIri 0) (.ri .SHL (.LDIri 1) 19))).eval
      (fun _ => 5) = 524293 ∧
    (Node.NOTrr (.reg 0)).eval (fun _ => 5) = 0xFFFFFFFA ∧
    (Node.ri .DIV (.reg 0) (-1)).eval (fun _ => 5) = -5 ∧
    (Compare.SCMPrr (.reg 0) (.rr .OR (.LDIri 0) (.ri .SHL (.LDIri 1) 19))).eval
      (fun _ => 524287) = .less :=
  ⟨((patterns_intact 524288 0 fun _ => 5).1 .OR _ (by decide)).1,
    ((patterns_intact (-1) 0 fun _ => 5).1 .XOR _ (by decide)).1,
    ((patterns_intact (-1) 0 fun _ => 5).1 .DIV _ (by decide)).1,
    ((patterns_intact 524288 0 fun _ => 524287).2.2 _ (by decide)).1⟩

end Mandarin.Isel
