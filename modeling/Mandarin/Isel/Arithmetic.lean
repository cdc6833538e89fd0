import Mandarin.Target.Register
import Mandarin.Lib.Immediate

/-! # Arithmetic and comparison

The integer operations that have instructions of their own and what the signed
comparison leaves in `CC_FLAG`.
-/

namespace Mandarin.Isel

open Immediate

/-- The integer operations of `MandarinInstrInfo.td`, named after their `defm`. -/
inductive AluOp where
  | ADD | SUB | MUL | DIV | MOD | SHL | SHR | AND | OR | XOR
  deriving DecidableEq, Repr

namespace AluOp

/-- The selected operation: `add`, `sub`, `mul`, `sdiv`, `srem`, `shl`, `srl`, `and`,
`or`, `xor`. -/
def eval : AluOp → Word → Word → Word
  | ADD, a, b => a + b
  | SUB, a, b => a - b
  | MUL, a, b => a * b
  | DIV, a, b => a.sdiv b
  | MOD, a, b => a.srem b
  | SHL, a, b => a <<< b
  | SHR, a, b => a >>> b
  | AND, a, b => a &&& b
  | OR, a, b => a ||| b
  | XOR, a, b => a ^^^ b

/-- `Inst32MD3IntS` or `Inst32MD3IntU`. -/
def signedImm : AluOp → Bool
  | DIV | MOD => true
  | _ => false

def imm14 (op : AluOp) : Field := ⟨14, op.signedImm⟩

def isCommutative : AluOp → Bool
  | ADD | MUL | AND | OR | XOR => true
  | _ => false

theorem eval_comm {op : AluOp} (h : op.isCommutative = true) (a b : Word) :
    op.eval a b = op.eval b a := by
  cases op with
  | ADD => exact BitVec.add_comm a b
  | MUL => exact BitVec.mul_comm a b
  | AND => exact BitVec.and_comm a b
  | OR => exact BitVec.or_comm a b
  | XOR => exact BitVec.xor_comm a b
  | SUB => cases h
  | DIV => cases h
  | MOD => cases h
  | SHL => cases h
  | SHR => cases h

end AluOp

/-! ## Comparison -/

/-- What a comparison finds out about its operands, in their order. -/
inductive Outcome where
  | less | equal | greater | unordered
  deriving DecidableEq, Repr

def Outcome.mirror : Outcome → Outcome
  | less => greater
  | greater => less
  | o => o

/-- `SCMP`. -/
def signedCompare (a b : Word) : Outcome :=
  if a = b then .equal else if a.slt b then .less else .greater

theorem signedCompare_eq_equal {a b : Word} : signedCompare a b = .equal ↔ a = b := by
  unfold signedCompare
  by_cases h : a = b
  · simp [h]
  · rw [if_neg h]
    by_cases hlt : a.slt b = true <;> simp [h, hlt]

theorem signedCompare_eq_less {a b : Word} : signedCompare a b = .less ↔ a.toInt < b.toInt := by
  unfold signedCompare
  by_cases h : a = b
  · simp [h]
  · rw [if_neg h, ← BitVec.slt_iff_toInt_lt]
    by_cases hlt : a.slt b = true <;> simp [hlt]

theorem signedCompare_eq_greater {a b : Word} :
    signedCompare a b = .greater ↔ b.toInt < a.toInt := by
  unfold signedCompare
  by_cases h : a = b
  · simp [h]
  · have hne : a.toInt ≠ b.toInt := fun heq => h (BitVec.eq_of_toInt_eq heq)
    rw [if_neg h]
    by_cases hlt : a.slt b = true
    · have hlt' := BitVec.slt_iff_toInt_lt.mp hlt
      simp only [hlt, ↓reduceIte, reduceCtorEq, false_iff]
      omega
    · have hle : ¬ a.toInt < b.toInt := fun h' => hlt (BitVec.slt_iff_toInt_lt.mpr h')
      simp only [hlt, Bool.false_eq_true, ↓reduceIte, true_iff]
      omega

theorem signedCompare_ne_unordered (a b : Word) : signedCompare a b ≠ .unordered := by
  unfold signedCompare
  by_cases h : a = b
  · simp [h]
  · rw [if_neg h]
    by_cases hlt : a.slt b = true <;> simp [hlt]

theorem signedCompare_comm (a b : Word) : signedCompare b a = (signedCompare a b).mirror := by
  cases h : signedCompare a b with
  | less => exact signedCompare_eq_greater.mpr (signedCompare_eq_less.mp h)
  | equal => exact signedCompare_eq_equal.mpr (signedCompare_eq_equal.mp h).symm
  | greater => exact signedCompare_eq_less.mpr (signedCompare_eq_greater.mp h)
  | unordered => exact absurd h (signedCompare_ne_unordered a b)

end Mandarin.Isel
