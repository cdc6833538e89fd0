import Mathlib.Algebra.GroupWithZero.Nat
import Mathlib.Data.Fintype.Basic
import Mathlib.Data.List.Basic

/-! # Register file, register classes and value types

Physical registers are the defs of the target description. Pairs and quads are
tuples of consecutive general registers, so two registers alias exactly when
they share a 32-bit lane. The tuple lists stop at `RD14` and `RQ6`: no tuple
contains the stack pointer `R30` or the frame pointer `R31`.
-/

namespace Mandarin

-- what instances prove about register numbers, proved once for all modules
instance neZero_generic : NeZero 32 := ⟨by decide⟩

instance neZero_double : NeZero 15 := ⟨by decide⟩

instance neZero_quad : NeZero 7 := ⟨by decide⟩

instance lawfulBEq_generic : LawfulBEq (Fin 32) := inferInstance

theorem firstLane_double (n : Fin 15) : 2 * n.val < 32 := by omega

theorem firstLane_quad (n : Fin 7) : 4 * n.val < 32 := by omega

/-- A 32-bit machine word, address or `unsigned` of the source. -/
abbrev Word := BitVec 32

/-- `NoRegister` is the register number 0 that `AllocateReg` returns when its
list is exhausted. -/
inductive Reg where
  | NoRegister
  | CC_FLAG
  | R (n : Fin 32)
  | RD (n : Fin 15)
  | RQ (n : Fin 7)
  deriving DecidableEq, Repr

namespace Reg

/-- The general registers a register is made of, lane 0 first. -/
def lanes : Reg → List (Fin 32)
  | NoRegister | CC_FLAG => []
  | R n => [n]
  | RD n => [⟨2 * n, by omega⟩, ⟨2 * n + 1, by omega⟩]
  | RQ n => [⟨4 * n, by omega⟩, ⟨4 * n + 1, by omega⟩, ⟨4 * n + 2, by omega⟩, ⟨4 * n + 3, by omega⟩]

/-- Register aliasing, a register being an alias of itself. -/
def overlaps (r s : Reg) : Bool :=
  r == s || r.lanes.any (s.lanes.contains ·)

@[simp] theorem lanes_R (n : Fin 32) : (R n).lanes = [n] := rfl

@[simp] theorem overlaps_R (m n : Fin 32) : (R m).overlaps (R n) = (m == n) := by
  by_cases h : m = n <;> simp [overlaps, h]

/-- The tuples leave out the last two general registers. -/
theorem lanes_of_tuple_lt (r : Reg) (hr : ∀ n, r ≠ R n) : ∀ n ∈ r.lanes, n.val < 30 := by
  cases r with
  | NoRegister => simp [lanes]
  | CC_FLAG => simp [lanes]
  | R n => exact (hr n rfl).elim
  | RD n => simp [lanes]; omega
  | RQ n => simp [lanes]; omega

end Reg

abbrev stackPointer : Reg := .R 30

abbrev RegFile := Fin 32 → Word

inductive MVT where
  | i32 | f32 | v2i32 | v2f32 | v4i32 | v4f32
  deriving DecidableEq, Repr

def MVT.isScalar : MVT → Bool
  | i32 | f32 => true
  | _ => false

theorem MVT.isScalar_i32 : MVT.i32.isScalar = true := rfl

theorem MVT.isScalar_f32 : MVT.f32.isScalar = true := rfl

def MVT.getSizeInBits : MVT → Nat
  | i32 | f32 => 32
  | v2i32 | v2f32 => 64
  | v4i32 | v4f32 => 128

inductive RegClass where
  | GenericRegs | DoubleRegs | QuadRegs
  deriving DecidableEq, Repr

namespace RegClass

def lanes : RegClass → Nat
  | GenericRegs => 1
  | DoubleRegs => 2
  | QuadRegs => 4

def contains : RegClass → Reg → Bool
  | GenericRegs, .R _ => true
  | DoubleRegs, .RD _ => true
  | QuadRegs, .RQ _ => true
  | _, _ => false

theorem lanes_pos (c : RegClass) : 0 < c.lanes := by
  cases c <;> decide

end RegClass

end Mandarin
