import Mathlib.Data.BitVec

/-! # Known bits

What is known of a value bit by bit: some bits are zero, some are one, of the others
nothing is known. Knowledge about two values is met by what is known of both, and
nothing more holds of both.
-/

namespace Mandarin

/-- No bit is known to be both. -/
structure KnownBits (w : Nat) where
  zero : BitVec w
  one : BitVec w
  disjoint : zero &&& one = 0#w

namespace KnownBits

variable {w : Nat}

def unknown : KnownBits w := ⟨0#w, 0#w, BitVec.zero_and⟩

/-- Bit `i` is known to be `b`. -/
def Knows (k : KnownBits w) (i : Nat) (b : Bool) : Prop :=
  if b then k.one.getLsbD i = true else k.zero.getLsbD i = true

/-- The value has all known bits. -/
def Describes (k : KnownBits w) (v : BitVec w) : Prop := ∀ i b, k.Knows i b → v.getLsbD i = b

@[simp] theorem not_knows_unknown (i : Nat) (b : Bool) : ¬ (unknown : KnownBits w).Knows i b := by
  cases b <;> simp [Knows, unknown]

theorem unknown_describes (v : BitVec w) : (unknown : KnownBits w).Describes v :=
  fun i b h => absurd h (not_knows_unknown i b)

theorem Knows.unique {k : KnownBits w} {i : Nat} (h : k.Knows i true) : ¬ k.Knows i false := by
  intro h'
  have hone : k.one.getLsbD i = true := h
  have hzero : k.zero.getLsbD i = true := h'
  have hbit : (k.zero &&& k.one).getLsbD i = true := by
    rw [BitVec.getLsbD_and, hzero, hone]
    rfl
  rw [k.disjoint, BitVec.getLsbD_zero] at hbit
  cases hbit

/-! ## Values that are described -/

theorem one_describes (k : KnownBits w) : k.Describes k.one := by
  intro i b h
  cases b with
  | true => exact h
  | false =>
      cases hone : k.one.getLsbD i with
      | false => rfl
      | true => exact absurd h (Knows.unique hone)

theorem not_zero_describes (k : KnownBits w) : k.Describes (~~~k.zero) := by
  intro i b h
  cases b with
  | false =>
      have hzero : k.zero.getLsbD i = true := h
      rw [BitVec.getLsbD_not, hzero]
      simp
  | true =>
      have hone : k.one.getLsbD i = true := h
      have hlt : i < w := BitVec.lt_of_getLsbD hone
      cases hzero : k.zero.getLsbD i with
      | true => exact absurd hzero (Knows.unique h)
      | false =>
          rw [BitVec.getLsbD_not, hzero]
          simpa using hlt

/-- A bit is known exactly if it is the same in all values described. -/
theorem knows_iff {k : KnownBits w} {i : Nat} (hi : i < w) {b : Bool} :
    k.Knows i b ↔ ∀ v, k.Describes v → v.getLsbD i = b := by
  constructor
  · intro h v hv
    exact hv i b h
  · intro h
    cases b with
    | true => exact h k.one k.one_describes
    | false =>
        have hbit := h (~~~k.zero) k.not_zero_describes
        rw [BitVec.getLsbD_not] at hbit
        show k.zero.getLsbD i = true
        simpa [hi] using hbit

/-! ## Meet -/

theorem disjoint_meet (a b : KnownBits w) : (a.zero &&& b.zero) &&& (a.one &&& b.one) = 0#w := by
  rw [BitVec.and_assoc, ← BitVec.and_assoc b.zero, BitVec.and_comm b.zero, BitVec.and_assoc a.one,
    b.disjoint, BitVec.and_zero, BitVec.and_zero]

/-- Only known if known in both. -/
def meet (a b : KnownBits w) : KnownBits w := ⟨a.zero &&& b.zero, a.one &&& b.one, disjoint_meet a b⟩

@[simp] theorem knows_meet {a b : KnownBits w} {i : Nat} {v : Bool} :
    (a.meet b).Knows i v ↔ a.Knows i v ∧ b.Knows i v := by
  cases v <;> simp [Knows, meet]

theorem Describes.meet_left {a : KnownBits w} {v : BitVec w} (h : a.Describes v) (b : KnownBits w) :
    (a.meet b).Describes v := fun i c hc => h i c (knows_meet.mp hc).1

theorem Describes.meet_right {b : KnownBits w} {v : BitVec w} (h : b.Describes v)
    (a : KnownBits w) : (a.meet b).Describes v := fun i c hc => h i c (knows_meet.mp hc).2

end KnownBits

end Mandarin
