import Mathlib.Data.Nat.Bitwise

/-! # Packed words

A word is put together from values at ranges of its bits. Every value is cut to the
width of its range. Ranges in ascending order do not overlap, and packing is then
a sum.
-/

namespace Mandarin.Packing

/-- The bits from `lo` on, `width` of them. -/
structure Slice where
  lo : Nat
  width : Nat
  deriving DecidableEq, Repr

def Slice.place (s : Slice) (v : Nat) : Nat := 2 ^ s.lo * (v % 2 ^ s.width)

theorem Slice.place_lt (s : Slice) (v : Nat) : s.place v < 2 ^ (s.lo + s.width) := by
  rw [place, Nat.pow_add]
  exact Nat.mul_lt_mul_of_pos_left (Nat.mod_lt v (Nat.two_pow_pos _)) (Nat.two_pow_pos _)

def pack (w : Nat) : List (Slice × Nat) → BitVec w
  | [] => 0
  | f :: fs => BitVec.ofNat w (f.1.place f.2) ||| pack w fs

def placeSum (fs : List (Slice × Nat)) : Nat := (fs.map fun f => f.1.place f.2).sum

@[simp] theorem placeSum_nil : placeSum [] = 0 := rfl

@[simp] theorem placeSum_cons (f : Slice × Nat) (fs : List (Slice × Nat)) :
    placeSum (f :: fs) = f.1.place f.2 + placeSum fs := by
  rw [placeSum, List.map_cons, List.sum_cons, placeSum]

/-- The slices are in order, from bit `base` on and below bit `w`. -/
def Ascending (w : Nat) : Nat → List Slice → Prop
  | base, [] => base ≤ w
  | base, s :: ss => base ≤ s.lo ∧ Ascending w (s.lo + s.width) ss

def decidableAscending (w : Nat) : (base : Nat) → (ss : List Slice) → Decidable (Ascending w base ss)
  | base, [] => inferInstanceAs (Decidable (base ≤ w))
  | _, s :: ss => @instDecidableAnd _ _ _ (decidableAscending w (s.lo + s.width) ss)

instance (w base : Nat) (ss : List Slice) : Decidable (Ascending w base ss) :=
  decidableAscending w base ss

theorem Ascending.le {w base : Nat} {ss : List Slice} (h : Ascending w base ss) : base ≤ w := by
  induction ss generalizing base with
  | nil => exact h
  | cons s ss ih =>
      have hrest := ih h.2
      have hbase := h.1
      omega

theorem Ascending.zip {w base : Nat} {ss : List Slice} (h : Ascending w base ss) (vs : List Nat) :
    Ascending w base ((ss.zip vs).map Prod.fst) := by
  induction ss generalizing base vs with
  | nil => exact h
  | cons s ss ih =>
      cases vs with
      | nil => exact Ascending.le h
      | cons v vs => exact ⟨h.1, ih h.2 vs⟩

/-- What is packed from bit `base` on is a multiple of that bit. -/
theorem dvd_placeSum {w base : Nat} {fs : List (Slice × Nat)}
    (h : Ascending w base (fs.map Prod.fst)) : 2 ^ base ∣ placeSum fs := by
  induction fs generalizing base with
  | nil => exact Nat.dvd_zero _
  | cons f fs ih =>
      rw [placeSum_cons]
      apply Nat.dvd_add
      · exact Nat.dvd_trans (Nat.pow_dvd_pow 2 h.1) (Nat.dvd_mul_right _ _)
      · have hle : base ≤ f.1.lo + f.1.width := Nat.le_trans h.1 (Nat.le_add_right _ _)
        exact Nat.dvd_trans (Nat.pow_dvd_pow 2 hle) (ih h.2)

/-- Packing is adding. -/
theorem toNat_pack {w base : Nat} {fs : List (Slice × Nat)}
    (h : Ascending w base (fs.map Prod.fst)) : (pack w fs).toNat = placeSum fs := by
  induction fs generalizing base with
  | nil =>
      show (0 : BitVec w).toNat = 0
      simp
  | cons f fs ih =>
      have hrest := ih h.2
      have hle : f.1.lo + f.1.width ≤ w := Ascending.le h.2
      have hlt : f.1.place f.2 < 2 ^ w :=
        Nat.lt_of_lt_of_le (f.1.place_lt f.2) (Nat.pow_le_pow_right (by decide) hle)
      -- the other values are above the bits of this one
      rcases dvd_placeSum h.2 with ⟨k, hk⟩
      rw [pack, BitVec.toNat_or, BitVec.toNat_ofNat, Nat.mod_eq_of_lt hlt, hrest, placeSum_cons, hk,
        Nat.or_comm, ← Nat.two_pow_add_eq_or_of_lt (f.1.place_lt f.2), Nat.add_comm]

end Mandarin.Packing
