import Mathlib.Data.Nat.Bitwise

/-! # Immediate fields

A field of an instruction holds the low bits of its immediate and is read back
zero- or sign-extended. An immediate in the field's range comes back unchanged.
A word too wide for any field is put together from two halves that are not.
-/

namespace Mandarin.Immediate

variable {n : Nat}

structure Field where
  width : Nat
  signed : Bool
  deriving DecidableEq, Repr

namespace Field

/-- The immediates a field can represent. -/
def fits (f : Field) (v : BitVec n) : Prop :=
  if f.signed then -(2 ^ (f.width - 1) : Int) ≤ v.toInt ∧ v.toInt < 2 ^ (f.width - 1)
  else v.toNat < 2 ^ f.width

instance (f : Field) (v : BitVec n) : Decidable (f.fits v) :=
  inferInstanceAs (Decidable (if f.signed then _ else _))

def encode (f : Field) (v : BitVec n) : BitVec f.width := v.setWidth f.width

def read (f : Field) (n : Nat) (bits : BitVec f.width) : BitVec n :=
  if f.signed then bits.signExtend n else bits.setWidth n

theorem setWidth_encode {f : Field} {v : BitVec n} (h : v.toNat < 2 ^ f.width) :
    (f.encode v).setWidth n = v := by
  apply BitVec.eq_of_toNat_eq
  rw [encode, BitVec.toNat_setWidth, BitVec.toNat_setWidth, Nat.mod_eq_of_lt h,
    Nat.mod_eq_of_lt v.isLt]

theorem signExtend_encode {f : Field} {v : BitVec n} (hpos : 0 < f.width) (hle : f.width ≤ n)
    (hlo : -(2 ^ (f.width - 1) : Int) ≤ v.toInt) (hhi : v.toInt < 2 ^ (f.width - 1)) :
    (f.encode v).signExtend n = v := by
  apply BitVec.eq_of_toInt_eq
  rw [BitVec.toInt_signExtend_of_le hle, encode, BitVec.toInt_setWidth]
  have hdvd : 2 ^ f.width ∣ 2 ^ n := Nat.pow_dvd_pow 2 hle
  have hpow : (2 ^ f.width : Int) = 2 * 2 ^ (f.width - 1) := by
    rw [← Int.pow_succ', Nat.sub_add_cancel hpos]
  rw [← Int.bmod_bmod_of_dvd hdvd, ← BitVec.toInt_eq_toNat_bmod]
  apply Int.bmod_eq_of_le <;> push_cast <;> omega

/-- An immediate in range comes back. -/
theorem read_encode {f : Field} {v : BitVec n} (hpos : 0 < f.width) (hle : f.width ≤ n)
    (h : f.fits v) : f.read n (f.encode v) = v := by
  unfold fits at h
  unfold read
  by_cases hs : f.signed = true
  · rw [if_pos hs] at h ⊢
    exact signExtend_encode hpos hle h.1 h.2
  · rw [if_neg hs] at h ⊢
    exact setWidth_encode h

end Field

/-! ## Two halves of a word -/

def low (k : Nat) (v : BitVec n) : BitVec n := v &&& BitVec.ofNat n (2 ^ k - 1)

def high (k : Nat) (v : BitVec n) : BitVec n := v >>> k

theorem low_lt (k : Nat) (v : BitVec n) : (low k v).toNat < 2 ^ k := by
  rw [low, BitVec.toNat_and, BitVec.toNat_ofNat]
  have hmask : (2 ^ k - 1) % 2 ^ n ≤ 2 ^ k - 1 := Nat.mod_le ..
  have hand := @Nat.and_le_right v.toNat ((2 ^ k - 1) % 2 ^ n)
  have hpos := Nat.two_pow_pos k
  omega

theorem high_lt {k : Nat} (hk : k ≤ n) (v : BitVec n) : (high k v).toNat < 2 ^ (n - k) := by
  rw [high, BitVec.toNat_ushiftRight, Nat.shiftRight_eq_div_pow]
  apply Nat.div_lt_of_lt_mul
  rw [← Nat.pow_add, Nat.add_sub_cancel' hk]
  exact v.isLt

/-- The halves make up the word. -/
theorem low_or_high (k : Nat) (v : BitVec n) : low k v ||| high k v <<< k = v := by
  apply BitVec.eq_of_getLsbD_eq
  intro i hi
  rw [BitVec.getLsbD_or, low, BitVec.getLsbD_and, BitVec.getLsbD_ofNat,
    Nat.testBit_two_pow_sub_one, BitVec.getLsbD_shiftLeft, high, BitVec.getLsbD_ushiftRight]
  by_cases hik : i < k
  · simp [hi, hik]
  · simp [hi, hik, Nat.add_sub_cancel' (Nat.le_of_not_lt hik)]

end Mandarin.Immediate
