import Mathlib.Algebra.Group.Nat.Defs
import Mathlib.Data.List.Basic
import Mathlib.Data.List.Perm.Basic

/-! # Byte-addressed memory

A memory maps the addresses of a `w`-bit address space to bytes. A region is a
run of addresses modulo the address space. An update rewrites its region with
bytes it may read from the memory it runs in; updates whose regions are apart and
which read none of these regions can run in any order.
-/

namespace Mandarin.Memory

abbrev Mem (w : Nat) := BitVec w → BitVec 8

variable {w : Nat}

/-! ## Regions -/

structure Region (w : Nat) where
  start : BitVec w
  size : Nat
  deriving DecidableEq

def Region.Contains (r : Region w) (a : BitVec w) : Prop := (a - r.start).toNat < r.size

instance (r : Region w) (a : BitVec w) : Decidable (r.Contains a) :=
  inferInstanceAs (Decidable (_ < _))

def Region.Apart (r s : Region w) : Prop := ∀ a, r.Contains a → ¬ s.Contains a

theorem Region.Apart.symm {r s : Region w} (h : r.Apart s) : s.Apart r :=
  fun a hs hr => h a hr hs

theorem Region.contains_iff {r : Region w} (h : r.start.toNat + r.size ≤ 2 ^ w) (a : BitVec w) :
    r.Contains a ↔ r.start.toNat ≤ a.toNat ∧ a.toNat < r.start.toNat + r.size := by
  unfold Region.Contains
  have ha := a.isLt
  rw [BitVec.toNat_sub]
  rcases Nat.lt_or_ge a.toNat r.start.toNat with hlt | hge
  · rw [Nat.mod_eq_of_lt (by omega)]
    omega
  · rw [show 2 ^ w - r.start.toNat + a.toNat = a.toNat - r.start.toNat + 2 ^ w by omega,
      Nat.add_mod_right, Nat.mod_eq_of_lt (by omega)]
    omega

theorem Region.contains_add {r : Region w} {i : Nat} (hi : i < r.size) (hw : i < 2 ^ w) :
    r.Contains (r.start + BitVec.ofNat w i) := by
  unfold Region.Contains
  rw [BitVec.add_comm, BitVec.add_sub_cancel, BitVec.toNat_ofNat, Nat.mod_eq_of_lt hw]
  exact hi

theorem Region.apart_of_le {r s : Region w} (hr : r.start.toNat + r.size ≤ s.start.toNat)
    (hs : s.start.toNat + s.size ≤ 2 ^ w) : r.Apart s := by
  intro a ha hb
  have h1 := (Region.contains_iff (by omega) a).mp ha
  have h2 := (Region.contains_iff hs a).mp hb
  omega

/-! ## Writing -/

/-- Write byte `f i` at offset `i` of the region. -/
def write (m : Mem w) (r : Region w) (f : Nat → BitVec 8) : Mem w :=
  fun a => if r.Contains a then f (a - r.start).toNat else m a

theorem write_of_not_contains {m : Mem w} {r : Region w} {f : Nat → BitVec 8} {a : BitVec w}
    (h : ¬ r.Contains a) : write m r f a = m a := if_neg h

theorem write_add {m : Mem w} {r : Region w} {f : Nat → BitVec 8} {i : Nat} (hi : i < r.size)
    (hw : i < 2 ^ w) : write m r f (r.start + BitVec.ofNat w i) = f i := by
  unfold write
  rw [if_pos (Region.contains_add hi hw), BitVec.add_comm, BitVec.add_sub_cancel,
    BitVec.toNat_ofNat, Nat.mod_eq_of_lt hw]

/-! ## 32-bit words, low byte first -/

def wordByte (v : BitVec 32) (i : Nat) : BitVec 8 := v.extractLsb' (8 * i) 8

def storeWord (m : Mem w) (p : BitVec w) (v : BitVec 32) : Mem w := write m ⟨p, 4⟩ (wordByte v)

def loadWord (m : Mem w) (p : BitVec w) : BitVec 32 :=
  m (p + BitVec.ofNat w 3) ++ m (p + BitVec.ofNat w 2) ++ m (p + BitVec.ofNat w 1) ++
    m (p + BitVec.ofNat w 0)

theorem loadWord_eq_of_bytes {m : Mem w} {p : BitVec w} {v : BitVec 32}
    (h : ∀ i < 4, m (p + BitVec.ofNat w i) = wordByte v i) : loadWord m p = v := by
  unfold loadWord
  rw [h 0 (by decide), h 1 (by decide), h 2 (by decide), h 3 (by decide)]
  apply BitVec.eq_of_getLsbD_eq
  intro i hi
  simp only [wordByte, BitVec.getLsbD_append, BitVec.getLsbD_extractLsb']
  have hcase : i < 8 ∨ (8 ≤ i ∧ i < 16) ∨ (16 ≤ i ∧ i < 24) ∨ (24 ≤ i ∧ i < 32) := by omega
  rcases hcase with h0 | ⟨h0, h1⟩ | ⟨h0, h1⟩ | ⟨h0, h1⟩
  · simp [h0]
  · simp [show ¬ i < 8 by omega, show i - 8 < 8 by omega, show 8 + (i - 8) = i by omega]
  · simp [show ¬ i < 8 by omega, show ¬ i - 8 < 8 by omega, show i - 8 - 8 < 8 by omega,
      show 16 + (i - 8 - 8) = i by omega]
  · simp [show ¬ i < 8 by omega, show ¬ i - 8 < 8 by omega, show ¬ i - 8 - 8 < 8 by omega,
      show i - 8 - 8 - 8 < 8 by omega, show 24 + (i - 8 - 8 - 8) = i by omega]

theorem wordByte_loadWord (m : Mem w) (p : BitVec w) {i : Nat} (hi : i < 4) :
    wordByte (loadWord m p) i = m (p + BitVec.ofNat w i) := by
  apply BitVec.eq_of_getLsbD_eq
  intro j hj
  simp only [wordByte, loadWord, BitVec.getLsbD_extractLsb', BitVec.getLsbD_append]
  have hcase : i = 0 ∨ i = 1 ∨ i = 2 ∨ i = 3 := by omega
  rcases hcase with rfl | rfl | rfl | rfl
  · simp [hj]
  · simp [hj, show ¬ 8 * 1 + j < 8 by omega]
  · simp [hj, show ¬ 8 * 2 + j < 8 by omega, show ¬ 8 * 2 + j - 8 < 8 by omega,
      show 16 + j - 8 - 8 = j by omega]
  · simp [hj, show ¬ 8 * 3 + j < 8 by omega, show ¬ 8 * 3 + j - 8 < 8 by omega,
      show ¬ 8 * 3 + j - 8 - 8 < 8 by omega, show 24 + j - 8 - 8 - 8 = j by omega]

theorem loadWord_eq_iff (m : Mem w) (p : BitVec w) (v : BitVec 32) :
    loadWord m p = v ↔ ∀ i < 4, m (p + BitVec.ofNat w i) = wordByte v i := by
  constructor
  · rintro rfl i hi
    exact (wordByte_loadWord m p hi).symm
  · exact loadWord_eq_of_bytes

theorem loadWord_congr {m m' : Mem w} {p : BitVec w}
    (h : ∀ i < 4, m (p + BitVec.ofNat w i) = m' (p + BitVec.ofNat w i)) :
    loadWord m p = loadWord m' p := by
  unfold loadWord
  rw [h 0 (by decide), h 1 (by decide), h 2 (by decide), h 3 (by decide)]

theorem loadWord_storeWord (hw : 2 ≤ w) (m : Mem w) (p : BitVec w) (v : BitVec 32) :
    loadWord (storeWord m p v) p = v := by
  apply loadWord_eq_of_bytes
  intro i hi
  have hpow : 2 ^ 2 ≤ 2 ^ w := Nat.pow_le_pow_right (by decide) hw
  exact @write_add w m ⟨p, 4⟩ (wordByte v) i hi (by omega)

/-! ## Independent updates -/

structure Update (w : Nat) where
  region : Region w
  data : Mem w → Nat → BitVec 8

def Update.run (u : Update w) (m : Mem w) : Mem w := write m u.region (u.data m)

theorem Update.run_of_contains (u : Update w) (m : Mem w) {a : BitVec w}
    (h : u.region.Contains a) : u.run m a = u.data m (a - u.region.start).toNat := if_pos h

theorem Update.run_of_not_contains (u : Update w) (m : Mem w) {a : BitVec w}
    (h : ¬ u.region.Contains a) : u.run m a = m a := write_of_not_contains h

def runAll (us : List (Update w)) (m : Mem w) : Mem w := us.foldl (fun m u => u.run m) m

/-- What the update writes does not depend on the regions of `us`. -/
def Update.ReadsOutside (u : Update w) (us : List (Update w)) : Prop :=
  ∀ m m' : Mem w, (∀ a, (∀ v ∈ us, ¬ v.region.Contains a) → m a = m' a) →
    ∀ i < u.region.size, u.data m i = u.data m' i

theorem runAll_append (us vs : List (Update w)) (m : Mem w) :
    runAll (us ++ vs) m = runAll vs (runAll us m) := List.foldl_append ..

/-- Memory outside all regions is unchanged. -/
theorem runAll_frame {us : List (Update w)} {a : BitVec w} (m : Mem w)
    (h : ∀ u ∈ us, ¬ u.region.Contains a) : runAll us m a = m a := by
  induction us generalizing m with
  | nil => rfl
  | cons u us ih =>
      have hu : u.run m a = m a := write_of_not_contains (h u (by simp))
      show runAll us (u.run m) a = m a
      rw [ih _ fun v hv => h v (by simp [hv]), hu]

/-- Inside its region every update leaves what it would have written alone. -/
theorem runAll_of_mem {us : List (Update w)} {u : Update w} (m : Mem w) (hu : u ∈ us)
    (hapart : us.Pairwise fun u v => u.region.Apart v.region)
    (hreads : u.ReadsOutside us) {i : Nat} (hi : i < u.region.size) (hw : i < 2 ^ w) :
    runAll us m (u.region.start + BitVec.ofNat w i) = u.data m i := by
  obtain ⟨before, behind, rfl⟩ := List.append_of_mem hu
  have hin : u.region.Contains (u.region.start + BitVec.ofNat w i) := Region.contains_add hi hw
  have hbehind : ∀ v ∈ behind, ¬ v.region.Contains (u.region.start + BitVec.ofNat w i) := by
    intro v hv
    rw [List.pairwise_append] at hapart
    exact (List.pairwise_cons.mp hapart.2.1).1 v hv _ hin
  have hsame : u.data (runAll before m) i = u.data m i := by
    apply hreads _ _ _ i hi
    intro a ha
    exact runAll_frame m fun v hv => ha v (by simp [hv])
  rw [show before ++ u :: behind = (before ++ [u]) ++ behind by simp, runAll_append, runAll_append,
    runAll_frame _ hbehind, ← hsame]
  exact write_add hi hw

end Mandarin.Memory
