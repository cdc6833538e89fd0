import Mathlib.Data.Nat.Bitwise
import Mathlib.Data.List.Pairwise
import Mathlib.Tactic.Ring

/-! # Rounding up and sequential layout

A sequential layout hands out one block per request, each at the first multiple
of its alignment at or above the end of the previous block. Offsets are natural
numbers here. The word-sized mask form of rounding is shown equal to the
unbounded one as long as the result fits the word.
-/

namespace Mandarin.Layout

/-! ## Rounding up -/

/-- The least multiple of `align` that is at least `n`. -/
def roundUp (n align : Nat) : Nat := (n + (align - 1)) / align * align

theorem le_roundUp (n : Nat) {align : Nat} (ha : 0 < align) : n ≤ roundUp n align := by
  have hd := Nat.div_add_mod (n + (align - 1)) align
  have hm := Nat.mod_lt (n + (align - 1)) ha
  unfold roundUp
  rw [Nat.mul_comm]
  omega

theorem dvd_roundUp (n align : Nat) : align ∣ roundUp n align := Nat.dvd_mul_left _ _

/-- Rounding by masking, as it is done on machine words. -/
def alignUp {w : Nat} (n align : BitVec w) : BitVec w := (n + (align - 1)) &&& ~~~(align - 1)

private theorem toNat_and_not_add {w : Nat} (x m : BitVec w) :
    (x &&& ~~~m).toNat + (x &&& m).toNat = x.toNat := by
  have hdisj : (x &&& ~~~m) &&& (x &&& m) = 0#w := by
    ext i hi
    simp only [BitVec.getElem_and, BitVec.getElem_not, BitVec.getElem_zero]
    cases m[i] <;> simp
  have hor : (x &&& ~~~m) ||| (x &&& m) = x := by
    ext i hi
    simp only [BitVec.getElem_or, BitVec.getElem_and, BitVec.getElem_not]
    cases m[i] <;> simp
  rw [← BitVec.toNat_add_of_and_eq_zero hdisj, BitVec.add_eq_or_of_and_eq_zero _ _ hdisj, hor]

theorem roundUp_add_mod (n align : Nat) :
    roundUp n align + (n + (align - 1)) % align = n + (align - 1) := Nat.div_add_mod' ..

section
variable {w k : Nat} {align : BitVec w} (hk : align.toNat = 2 ^ k)
include hk

private theorem align_pow_le : k < w := by
  have hlt : 2 ^ k < 2 ^ w := by
    rw [← hk]
    exact align.isLt
  exact (Nat.pow_lt_pow_iff_right (by decide)).mp hlt

private theorem toNat_alignMask : (align - 1).toNat = 2 ^ k - 1 := by
  have hkw := align_pow_le hk
  have hone : (1 : BitVec w).toNat = 1 := by
    simp; omega
  rw [BitVec.toNat_sub_of_le, hk, hone]
  rw [BitVec.le_def, hone, hk]
  exact Nat.two_pow_pos k

/-- The bits inside the mask are the remainder of the offset, however often it has
wrapped. -/
private theorem toNat_and_alignMask {n : BitVec w} {p : Nat} (hp : p % 2 ^ w = n.toNat) :
    ((n + (align - 1)) &&& (align - 1)).toNat = (p + (2 ^ k - 1)) % 2 ^ k := by
  have hdvd : 2 ^ k ∣ 2 ^ w := Nat.pow_dvd_pow 2 (Nat.le_of_lt (align_pow_le hk))
  rw [BitVec.toNat_and, BitVec.toNat_add, toNat_alignMask hk, Nat.and_two_pow_sub_one_eq_mod,
    ← hp, Nat.mod_add_mod, Nat.mod_mod_of_dvd _ hdvd]

/-- The padding in front of a block, computed on words that hold the offset modulo
`2 ^ w`. No offset is too large for it. -/
theorem toNat_alignUp_sub {n : BitVec w} {p : Nat} (hp : p % 2 ^ w = n.toNat) :
    (alignUp n align - n).toNat = roundUp p align.toNat - p := by
  have hpos : 0 < 2 ^ k := Nat.two_pow_pos k
  have hle : 2 ^ k ≤ 2 ^ w := Nat.pow_le_pow_right (by decide) (Nat.le_of_lt (align_pow_le hk))
  have hsplit := toNat_and_not_add (n + (align - 1)) (align - 1)
  have hround := roundUp_add_mod p align.toNat
  have hrest : (p + (2 ^ k - 1)) % 2 ^ k < 2 ^ k := Nat.mod_lt _ hpos
  have hn := n.isLt
  rw [toNat_and_alignMask hk hp, BitVec.toNat_add, toNat_alignMask hk] at hsplit
  rw [hk] at hround ⊢
  rw [alignUp, BitVec.toNat_sub]
  generalize ((n + (align - 1)) &&& ~~~(align - 1)).toNat = up at hsplit ⊢
  by_cases hwrap : n.toNat + (2 ^ k - 1) < 2 ^ w
  · rw [Nat.mod_eq_of_lt hwrap] at hsplit
    rw [show 2 ^ w - n.toNat + up = 2 ^ w + (roundUp p (2 ^ k) - p) by omega, Nat.add_mod_left,
      Nat.mod_eq_of_lt (by omega)]
  · have hmod : (n.toNat + (2 ^ k - 1)) % 2 ^ w = n.toNat + (2 ^ k - 1) - 2 ^ w := by
      rw [Nat.mod_eq_sub_mod (by omega), Nat.mod_eq_of_lt (by omega)]
    rw [hmod] at hsplit
    rw [show 2 ^ w - n.toNat + up = roundUp p (2 ^ k) - p by omega, Nat.mod_eq_of_lt (by omega)]

theorem toNat_alignUp (n : BitVec w) (fits : roundUp n.toNat align.toNat < 2 ^ w) :
    (alignUp n align).toNat = roundUp n.toNat align.toNat := by
  have hpad := toNat_alignUp_sub hk (Nat.mod_eq_of_lt n.isLt)
  have hle : n.toNat ≤ roundUp n.toNat align.toNat :=
    le_roundUp _ (by rw [hk]; exact Nat.two_pow_pos k)
  rw [← BitVec.sub_add_cancel (alignUp n align) n, BitVec.toNat_add, hpad, Nat.sub_add_cancel hle,
    Nat.mod_eq_of_lt fits]

end

/-! ## Sequential layout -/

structure Request where
  size : Nat
  align : Nat
  deriving DecidableEq, Repr

def Request.start (r : Request) (off : Nat) : Nat := roundUp off r.align

def Request.stop (r : Request) (off : Nat) : Nat := r.start off + r.size

/-- Start of every block, laying out the requests from `off` on. -/
def starts (off : Nat) : List Request → List Nat
  | [] => []
  | r :: rs => r.start off :: starts (r.stop off) rs

def stop (off : Nat) : List Request → Nat
  | [] => off
  | r :: rs => stop (r.stop off) rs

theorem stop_append (off : Nat) (rs ss : List Request) :
    stop off (rs ++ ss) = stop (stop off rs) ss := by
  induction rs generalizing off with
  | nil => rfl
  | cons r rs ih => exact ih (r.stop off)

def Aligned (rs : List Request) : Prop := ∀ r ∈ rs, 0 < r.align

theorem Aligned.tail {r : Request} {rs : List Request} (h : Aligned (r :: rs)) : Aligned rs :=
  fun s hs => h s (List.mem_cons_of_mem r hs)

theorem le_stop (off : Nat) {rs : List Request} (h : Aligned rs) : off ≤ stop off rs := by
  induction rs generalizing off with
  | nil => exact Nat.le_refl off
  | cons r rs ih =>
      have hstart : off ≤ r.start off := le_roundUp off (h r (by simp))
      have hrest := ih (r.stop off) h.tail
      unfold Request.stop at hrest
      exact Nat.le_trans hstart (Nat.le_trans (Nat.le_add_right _ _) hrest)

/-! ## Positions -/

@[simp] theorem length_starts (off : Nat) (rs : List Request) : (starts off rs).length = rs.length := by
  induction rs generalizing off with
  | nil => rfl
  | cons r rs ih => rw [starts, List.length_cons, List.length_cons, ih]

/-- A block starts where the blocks in front of it, rounded up, end. -/
theorem starts_getElem? {off k : Nat} {rs : List Request} {r : Request} (hr : rs[k]? = some r) :
    (starts off rs)[k]? = some (r.start (stop off (rs.take k))) := by
  induction rs generalizing off k with
  | nil => cases hr
  | cons q rs ih =>
      cases k with
      | zero =>
          cases hr
          rfl
      | succ k =>
          rw [List.getElem?_cons_succ] at hr
          rw [starts, List.getElem?_cons_succ, ih hr]
          rfl

theorem stop_take_succ {off k : Nat} {rs : List Request} {r : Request} (hr : rs[k]? = some r) :
    stop off (rs.take (k + 1)) = r.stop (stop off (rs.take k)) := by
  rw [List.take_add_one, hr, stop_append]
  rfl

theorem stop_take_le {off j k : Nat} {rs : List Request} (h : Aligned rs) (hjk : j ≤ k) :
    stop off (rs.take j) ≤ stop off (rs.take k) := by
  have hsplit : rs.take k = rs.take j ++ (rs.take k).drop j := by
    conv_lhs => rw [← List.take_append_drop j (rs.take k), List.take_take, Nat.min_eq_left hjk]
  rw [hsplit, stop_append]
  apply le_stop
  intro r hr
  exact h r (List.mem_of_mem_take (List.mem_of_mem_drop hr))

theorem start_add_size_le_stop {off k s : Nat} {rs : List Request} {r : Request} (h : Aligned rs)
    (hr : rs[k]? = some r) (hs : (starts off rs)[k]? = some s) : s + r.size ≤ stop off rs := by
  rw [starts_getElem? hr, Option.some.injEq] at hs
  have hle := @stop_take_le off (k + 1) rs.length rs h (List.getElem?_eq_some_iff.mp hr).1
  rw [stop_take_succ hr, List.take_length] at hle
  rw [← hs]
  exact hle

/-- The blocks are handed out in order. -/
theorem start_add_size_le_start {off j k s t : Nat} {rs : List Request} {r : Request}
    (h : Aligned rs) (hjk : j < k) (hr : rs[j]? = some r) (hs : (starts off rs)[j]? = some s)
    (ht : (starts off rs)[k]? = some t) : s + r.size ≤ t := by
  have hk := (List.getElem?_eq_some_iff.mp ht).1
  rw [length_starts] at hk
  have hq := List.getElem?_eq_getElem hk
  rw [starts_getElem? hr, Option.some.injEq] at hs
  rw [starts_getElem? hq, Option.some.injEq] at ht
  have hle := @stop_take_le off (j + 1) k rs h hjk
  rw [stop_take_succ hr] at hle
  have hround := le_roundUp (stop off (rs.take k)) (h _ (List.getElem_mem hk))
  rw [← hs, ← ht]
  exact Nat.le_trans hle hround

theorem dvd_start {off k s : Nat} {rs : List Request} {r : Request} (hr : rs[k]? = some r)
    (hs : (starts off rs)[k]? = some s) : r.align ∣ s := by
  rw [starts_getElem? hr, Option.some.injEq] at hs
  rw [← hs]
  exact dvd_roundUp _ _

/-! ## Blocks -/

def blocks (off : Nat) (rs : List Request) : List (Nat × Request) := (starts off rs).zip rs

@[simp] theorem blocks_nil (off : Nat) : blocks off [] = [] := rfl

@[simp] theorem blocks_cons (off : Nat) (r : Request) (rs : List Request) :
    blocks off (r :: rs) = (r.start off, r) :: blocks (r.stop off) rs := rfl

theorem le_of_mem_blocks {off : Nat} {rs : List Request} (h : Aligned rs) {b : Nat × Request}
    (hb : b ∈ blocks off rs) : off ≤ b.1 := by
  induction rs generalizing off with
  | nil => cases hb
  | cons r rs ih =>
      have hr : off ≤ r.start off := le_roundUp off (h r (by simp))
      rcases List.mem_cons.mp hb with rfl | hb
      · exact hr
      · have hrest := ih h.tail hb
        unfold Request.stop at hrest
        omega

def Covered (bs : List (Nat × Request)) (a : Nat) : Prop :=
  ∃ b ∈ bs, b.1 ≤ a ∧ a < b.1 + b.2.size

def largest (ns : List Nat) : Nat := ns.foldr max 0

theorem le_largest {ns : List Nat} {n : Nat} (h : n ∈ ns) : n ≤ largest ns := by
  induction ns with
  | nil => cases h
  | cons m ns ih =>
      have hcons : largest (m :: ns) = max m (largest ns) := rfl
      rcases List.mem_cons.mp h with rfl | h
      · omega
      · have := ih h
        omega

theorem largest_le {ns : List Nat} {m : Nat} (h : ∀ n ∈ ns, n ≤ m) : largest ns ≤ m := by
  induction ns with
  | nil => exact Nat.zero_le m
  | cons n ns ih =>
      have hcons : largest (n :: ns) = max n (largest ns) := rfl
      have hn := h n (by simp)
      have hns := ih fun k hk => h k (by simp [hk])
      omega

/-! ## Placement without gaps -/

section
variable {α : Type} (size : α → Nat)

/-- The members of a list one behind the other, with their starts. -/
def place (pos : Nat) : List α → List (Nat × α)
  | [] => []
  | c :: cs => (pos, c) :: place (pos + size c) cs

def totalSize (cs : List α) : Nat := (cs.map size).sum

theorem place_append (pos : Nat) (cs ds : List α) :
    place size pos (cs ++ ds) = place size pos cs ++ place size (pos + totalSize size cs) ds := by
  induction cs generalizing pos with
  | nil => rfl
  | cons c cs ih =>
      rw [List.cons_append, place, place, ih, List.cons_append, totalSize, totalSize, List.map_cons,
        List.sum_cons, Nat.add_assoc]

theorem le_of_mem_place {pos : Nat} {cs : List α} {p : Nat × α} (h : p ∈ place size pos cs) :
    pos ≤ p.1 := by
  induction cs generalizing pos with
  | nil => cases h
  | cons c cs ih =>
      rw [place, List.mem_cons] at h
      cases h with
      | inl heq => rw [heq]
      | inr hmem => exact Nat.le_trans (Nat.le_add_right _ _) (ih hmem)

/-- Nothing overlaps. -/
theorem pairwise_place (pos : Nat) (cs : List α) :
    (place size pos cs).Pairwise fun p q => p.1 + size p.2 ≤ q.1 := by
  induction cs generalizing pos with
  | nil => exact List.Pairwise.nil
  | cons c cs ih =>
      rw [place, List.pairwise_cons]
      exact ⟨fun q hq => le_of_mem_place size hq, ih _⟩

end

end Mandarin.Layout
