import Mandarin.Lib.Layout
import Mandarin.Lib.Memory

/-! # Filling an area of memory

An area of memory starts at a base address and is laid out by a list of requests.
Each update of a list keeps to the block of its request. Then the updates may run
in any order: every one of them leaves its bytes in its own block, and memory
outside the blocks stays as it was.
-/

namespace Mandarin.Memory

open Layout

variable {w : Nat}

/-- Every update rewrites the head of its block of the area. -/
structure Fills (base : BitVec w) (rs : List Request) (us : List (Update w)) : Prop where
  aligned : Aligned rs
  fits : base.toNat + stop 0 rs < 2 ^ w
  length : us.length = rs.length
  region : ∀ (k s : Nat) (u : Update w) (r : Request), us[k]? = some u → rs[k]? = some r →
    (starts 0 rs)[k]? = some s → u.region.start = base + BitVec.ofNat w s ∧ u.region.size ≤ r.size

variable {base : BitVec w} {rs : List Request} {us vs : List (Update w)}

section
variable {α β γ δ : Type} {f : α → Option γ} {g : β → Option δ}

/-- Lists filtered in step: their members come from the same places. -/
theorem filterMap_in_step {l : List α} {l' : List β}
    (h : List.Forall₂ (fun a b => (f a).isSome = (g b).isSome) l l') {n : Nat} {c : γ} {d : δ}
    (hc : (l.filterMap f)[n]? = some c) (hd : (l'.filterMap g)[n]? = some d) :
    ∃ k a b, l[k]? = some a ∧ l'[k]? = some b ∧ f a = some c ∧ g b = some d ∧
      (l'.take k).filterMap g = (l'.filterMap g).take n := by
  induction h generalizing n with
  | nil => cases hc
  | @cons a b l l' hab _ ih =>
      cases hfa : f a with
      | none =>
          have hgb : g b = none := by
            rw [hfa, Option.isSome_none, eq_comm, Option.isSome_eq_false_iff,
              Option.isNone_iff_eq_none] at hab
            exact hab
          rw [List.filterMap_cons_none hfa] at hc
          rw [List.filterMap_cons_none hgb] at hd ⊢
          obtain ⟨k, a', b', ha', hb', hf, hg, htake⟩ := ih hc hd
          refine ⟨k + 1, a', b', ha', hb', hf, hg, ?_⟩
          rw [List.take_succ_cons, List.filterMap_cons_none hgb, htake]
      | some c' =>
          obtain ⟨d', hgb⟩ : ∃ d', g b = some d' := by
            rw [hfa, Option.isSome_some] at hab
            exact Option.isSome_iff_exists.mp hab.symm
          rw [List.filterMap_cons_some hfa] at hc
          rw [List.filterMap_cons_some hgb] at hd ⊢
          cases n with
          | zero =>
              cases hc
              cases hd
              exact ⟨0, a, b, rfl, rfl, hfa, hgb, rfl⟩
          | succ n =>
              obtain ⟨k, a', b', ha', hb', hf, hg, htake⟩ := ih hc hd
              refine ⟨k + 1, a', b', ha', hb', hf, hg, ?_⟩
              rw [List.take_succ_cons, List.filterMap_cons_some hgb, htake, List.take_succ_cons]

theorem length_filterMap_in_step {l : List α} {l' : List β}
    (h : List.Forall₂ (fun a b => (f a).isSome = (g b).isSome) l l') :
    (l.filterMap f).length = (l'.filterMap g).length := by
  rw [List.length_filterMap_eq_countP, List.length_filterMap_eq_countP]
  induction h with
  | nil => rfl
  | cons hab _ ih => rw [List.countP_cons, List.countP_cons, ih, hab]

end

/-- The updates that members of one list make fill the blocks that the members of another
ask for in the same places. -/
theorem Fills.of_filterMap {α β : Type} {l : List α} {l' : List β} {f : α → Option (Update w)}
    {g : β → Option Request} (h : List.Forall₂ (fun a b => (f a).isSome = (g b).isSome) l l')
    (haligned : Aligned (l'.filterMap g)) (hfits : base.toNat + stop 0 (l'.filterMap g) < 2 ^ w)
    (hregion : ∀ k a b u r, l[k]? = some a → l'[k]? = some b → f a = some u → g b = some r →
      u.region.start = base + BitVec.ofNat w (r.start (stop 0 ((l'.take k).filterMap g))) ∧
        u.region.size ≤ r.size) :
    Fills base (l'.filterMap g) (l.filterMap f) where
  aligned := haligned
  fits := hfits
  length := length_filterMap_in_step h
  region := by
    intro n s u r hu hr hs
    rcases filterMap_in_step h hu hr with ⟨k, a, b, ha, hb, hf, hg, htake⟩
    rw [starts_getElem? hr, Option.some.injEq] at hs
    rw [← hs, ← htake]
    exact hregion k a b u r ha hb hf hg

theorem Fills.block (h : Fills base rs us) {k : Nat} {u : Update w} (hu : us[k]? = some u) :
    ∃ r s, rs[k]? = some r ∧ (starts 0 rs)[k]? = some s ∧
      u.region.start.toNat = base.toNat + s ∧ u.region.size ≤ r.size ∧ s + r.size ≤ stop 0 rs := by
  have hk := (List.getElem?_eq_some_iff.mp hu).1
  rw [h.length] at hk
  have hr := List.getElem?_eq_getElem hk
  have hs := @starts_getElem? 0 k rs _ hr
  have hend := start_add_size_le_stop h.aligned hr hs
  have hfits := h.fits
  rcases h.region k _ u _ hu hr hs with ⟨hstart, hsize⟩
  refine ⟨_, _, hr, hs, ?_, hsize, hend⟩
  rw [hstart, BitVec.toNat_add, BitVec.toNat_ofNat, Nat.add_mod_mod, Nat.mod_eq_of_lt (by omega)]

theorem Fills.bounds (h : Fills base rs us) {u : Update w} (hu : u ∈ us) :
    base.toNat ≤ u.region.start.toNat ∧
      u.region.start.toNat + u.region.size ≤ base.toNat + stop 0 rs := by
  rcases List.getElem?_of_mem hu with ⟨k, hk⟩
  rcases h.block hk with ⟨r, s, _, _, hstart, hsize, hend⟩
  omega

theorem Fills.not_contains (h : Fills base rs us) {a : BitVec w}
    (ha : a.toNat < base.toNat ∨ base.toNat + stop 0 rs ≤ a.toNat) {u : Update w} (hu : u ∈ us) :
    ¬ u.region.Contains a := by
  have hfits := h.fits
  have hbounds := h.bounds hu
  rw [Region.contains_iff (by omega)]
  omega

theorem Fills.apart (h : Fills base rs us) : us.Pairwise fun u v => u.region.Apart v.region := by
  rw [List.pairwise_iff_getElem]
  intro j k hj hk hjk
  have hfits := h.fits
  rcases h.block (List.getElem?_eq_getElem hj) with ⟨r, s, hr, hs, hstart, hsize, _⟩
  rcases h.block (List.getElem?_eq_getElem hk) with ⟨q, t, _, ht, hstart', hsize', hend⟩
  have hord := start_add_size_le_start h.aligned hjk hr hs ht
  apply Region.apart_of_le
  · omega
  · omega

theorem Fills.frame (h : Fills base rs us) (hvs : vs.Perm us) (m : Mem w) {a : BitVec w}
    (ha : a.toNat < base.toNat ∨ base.toNat + stop 0 rs ≤ a.toNat) : runAll vs m a = m a :=
  runAll_frame m fun _ hv => h.not_contains ha (hvs.mem_iff.mp hv)

/-- Every update leaves its bytes behind, whatever the order. -/
theorem Fills.bytes (h : Fills base rs us) (hvs : vs.Perm us) (m : Mem w) {u : Update w}
    (hu : u ∈ us) (hreads : u.ReadsOutside us) {i : Nat} (hi : i < u.region.size) :
    runAll vs m (u.region.start + BitVec.ofNat w i) = u.data m i := by
  have hfits := h.fits
  have hbounds := h.bounds hu
  have hapart : vs.Pairwise fun u v => u.region.Apart v.region :=
    (hvs.pairwise_iff Region.Apart.symm).mpr h.apart
  have hreads' : u.ReadsOutside vs := fun m m' hsame =>
    hreads m m' fun a ha => hsame a fun v hv => ha v (hvs.mem_iff.mp hv)
  exact runAll_of_mem m (hvs.mem_iff.mpr hu) hapart hreads' hi (by omega)

end Mandarin.Memory
