import Mandarin.CallConv.Arguments
import Mathlib.Data.List.Flatten
import Mathlib.Data.List.SplitLengths

/-! # What `ParseFunctionArgs` counts

On arguments numbered 0, 1, 2, ... the counts are the sizes of the original
arguments. In general the running counter advances by one per group instead of
taking the argument's index, so it lags behind an index list that skips values.
For a list of nondecreasing indices the cut points have a closed form: value `i`
is counted into the group of its predecessor exactly when `i - index i` exceeds
zero and every earlier `j - index j`.
-/

namespace Mandarin.CallConv

/-! ## The groups of a list -/

/-- The argument list cut by its counts. -/
def argGroups (args : List ArgT) : List (List ArgT) :=
  ((parseFunctionArgs args).getD []).splitLengths args

theorem foldlM_parseStep_counts {args : List ArgT} {s t : Word × List Nat}
    (h : args.foldlM parseStep s = some t) (hpos : ∀ n ∈ s.2, 0 < n) :
    t.2.sum = s.2.sum + args.length ∧ ∀ n ∈ t.2, 0 < n := by
  induction args generalizing s with
  | nil =>
      cases h
      exact ⟨rfl, hpos⟩
  | cons a args ih =>
      obtain ⟨c, out⟩ := s
      simp only [List.foldlM_cons, parseStep, bind, Option.bind] at h
      by_cases hc : c = a.origArgIndex
      · rw [if_pos hc] at h
        cases out with
        | nil => simp at h
        | cons n out =>
            obtain ⟨hsum, hall⟩ := ih h (by
              intro m hm
              rcases List.mem_cons.mp hm with rfl | hm
              · exact Nat.succ_pos n
              · exact hpos m (by simp [hm]))
            refine ⟨?_, hall⟩
            simp only [List.sum_cons, List.length_cons] at hsum ⊢
            omega
      · rw [if_neg hc] at h
        obtain ⟨hsum, hall⟩ := ih h (by
          intro m hm
          rcases List.mem_cons.mp hm with rfl | hm
          · exact Nat.one_pos
          · exact hpos m hm)
        refine ⟨?_, hall⟩
        simp only [List.sum_cons, List.length_cons] at hsum ⊢
        omega

theorem argGroups_spec {args : List ArgT} {counts : List Nat}
    (h : parseFunctionArgs args = some counts) :
    counts = (argGroups args).map List.length ∧ args = (argGroups args).flatten ∧
      ∀ g ∈ argGroups args, g ≠ [] := by
  unfold parseFunctionArgs at h
  obtain ⟨t, hrun, rfl⟩ := Option.map_eq_some_iff.mp h
  obtain ⟨hsum, hpos⟩ := foldlM_parseStep_counts hrun (by simp)
  simp only [List.sum_nil, Nat.zero_add] at hsum
  have hgroups : argGroups args = t.2.reverse.splitLengths args := by
    unfold argGroups parseFunctionArgs
    rw [h]
    rfl
  have hlens : (argGroups args).map List.length = t.2.reverse := by
    rw [hgroups]
    exact List.map_splitLengths_length _ _ (by rw [List.sum_reverse, hsum])
  refine ⟨hlens.symm, ?_, ?_⟩
  · rw [hgroups]
    exact (List.flatten_splitLengths _ _ (by rw [List.sum_reverse, hsum])).symm
  · rintro g hg rfl
    have hmem : 0 ∈ t.2.reverse := by
      rw [← hlens]
      exact List.mem_map.mpr ⟨[], hg, rfl⟩
    exact absurd (hpos 0 (List.mem_reverse.mp hmem)) (Nat.lt_irrefl 0)

theorem argGroups_eq {args : List ArgT} {gs : List (List ArgT)}
    (h : parseFunctionArgs args = some (gs.map List.length)) (hflat : args = gs.flatten) :
    argGroups args = gs := by
  unfold argGroups
  rw [h, Option.getD_some, hflat]
  clear h hflat
  induction gs with
  | nil => rfl
  | cons g gs ih =>
      rw [List.map_cons, List.splitLengths_cons, List.flatten_cons, List.take_left' rfl,
        List.drop_left' rfl, ih]

/-! ## Consecutively numbered arguments -/

structure Part where
  VT : MVT
  flags : ArgFlagsTy
  deriving DecidableEq, Repr

def Part.arg (i : Nat) (p : Part) : ArgT := ⟨p.VT, p.flags, BitVec.ofNat 32 i⟩

/-- `i32` or `f32`. -/
structure ScalarVT where
  VT : MVT
  scalar : VT.isScalar = true

def ScalarVT.part (t : ScalarVT) : Part := ⟨t.VT, ⟨false, 0, 0⟩⟩

/-- An aggregate of `size` bytes, passed by value; its alignment is a power of two. -/
def Part.byVal (VT : MVT) (size : Word) (logAlign : Fin 32) : Part :=
  ⟨VT, ⟨true, size, BitVec.ofNat 32 (2 ^ logAlign.val)⟩⟩

theorem Part.byVal_align (VT : MVT) (size : Word) (logAlign : Fin 32) :
    (Part.byVal VT size logAlign).flags.byValAlign.toNat = 2 ^ logAlign.val := by
  show (BitVec.ofNat 32 (2 ^ logAlign.val)).toNat = _
  rw [BitVec.toNat_ofNat]
  exact Nat.mod_eq_of_lt (Nat.pow_lt_pow_right (by decide) logAlign.isLt)

def numberFrom (i : Nat) : List (List Part) → List (List ArgT)
  | [] => []
  | g :: gs => g.map (Part.arg i) :: numberFrom (i + 1) gs

/-- The original arguments with their parts numbered 0, 1, 2, ... -/
def numbered (gs : List (List Part)) : List (List ArgT) := numberFrom 0 gs

theorem numberFrom_getElem? (i k : Nat) (gs : List (List Part)) :
    (numberFrom i gs)[k]? = gs[k]?.map fun g => g.map (Part.arg (i + k)) := by
  induction gs generalizing i k with
  | nil => simp [numberFrom]
  | cons g gs ih =>
      cases k with
      | zero => simp [numberFrom]
      | succ k =>
          simp only [numberFrom, List.getElem?_cons_succ, ih]
          rw [show i + 1 + k = i + (k + 1) by omega]

theorem foldlM_parseStep_same (i n : Nat) (out : List Nat) (g : List Part) :
    (g.map (Part.arg i)).foldlM parseStep (BitVec.ofNat 32 i, n :: out) =
      some (BitVec.ofNat 32 i, (n + g.length) :: out) := by
  induction g generalizing n with
  | nil => rfl
  | cons p g ih =>
      have hstep : parseStep (BitVec.ofNat 32 i, n :: out) (p.arg i) =
          some (BitVec.ofNat 32 i, (n + 1) :: out) := by
        simp [parseStep, Part.arg]
      simp only [List.map_cons, List.foldlM_cons, hstep, bind, Option.bind, ih, List.length_cons]
      rw [show n + 1 + g.length = n + (g.length + 1) by omega]

theorem foldlM_parseStep_numberFrom (i : Nat) (out : List Nat) (gs : List (List Part))
    (hne : ∀ g ∈ gs, g ≠ []) :
    (numberFrom i gs).flatten.foldlM parseStep (BitVec.ofNat 32 i - 1, out) =
      some (BitVec.ofNat 32 (i + gs.length) - 1, (gs.map List.length).reverse ++ out) := by
  induction gs generalizing i out with
  | nil => rfl
  | cons g gs ih =>
      obtain ⟨p, g, rfl⟩ := List.exists_cons_of_ne_nil (hne g (by simp))
      have hnew : BitVec.ofNat 32 i - 1 ≠ BitVec.ofNat 32 i := by bv_omega
      have hstep : parseStep (BitVec.ofNat 32 i - 1, out) (p.arg i) =
          some (BitVec.ofNat 32 i, 1 :: out) := by
        rw [parseStep, Part.arg, if_neg hnew, BitVec.sub_add_cancel]
      have hnext : BitVec.ofNat 32 i = BitVec.ofNat 32 (i + 1) - 1 := by
        rw [BitVec.ofNat_add]
        exact (BitVec.add_sub_cancel _ _).symm
      simp only [numberFrom, List.flatten_cons, List.foldlM_append, List.map_cons,
        List.foldlM_cons, hstep, bind, Option.bind, foldlM_parseStep_same]
      rw [hnext, ih (i + 1) _ fun g hg => hne g (by simp [hg])]
      simp only [List.length_cons, List.reverse_cons, List.append_assoc, List.singleton_append]
      rw [show i + 1 + gs.length = i + (gs.length + 1) by omega,
        show 1 + g.length = g.length + 1 by omega]

theorem parseFunctionArgs_numbered (gs : List (List Part)) (hne : ∀ g ∈ gs, g ≠ []) :
    parseFunctionArgs (numbered gs).flatten = some ((numbered gs).map List.length) := by
  have hstart : (~~~0 : Word) = BitVec.ofNat 32 0 - 1 := by decide
  have hlen : ∀ i, (numberFrom i gs).map List.length = gs.map List.length := by
    intro i
    induction gs generalizing i with
    | nil => rfl
    | cons g gs ih =>
        simp only [numberFrom, List.map_cons, List.length_map]
        rw [ih fun g hg => hne g (by simp [hg])]
  rw [parseFunctionArgs, hstart, numbered, foldlM_parseStep_numberFrom 0 [] gs hne]
  simp [hlen]

/-! ## Nondecreasing indices -/

def argIndex (args : List ArgT) (i : Nat) : Nat :=
  (args[i]?.map fun a => a.origArgIndex.toNat).getD 0

/-- Value `i` continues the group of its predecessor. -/
def Joined (x : Nat → Nat) (i : Nat) : Prop := 0 < i - x i ∧ ∀ j < i, j - x j < i - x i

/-- How far the counter is behind the position in front of value `i`. -/
def lag (x : Nat → Nat) : Nat → Nat
  | 0 => 0
  | i + 1 => max (lag x i) (i - x i)

theorem joined_iff_lag (x : Nat → Nat) (i : Nat) : Joined x i ↔ lag x i < i - x i := by
  have hlag : ∀ i m, lag x i < m ↔ 0 < m ∧ ∀ j < i, j - x j < m := by
    intro i m
    induction i with
    | zero => simp [lag]
    | succ i ih =>
        simp only [lag, Nat.max_lt, ih, Nat.lt_succ_iff_lt_or_eq]
        constructor
        · rintro ⟨⟨hm, hj⟩, hi⟩
          refine ⟨hm, ?_⟩
          rintro j (hlt | rfl)
          · exact hj j hlt
          · exact hi
        · rintro ⟨hm, hj⟩
          exact ⟨⟨hm, fun j hlt => hj j (Or.inl hlt)⟩, hj i (Or.inr rfl)⟩
  exact (hlag i _).symm

instance (x : Nat → Nat) (i : Nat) : Decidable (Joined x i) :=
  decidable_of_iff _ (joined_iff_lag x i).symm

theorem Joined.index_eq {x : Nat → Nat} {i : Nat} (h : Joined x (i + 1)) (hmono : x i ≤ x (i + 1)) :
    x (i + 1) = x i := by
  have hprev := h.2 i (Nat.lt_succ_self i)
  omega

/-- The groups start at the values that are not joined; `p` is the position of
the first one. -/
def Cut {α : Type} (joined : Nat → Prop) : Nat → List (List α) → Prop
  | _, [] => True
  | p, g :: gs => g ≠ [] ∧ ¬ joined p ∧ (∀ i, p < i → i < p + g.length → joined i) ∧
      Cut joined (p + g.length) gs

/-- State of the loop in front of value `p`, with `groups` groups counted. -/
structure ParseInv (x : Nat → Nat) (p groups : Nat) (counter : Word) : Prop where
  lags : groups + lag x p = p
  counts : counter.toNat + 1 = groups
  behind : groups ≤ x (p - 1) + 1

section
variable {x : Nat → Nat} {p groups : Nat} {counter : Word} (h : ParseInv x p groups counter)
  (hmono : x (p - 1) ≤ x p)
include h hmono

theorem ParseInv.joined_iff : Joined x p ↔ counter.toNat = x p := by
  rcases h with ⟨hlags, hcounts, hbehind⟩
  rw [joined_iff_lag]
  omega

theorem ParseInv.same (hj : Joined x p) : ParseInv x (p + 1) groups counter := by
  have hlt := (joined_iff_lag x p).mp hj
  rcases h with ⟨hlags, hcounts, hbehind⟩
  refine ⟨?_, hcounts, ?_⟩
  · rw [lag]
    omega
  · rw [Nat.add_sub_cancel]
    omega

theorem ParseInv.next (hj : ¬ Joined x p) (hx : x p < 2 ^ 32) :
    ParseInv x (p + 1) (groups + 1) (counter + 1) := by
  have hge := mt (joined_iff_lag x p).mpr hj
  have hne := mt (h.joined_iff hmono).mpr hj
  rcases h with ⟨hlags, hcounts, hbehind⟩
  have hcount : (counter + 1).toNat = counter.toNat + 1 := by
    rw [BitVec.toNat_add]
    exact Nat.mod_eq_of_lt (by simp; omega)
  refine ⟨?_, by omega, ?_⟩
  · rw [lag]
    omega
  · rw [Nat.add_sub_cancel]
    omega

end

theorem foldlM_parseStep {args pre suf : List ArgT} (hargs : args = pre ++ suf)
    (hmono : ∀ i, i + 1 < args.length → argIndex args i ≤ argIndex args (i + 1))
    {counter : Word} {n : Nat} {out : List Nat} (hpos : 0 < pre.length)
    (hinv : ParseInv (argIndex args) pre.length (out.length + 1) counter) :
    ∃ c m gs, suf.foldlM parseStep (counter, n :: out) =
        some (c, (gs.map List.length).reverse ++ (n + m) :: out) ∧
      suf.drop m = gs.flatten ∧ m ≤ suf.length ∧
      (∀ i, pre.length ≤ i → i < pre.length + m → Joined (argIndex args) i) ∧
      Cut (Joined (argIndex args)) (pre.length + m) gs := by
  induction suf generalizing pre counter n out with
  | nil => exact ⟨counter, 0, [], rfl, rfl, Nat.le_refl 0, fun i _ _ => by omega, trivial⟩
  | cons a suf ih =>
      have hargs' : args = (pre ++ [a]) ++ suf := by rw [hargs]; simp
      have hlen : (pre ++ [a]).length = pre.length + 1 := List.length_append
      have hx : argIndex args pre.length = a.origArgIndex.toNat := by
        simp [argIndex, hargs]
      have hprev : argIndex args (pre.length - 1) ≤ argIndex args pre.length := by
        have hm := hmono (pre.length - 1) (by rw [hargs]; simp; omega)
        rwa [Nat.sub_add_cancel hpos] at hm
      have hjoin := hinv.joined_iff hprev
      rw [hx, BitVec.toNat_inj] at hjoin
      by_cases heq : counter = a.origArgIndex
      · have hj := hjoin.mpr heq
        have hsame := hinv.same hprev hj
        rw [← hlen] at hsame
        obtain ⟨c, m, gs, hrun, hdrop, hm, hall, hcut⟩ := ih (n := n + 1) hargs' (by simp) hsame
        rw [hlen] at hall hcut
        refine ⟨c, m + 1, gs, ?_, by simpa using hdrop, by simpa using hm, ?_, ?_⟩
        · have hparse : parseStep (counter, n :: out) a = some (counter, (n + 1) :: out) := by
            simp [parseStep, heq]
          simp only [List.foldlM_cons, hparse, bind, Option.bind, hrun]
          rw [show n + 1 + m = n + (m + 1) by omega]
        · intro i hlo hhi
          rcases Nat.eq_or_lt_of_le hlo with rfl | hlo
          · exact hj
          · exact hall i (by omega) (by omega)
        · rw [show pre.length + (m + 1) = pre.length + 1 + m by omega]
          exact hcut
      · have hj := mt hjoin.mp heq
        have hnext : ParseInv (argIndex args) (pre ++ [a]).length ((n :: out).length + 1)
            (counter + 1) := by
          rw [hlen]
          exact hinv.next hprev hj (by rw [hx]; exact a.origArgIndex.isLt)
        obtain ⟨c, m, gs, hrun, hdrop, hm, hall, hcut⟩ := ih (n := 1) hargs' (by simp) hnext
        rw [hlen] at hall hcut
        refine ⟨c, 0, (a :: suf.take m) :: gs, ?_, ?_, Nat.zero_le _, fun i _ _ => by omega, ?_⟩
        · have hparse : parseStep (counter, n :: out) a = some (counter + 1, 1 :: n :: out) := by
            simp [parseStep, heq]
          simp only [List.foldlM_cons, hparse, bind, Option.bind, hrun]
          simp [hm, Nat.add_comm]
        · simp [← hdrop]
        · have hglen : (a :: suf.take m).length = 1 + m := by simp [hm]; omega
          simp only [Nat.add_zero, Cut, hglen]
          refine ⟨by simp, hj, fun i hlo hhi => hall i (by omega) (by omega), ?_⟩
          rw [show pre.length + (1 + m) = pre.length + 1 + m by omega]
          exact hcut

/-- On nondecreasing indices `ParseFunctionArgs` cuts the list at the values that
are not joined. -/
theorem parseFunctionArgs_cut {args : List ArgT}
    (hmono : ∀ i, i + 1 < args.length → argIndex args i ≤ argIndex args (i + 1))
    (hfirst : ∀ a, args.head? = some a → a.origArgIndex ≠ ~~~0) :
    ∃ gs, parseFunctionArgs args = some (gs.map List.length) ∧ args = gs.flatten ∧
      Cut (Joined (argIndex args)) 0 gs := by
  cases args with
  | nil => exact ⟨[], rfl, rfl, trivial⟩
  | cons a suf =>
      have hne : (~~~0 : Word) ≠ a.origArgIndex := fun h => hfirst a rfl h.symm
      have hj : ¬ Joined (argIndex (a :: suf)) 0 := fun h => by simpa using h.1
      have hinv : ParseInv (argIndex (a :: suf)) [a].length (([] : List Nat).length + 1) 0 :=
        ⟨by simp [lag], by simp, by simp⟩
      obtain ⟨c, m, gs, hrun, hdrop, hm, hall, hcut⟩ :=
        foldlM_parseStep (n := 1) (show a :: suf = [a] ++ suf from rfl) hmono (by simp) hinv
      simp only [List.length_singleton] at hall hcut
      refine ⟨(a :: suf.take m) :: gs, ?_, by simp [← hdrop], ?_⟩
      · have hparse : parseStep (~~~0, []) a = some (0, [1]) := by
          rw [parseStep, if_neg hne]
          rfl
        simp only [parseFunctionArgs, List.foldlM_cons, hparse, bind, Option.bind, hrun]
        simp [hm, Nat.add_comm]
      · have hglen : (a :: suf.take m).length = 1 + m := by simp [hm]; omega
        simp only [Cut, hglen, Nat.zero_add]
        exact ⟨by simp, hj, fun i hlo hhi => hall i (by omega) (by omega), hcut⟩

end Mandarin.CallConv
