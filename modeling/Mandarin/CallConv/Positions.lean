import Mandarin.CallConv.StackArea

/-! # The slot of a position

With nondecreasing indices the groups are runs of joined positions, so the slot
of a value follows from its position alone: the type comes from the first
position of its run, and the run is passed in registers when the register
candidates up to its end number at most `nbRegs`. A position without a slot ends
the list.
-/

namespace Mandarin.CallConv

/-- What is known of an index list: it never decreases, it does not start with
the initial value of the counter, and an aggregate has its index for itself. -/
structure WellNumbered (args : List ArgT) : Prop where
  mono : ∀ i, i + 1 < args.length → argIndex args i ≤ argIndex args (i + 1)
  first : ∀ a, args.head? = some a → a.origArgIndex ≠ ~~~0
  alone : ∀ (i : Nat) (a b : ArgT), args[i]? = some a → args[i + 1]? = some b →
    a.origArgIndex = b.origArgIndex → a.flags.isByVal = false ∧ b.flags.isByVal = false

theorem WellNumbered.joined_alone {args : List ArgT} (h : WellNumbered args) {i : Nat} {a b : ArgT}
    (ha : args[i]? = some a) (hb : args[i + 1]? = some b) (hj : Joined (argIndex args) (i + 1)) :
    a.flags.isByVal = false ∧ b.flags.isByVal = false := by
  have hlt := (List.getElem?_eq_some_iff.mp hb).1
  have heq := hj.index_eq (h.mono i hlt)
  have hindex : b.origArgIndex = a.origArgIndex := by
    apply BitVec.eq_of_toNat_eq
    simpa [argIndex, ha, hb] using heq
  exact h.alone i a b ha hb hindex.symm

/-! ## Slots by position -/

def candidatesUpTo (args : List ArgT) (e : Nat) : Nat :=
  (args.take e).countP fun a => !a.flags.isByVal

/-- The run of value `k` ends while there are registers left. -/
def InRegs (args : List ArgT) (k : Nat) : Prop :=
  ∃ e ≤ args.length, k < e ∧ (e = args.length ∨ ¬ Joined (argIndex args) e) ∧
    candidatesUpTo args e ≤ nbRegs

instance (args : List ArgT) (k : Nat) : Decidable (InRegs args k) :=
  inferInstanceAs (Decidable (∃ e, e ≤ args.length ∧ _))

def headPos (args : List ArgT) : Nat → Nat
  | 0 => 0
  | k + 1 => if Joined (argIndex args) (k + 1) then headPos args k else k + 1

def headVT (args : List ArgT) (k : Nat) : MVT := (args[headPos args k]?.map ArgT.VT).getD .i32

def slotAt (args : List ArgT) (k : Nat) : Option Slot := do
  let a ← args[k]?
  if a.flags.isByVal then some (.byVal a.VT a.flags)
  else if InRegs args k then some (.reg (headVT args k))
  else if (headVT args k).isScalar then some (.stack (headVT args k))
  else none

/-- The slots of the next `m` positions, up to the first one that has none. -/
def slotsFrom (f : Nat → Option Slot) : Nat → Nat → List Slot
  | 0, _ => []
  | m + 1, k =>
      match f k with
      | none => []
      | some x => x :: slotsFrom f m (k + 1)

theorem slotsFrom_replicate {f : Nat → Option Slot} {x : Slot} (n m k : Nat)
    (h : ∀ i, k ≤ i → i < k + n → f i = some x) :
    slotsFrom f (n + m) k = List.replicate n x ++ slotsFrom f m (k + n) := by
  induction n generalizing k with
  | zero => simp
  | succ n ih =>
      have hk : f k = some x := h k (Nat.le_refl k) (by omega)
      have hrest := ih (k + 1) fun i hlo hhi => h i (by omega) (by omega)
      rw [show n + 1 + m = (n + m) + 1 by omega, slotsFrom, hk]
      show x :: slotsFrom f (n + m) (k + 1) = _
      rw [hrest, List.replicate_succ, List.cons_append, show k + 1 + n = k + (n + 1) by omega]

theorem slotsFrom_getElem? {f : Nat → Option Slot} {m k : Nat}
    (h : ∀ i, k ≤ i → i < k + m → f i ≠ none) {i : Nat} (hi : i < m) :
    (slotsFrom f m k)[i]? = f (k + i) := by
  induction m generalizing k i with
  | zero => omega
  | succ m ih =>
      cases hk : f k with
      | none => exact absurd hk (h k (Nat.le_refl k) (by omega))
      | some x =>
          have hcons : slotsFrom f (m + 1) k = x :: slotsFrom f m (k + 1) := by
            rw [slotsFrom, hk]
          rw [hcons]
          cases i with
          | zero => rw [List.getElem?_cons_zero, Nat.add_zero, hk]
          | succ i =>
              rw [List.getElem?_cons_succ, ih (fun j hlo hhi => h j (by omega) (by omega)) (by omega),
                show k + 1 + i = k + (i + 1) by omega]

theorem length_slotsFrom {f : Nat → Option Slot} {m k : Nat}
    (h : ∀ i, k ≤ i → i < k + m → f i ≠ none) : (slotsFrom f m k).length = m := by
  induction m generalizing k with
  | zero => rfl
  | succ m ih =>
      cases hk : f k with
      | none => exact absurd hk (h k (Nat.le_refl k) (by omega))
      | some x =>
          rw [slotsFrom, hk]
          show (slotsFrom f m (k + 1)).length + 1 = m + 1
          rw [ih fun j hlo hhi => h j (by omega) (by omega)]

/-- Two slot lists agree exactly when the positions agree up to the first one
without a slot. -/
theorem slotsFrom_eq_iff (f g : Nat → Option Slot) (m k : Nat) :
    slotsFrom f m k = slotsFrom g m k ↔
      ∀ i, k ≤ i → i < k + m → (∀ j, k ≤ j → j < i → f j ≠ none) → f i = g i := by
  induction m generalizing k with
  | zero => exact iff_of_true rfl fun i hlo hhi => by omega
  | succ m ih =>
      have hsplit : (∀ i, k ≤ i → i < k + (m + 1) → (∀ j, k ≤ j → j < i → f j ≠ none) → f i = g i) ↔
          f k = g k ∧ (f k ≠ none →
            ∀ i, k + 1 ≤ i → i < k + 1 + m → (∀ j, k + 1 ≤ j → j < i → f j ≠ none) → f i = g i) := by
        constructor
        · intro h
          refine ⟨h k (Nat.le_refl k) (by omega) (fun j hlo hhi => by omega), ?_⟩
          intro hk i hlo hhi hall
          apply h i (by omega) (by omega)
          intro j hj hji
          rcases Nat.eq_or_lt_of_le hj with rfl | hj
          · exact hk
          · exact hall j hj hji
        · rintro ⟨hk, hrest⟩ i hlo hhi hall
          rcases Nat.eq_or_lt_of_le hlo with rfl | hlo
          · exact hk
          · exact hrest (hall k (Nat.le_refl k) hlo) i hlo (by omega)
              fun j hj hji => hall j (by omega) hji
      rw [hsplit, ← ih (k + 1), slotsFrom, slotsFrom]
      cases hf : f k with
      | none =>
          cases hg : g k with
          | none => simp
          | some y => simp
      | some x =>
          cases hg : g k with
          | none => simp
          | some y => simp

/-! ## The groups, position by position -/

theorem candidatesUpTo_le {args : List ArgT} {d e : Nat} (h : d ≤ e) :
    candidatesUpTo args d ≤ candidatesUpTo args e :=
  (List.take_sublist_take_left h).countP_le

theorem headPos_of_run {args : List ArgT} {p k : Nat} (hp : ¬ Joined (argIndex args) p)
    (hpk : p ≤ k) (hrun : ∀ i, p < i → i ≤ k → Joined (argIndex args) i) : headPos args k = p := by
  induction k with
  | zero =>
      rw [headPos]
      omega
  | succ k ih =>
      rcases Nat.eq_or_lt_of_le hpk with rfl | hlt
      · rw [headPos, if_neg hp]
      · rw [headPos, if_pos (hrun (k + 1) hlt (Nat.le_refl _))]
        exact ih (by omega) fun i hlo hhi => hrun i hlo (by omega)

theorem inRegs_of_run {args : List ArgT} {p q k : Nat} (hpk : p ≤ k) (hkq : k < q)
    (hq : q ≤ args.length) (hrun : ∀ i, p < i → i < q → Joined (argIndex args) i)
    (hend : q = args.length ∨ ¬ Joined (argIndex args) q) :
    InRegs args k ↔ candidatesUpTo args q ≤ nbRegs := by
  constructor
  · rintro ⟨e, he, hke, hstop, hcand⟩
    have hge : q ≤ e := by
      by_contra hlt
      rcases hstop with h | h
      · omega
      · exact h (hrun e (by omega) (by omega))
    exact Nat.le_trans (candidatesUpTo_le hge) hcand
  · intro hcand
    exact ⟨q, hq, hkq, hend, hcand⟩

theorem Cut.end_of_group {args : List ArgT} {joined : Nat → Prop} {q : Nat}
    {gs : List (List ArgT)} (hcut : Cut joined q gs) (hq : q + gs.flatten.length = args.length) :
    q = args.length ∨ ¬ joined q := by
  cases gs with
  | nil => exact Or.inl (by simpa using hq)
  | cons g gs => exact Or.inr hcut.2.1

theorem groupOk_of_cut {args pre : List ArgT} {gs : List (List ArgT)} (h : WellNumbered args)
    (hargs : args = pre ++ gs.flatten) (hcut : Cut (Joined (argIndex args)) pre.length gs) :
    ∀ g ∈ gs, GroupOk g ∧ ∀ b ∈ g.tail, b.flags.isByVal = false := by
  induction gs generalizing pre with
  | nil => simp
  | cons g gs ih =>
      obtain ⟨hne, _, hrun, hcut'⟩ := hcut
      obtain ⟨a, rest, rfl⟩ := List.exists_cons_of_ne_nil hne
      have hat : ∀ j, j < (a :: rest).length → args[pre.length + j]? = (a :: rest)[j]? := by
        intro j hj
        rw [hargs, List.getElem?_append_right (Nat.le_add_right _ _), Nat.add_sub_cancel_left,
          List.flatten_cons, List.getElem?_append_left hj]
      have hpair : ∀ j b c, (a :: rest)[j]? = some b → (a :: rest)[j + 1]? = some c →
          b.flags.isByVal = false ∧ c.flags.isByVal = false := by
        intro j b c hb hc
        have hlt := (List.getElem?_eq_some_iff.mp hc).1
        apply @WellNumbered.joined_alone args h (pre.length + j)
        · rw [hat j (by omega), hb]
        · rw [Nat.add_assoc, hat (j + 1) hlt, hc]
        · exact hrun _ (by omega) (by omega)
      intro g hg
      rcases List.mem_cons.mp hg with rfl | hg
      · refine ⟨⟨a, rest, rfl, ?_⟩, ?_⟩
        · intro hb
          cases rest with
          | nil => rfl
          | cons c rest =>
              have hab := (hpair 0 a c rfl rfl).1
              rw [hab] at hb
              cases hb
        · intro b hb
          obtain ⟨j, hj⟩ := List.getElem?_of_mem hb
          have hprev : j < (a :: rest).length := by
            have hlt := (List.getElem?_eq_some_iff.mp hj).1
            rw [List.tail_cons] at hlt
            simp only [List.length_cons]
            omega
          exact (hpair j _ b (List.getElem?_eq_getElem hprev) hj).2
      · exact @ih (pre ++ (a :: rest)) (by rw [hargs]; simp)
          (by rw [List.length_append]; exact hcut') g hg

/-! ## One group -/

structure GroupAt (args pre : List ArgT) (a : ArgT) (rest : List ArgT) : Prop where
  split : ∃ post, args = (pre ++ a :: rest) ++ post
  alone : a.flags.isByVal = true → rest = []
  tail : ∀ b ∈ rest, b.flags.isByVal = false
  head : ¬ Joined (argIndex args) pre.length
  run : ∀ i, pre.length < i → i < pre.length + (rest.length + 1) → Joined (argIndex args) i
  stop : pre.length + (rest.length + 1) = args.length ∨
    ¬ Joined (argIndex args) (pre.length + (rest.length + 1))

section
variable {args pre rest : List ArgT} {a : ArgT} (h : GroupAt args pre a rest)
include h

theorem GroupAt.length_le : pre.length + (rest.length + 1) ≤ args.length := by
  rcases h.split with ⟨post, hargs⟩
  rw [hargs]
  simp only [List.length_append, List.length_cons]
  omega

theorem GroupAt.getElem? {k : Nat} (hlo : pre.length ≤ k) (hhi : k < pre.length + (rest.length + 1)) :
    ∃ b, args[k]? = some b ∧ (b = a ∨ b ∈ rest) := by
  rcases h.split with ⟨post, hargs⟩
  have hk : k - pre.length < (a :: rest).length := by
    rw [List.length_cons]
    omega
  rw [hargs, List.append_assoc, List.getElem?_append_right hlo, List.getElem?_append_left hk,
    List.getElem?_eq_getElem hk]
  exact ⟨_, rfl, List.mem_cons.mp (List.getElem_mem hk)⟩

theorem GroupAt.headVT_eq {k : Nat} (hlo : pre.length ≤ k)
    (hhi : k < pre.length + (rest.length + 1)) : headVT args k = a.VT := by
  rcases h.split with ⟨post, hargs⟩
  unfold headVT
  rw [headPos_of_run h.head hlo fun i hi hik => h.run i hi (by omega), hargs]
  simp

theorem GroupAt.candidatesUpTo_eq : candidatesUpTo args (pre.length + (rest.length + 1)) =
    candidatesUpTo args pre.length + candidates a (rest.length + 1) := by
  rcases h.split with ⟨post, hargs⟩
  have htake : args.take (pre.length + (rest.length + 1)) = pre ++ (a :: rest) := by
    rw [hargs]
    exact List.take_left' (by rw [List.length_append, List.length_cons])
  have htake' : args.take pre.length = pre := by
    rw [hargs, List.append_assoc]
    exact List.take_left' rfl
  unfold candidatesUpTo candidates
  rw [htake, htake', List.countP_append]
  by_cases hb : a.flags.isByVal = true
  · rw [h.alone hb, if_pos hb]
    simp [hb]
  · rw [if_neg hb]
    have hall : (a :: rest).countP (fun a => !a.flags.isByVal) = (a :: rest).length := by
      rw [List.countP_eq_length]
      intro b hmem
      rcases List.mem_cons.mp hmem with rfl | hmem
      · simpa using hb
      · simp [h.tail b hmem]
    rw [hall, List.length_cons]

/-- All values of a group have the slot that its head and the candidates seen with
it decide. -/
theorem GroupAt.slotAt_eq {k : Nat} (hlo : pre.length ≤ k)
    (hhi : k < pre.length + (rest.length + 1)) : slotAt args k =
      if a.flags.isByVal then some (.byVal a.VT a.flags)
      else if candidatesUpTo args pre.length + candidates a (rest.length + 1) ≤ nbRegs then
        some (.reg a.VT)
      else if a.VT.isScalar then some (.stack a.VT) else none := by
  have hregs := inRegs_of_run hlo hhi h.length_le h.run h.stop
  rw [h.candidatesUpTo_eq] at hregs
  rcases h.getElem? hlo hhi with ⟨b, hbk, hb⟩
  by_cases hbyval : a.flags.isByVal = true
  · rw [h.alone hbyval] at hb
    rcases hb with rfl | hb
    · simp [slotAt, hbk, hbyval]
    · cases hb
  · have hscalar : b.flags.isByVal = false := by
      rcases hb with rfl | hb
      · simpa using hbyval
      · exact h.tail b hb
    simp only [slotAt, hbk, hscalar, hregs, h.headVT_eq hlo hhi, hbyval, bind, Option.bind,
      Bool.false_eq_true, ↓reduceIte]

end

theorem groupAt_of_cut {args pre rest : List ArgT} {a : ArgT} {gs : List (List ArgT)}
    (h : WellNumbered args) (hargs : args = pre ++ ((a :: rest) :: gs).flatten)
    (hcut : Cut (Joined (argIndex args)) pre.length ((a :: rest) :: gs)) :
    GroupAt args pre a rest := by
  have hgroup := groupOk_of_cut h hargs hcut (a :: rest) (by simp)
  rcases hgroup.1 with ⟨b, tail, heq, halone⟩
  cases heq
  have hlen : pre.length + (a :: rest).length + gs.flatten.length = args.length := by
    rw [hargs, List.flatten_cons, List.length_append, List.length_append]
    omega
  exact ⟨⟨gs.flatten, by rw [hargs]; simp⟩, halone, hgroup.2, hcut.2.1, hcut.2.2.1,
    hcut.2.2.2.end_of_group hlen⟩

theorem slots_eq_slotsFrom {args pre : List ArgT} {gs : List (List ArgT)} (h : WellNumbered args)
    (hargs : args = pre ++ gs.flatten) (hcut : Cut (Joined (argIndex args)) pre.length gs) :
    slots (candidatesUpTo args pre.length) gs =
      slotsFrom (slotAt args) gs.flatten.length pre.length := by
  induction gs generalizing pre with
  | nil => rfl
  | cons g gs ih =>
      rcases List.exists_cons_of_ne_nil hcut.1 with ⟨a, rest, rfl⟩
      have hgroup := groupAt_of_cut h hargs hcut
      have hrest := @ih (pre ++ (a :: rest)) (by rw [hargs]; simp)
        (by rw [List.length_append]; exact hcut.2.2.2)
      rw [List.length_append, List.length_cons, hgroup.candidatesUpTo_eq] at hrest
      have hsum : (List.flatten ((a :: rest) :: gs)).length =
          (rest.length + 1) + gs.flatten.length := by
        rw [List.flatten_cons, List.length_append, List.length_cons]
      have hslot := fun k hlo hhi => @GroupAt.slotAt_eq args pre rest a hgroup k hlo hhi
      rw [hsum, slots]
      by_cases hb : a.flags.isByVal = true
      · simp only [hb, ↓reduceIte] at hslot
        rw [if_neg (by simp [hb]), slotsFrom_replicate _ _ _ hslot, groupSlots, if_pos hb, hrest,
          hgroup.alone hb]
        rfl
      · have hcand : candidates a (rest.length + 1) = rest.length + 1 := if_neg hb
        rw [hcand] at hrest
        simp only [hcand, hb, Bool.false_eq_true, ↓reduceIte] at hslot
        rw [groupSlots, if_neg hb, hcand]
        by_cases hfit : candidatesUpTo args pre.length + (rest.length + 1) ≤ nbRegs
        · simp only [hfit, ↓reduceIte] at hslot
          rw [if_neg (by simp [hfit]), if_pos (by simpa using hfit),
            slotsFrom_replicate _ _ _ hslot, hrest]
        · simp only [hfit, ↓reduceIte] at hslot
          by_cases hv : a.VT.isScalar = true
          · simp only [hv, ↓reduceIte] at hslot
            rw [if_neg (by simp [hv]), if_neg (by simpa using hfit), if_pos hv,
              slotsFrom_replicate _ _ _ hslot, hrest]
          · have hstuck : slotAt args pre.length = none := by
              rw [hslot _ (Nat.le_refl _) (by omega), if_neg hv]
            rw [if_pos (by simp [hb, hfit, hv]),
              show rest.length + 1 + gs.flatten.length = rest.length + gs.flatten.length + 1 by omega,
              slotsFrom, hstuck]

/-- The whole analysis of a well numbered list. -/
theorem WellNumbered.analyzeArguments_eq {args : List ArgT} (h : WellNumbered args) :
    slots 0 (argGroups args) = slotsFrom (slotAt args) args.length 0 ∧
      analyzeArguments false args =
        some (CCState.initial.placeAll (slotsFrom (slotAt args) args.length 0)) := by
  obtain ⟨gs, hparse, hflat, hcut⟩ := parseFunctionArgs_cut h.mono h.first
  have hgroups := argGroups_eq hparse hflat
  have hslots := @slots_eq_slotsFrom args [] gs h hflat hcut
  have hok : ∀ g ∈ argGroups args, GroupOk g := by
    intro g hg
    rw [hgroups] at hg
    exact (@groupOk_of_cut args [] gs h hflat hcut g hg).1
  rw [← hflat] at hslots
  have heq : slots 0 (argGroups args) = slotsFrom (slotAt args) args.length 0 := by
    rw [hgroups]
    exact hslots
  refine ⟨heq, ?_⟩
  rw [analyzeArguments_eq_placeAll hparse hok, heq]

end Mandarin.CallConv
