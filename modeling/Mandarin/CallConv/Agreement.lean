import Mandarin.CallConv.Positions

/-! # Caller and callee

The two sides analyse lists that agree in types, flags and the partition into
original arguments, but not in the indices: the callee's may skip values. Their
runs of joined positions can therefore differ, and the locations agree exactly
when every value finds itself on the same side of the register limit and under
the same type, up to the first value that gets no location.
-/

namespace Mandarin.CallConv

/-- The same values, cut into the same original arguments. -/
structure SamePartition (outs ins : List ArgT) : Prop where
  length : outs.length = ins.length
  entry : ∀ (k : Nat) (a b : ArgT), outs[k]? = some a → ins[k]? = some b →
    a.VT = b.VT ∧ a.flags = b.flags
  cut : ∀ (k : Nat) (a a' b b' : ArgT), outs[k]? = some a → outs[k + 1]? = some a' →
    ins[k]? = some b → ins[k + 1]? = some b' →
    (a.origArgIndex = a'.origArgIndex ↔ b.origArgIndex = b'.origArgIndex)

/-- A vector run past the registers: nothing is assigned from here on. -/
def Stuck (args : List ArgT) (k : Nat) : Prop :=
  ∃ a, args[k]? = some a ∧ a.flags.isByVal = false ∧ ¬ InRegs args k ∧
    (headVT args k).isScalar = false

/-- Both sides count every value that gets a location into runs of the same kind. -/
def SameRuns (outs ins : List ArgT) : Prop :=
  ∀ (k : Nat) (a : ArgT), outs[k]? = some a → a.flags.isByVal = false →
    (∀ j < k, ¬ Stuck outs j) →
    (InRegs outs k ↔ InRegs ins k) ∧ headVT outs k = headVT ins k

/-! ## Slots of one side -/

theorem slotAt_byVal {args : List ArgT} {k : Nat} {a : ArgT} (ha : args[k]? = some a)
    (hb : a.flags.isByVal = true) : slotAt args k = some (.byVal a.VT a.flags) := by
  simp [slotAt, ha, hb]

theorem slotAt_eq_none_iff {args : List ArgT} {k : Nat} (hk : k < args.length) :
    slotAt args k = none ↔ Stuck args k := by
  have ha := List.getElem?_eq_getElem hk
  unfold Stuck slotAt
  rw [ha]
  by_cases hb : args[k].flags.isByVal = true
  · simp [hb]
  · by_cases hr : InRegs args k
    · simp [hb, hr]
    · by_cases hv : (headVT args k).isScalar = true
      · simp [hb, hr, hv]
      · simp [hb, hr, hv]

theorem slotAt_value {args : List ArgT} {k : Nat} {a : ArgT} {x : Slot} (ha : args[k]? = some a)
    (hb : a.flags.isByVal = false) (hx : slotAt args k = some x) :
    x = if InRegs args k then .reg (headVT args k) else .stack (headVT args k) := by
  unfold slotAt at hx
  rw [ha] at hx
  by_cases hr : InRegs args k
  · simp [hb, hr] at hx
    rw [if_pos hr, hx]
  · by_cases hv : (headVT args k).isScalar = true
    · simp [hb, hr, hv] at hx
      rw [if_neg hr, hx]
    · simp [hb, hr, hv] at hx

theorem headPos_spec {args : List ArgT} {k : Nat} (hk : k < args.length) :
    headPos args k ≤ k ∧ (InRegs args (headPos args k) ↔ InRegs args k) ∧
      headVT args (headPos args k) = headVT args k ∧
      ∀ i, headPos args k < i → i ≤ k → Joined (argIndex args) i := by
  have hrun : ∀ k, headPos args k ≤ k ∧ ¬ Joined (argIndex args) (headPos args k) ∧
      ∀ i, headPos args k < i → i ≤ k → Joined (argIndex args) i := by
    intro k
    induction k with
    | zero =>
        refine ⟨Nat.le_refl 0, ?_, fun i hlo hhi => by omega⟩
        intro h
        have hpos := h.1
        rw [headPos] at hpos
        omega
    | succ k ih =>
        rw [headPos]
        by_cases hj : Joined (argIndex args) (k + 1)
        · rw [if_pos hj]
          refine ⟨Nat.le_succ_of_le ih.1, ih.2.1, ?_⟩
          intro i hlo hhi
          rcases Nat.eq_or_lt_of_le hhi with rfl | hlt
          · exact hj
          · exact ih.2.2 i hlo (by omega)
        · rw [if_neg hj]
          exact ⟨Nat.le_refl _, hj, fun i hlo hhi => by omega⟩
  have hle := (hrun k).1
  have hhead := (hrun k).2.1
  have hjoin := (hrun k).2.2
  refine ⟨hle, ?_, ?_, hjoin⟩
  · constructor
    · intro h
      rcases h with ⟨e, he, hke, hstop, hcand⟩
      refine ⟨e, he, ?_, hstop, hcand⟩
      by_contra hle'
      rcases hstop with h | h
      · omega
      · exact h (hjoin e hke (by omega))
    · intro h
      rcases h with ⟨e, he, hke, hstop, hcand⟩
      exact ⟨e, he, by omega, hstop, hcand⟩
  · unfold headVT
    rw [headPos_of_run hhead (Nat.le_refl _) fun i hlo hhi => by omega]

theorem headPos_of_first_stuck {args : List ArgT} (h : WellNumbered args) {k : Nat}
    (hk : Stuck args k) (hfirst : ∀ j < k, ¬ Stuck args j) : headPos args k = k := by
  rcases hk with ⟨a, ha, hb, hr, hv⟩
  have hlt := (List.getElem?_eq_some_iff.mp ha).1
  obtain ⟨hle, hregs, hvt, hjoin⟩ := headPos_spec hlt
  rcases Nat.eq_or_lt_of_le hle with heq | hless
  · exact heq
  · exfalso
    apply hfirst _ hless
    have hhead := List.getElem?_eq_getElem (Nat.lt_trans hless hlt)
    have hnext := List.getElem?_eq_getElem (show headPos args k + 1 < args.length by omega)
    have halone := h.joined_alone hhead hnext (hjoin _ (by omega) (by omega))
    exact ⟨_, hhead, halone.1, fun hin => hr (hregs.mp hin), by rw [hvt]; exact hv⟩

/-! ## Comparing the sides -/

theorem slotsFrom_some {f : Nat → Option Slot} {m k i : Nat} {x : Slot}
    (h : (slotsFrom f m k)[i]? = some x) : f (k + i) = some x := by
  induction m generalizing k i with
  | zero => simp [slotsFrom] at h
  | succ m ih =>
      rw [slotsFrom] at h
      cases hf : f k with
      | none => simp [hf] at h
      | some y =>
          rw [hf] at h
          cases i with
          | zero =>
              rw [Nat.add_zero, hf]
              simpa using h
          | succ i =>
              rw [show k + (i + 1) = k + 1 + i by omega]
              exact ih (by simpa using h)

theorem slots_of_slotLocs_eq {ss ts : List Slot} (h : slotLocs 0 0 0 ss = slotLocs 0 0 0 ts) {k : Nat}
    {x y : Slot} (hx : ss[k]? = some x) (hy : ts[k]? = some y) :
    x.VT = y.VT ∧ ((∃ vt, x = .reg vt) ↔ ∃ vt, y = .reg vt) := by
  have hlen : k < (slotLocs 0 0 0 ss).length := by
    rw [length_slotLocs]
    exact (List.getElem?_eq_some_iff.mp hx).1
  obtain ⟨l, hl⟩ : ∃ l, (slotLocs 0 0 0 ss)[k]? = some l := ⟨_, List.getElem?_eq_getElem hlen⟩
  have hl' : (slotLocs 0 0 0 ts)[k]? = some l := by rw [← h, hl]
  obtain ⟨_, x', hx', hvt, _⟩ := slotLocs_getElem? hl
  obtain ⟨_, y', hy', hvt', _⟩ := slotLocs_getElem? hl'
  rw [hx, Option.some.injEq] at hx'
  rw [hy, Option.some.injEq] at hy'
  subst hx' hy'
  refine ⟨hvt.symm.trans hvt', ?_⟩
  constructor
  · intro hreg
    rcases hreg with ⟨vt, rfl⟩
    by_contra hno
    obtain ⟨offset, hoff⟩ := slotLocs_mem_loc hl' hy fun vt hvt => hno ⟨vt, hvt⟩
    rw [slotLocs_reg hx, Option.some.injEq] at hl
    rw [← hl] at hoff
    cases hoff
  · intro hreg
    rcases hreg with ⟨vt, rfl⟩
    by_contra hno
    obtain ⟨offset, hoff⟩ := slotLocs_mem_loc hl hx fun vt hvt => hno ⟨vt, hvt⟩
    rw [slotLocs_reg hy, Option.some.injEq] at hl'
    rw [← hl'] at hoff
    cases hoff

theorem slotLocs_eq_iff {outs ins : List ArgT} (h : SamePartition outs ins) :
    slotLocs 0 0 0 (slotsFrom (slotAt outs) outs.length 0) =
        slotLocs 0 0 0 (slotsFrom (slotAt ins) ins.length 0) ↔
      slotsFrom (slotAt outs) outs.length 0 = slotsFrom (slotAt ins) ins.length 0 := by
  constructor
  · intro heq
    have hlen := congrArg List.length heq
    rw [length_slotLocs, length_slotLocs] at hlen
    apply List.ext_getElem hlen
    intro k hk hk'
    have hx := List.getElem?_eq_getElem hk
    have hy := List.getElem?_eq_getElem hk'
    obtain ⟨hvt, hreg⟩ := slots_of_slotLocs_eq heq hx hy
    have hfx := slotsFrom_some hx
    have hfy := slotsFrom_some hy
    rw [Nat.zero_add] at hfx hfy
    have hko : k < outs.length := by
      by_contra hge
      simp [slotAt, List.getElem?_eq_none (Nat.le_of_not_lt hge)] at hfx
    have ha := List.getElem?_eq_getElem hko
    have hb := List.getElem?_eq_getElem (h.length ▸ hko)
    obtain ⟨hentry, hflags⟩ := h.entry k _ _ ha hb
    by_cases hbv : outs[k].flags.isByVal = true
    · rw [slotAt_byVal ha hbv, Option.some.injEq] at hfx
      rw [slotAt_byVal hb (hflags ▸ hbv), Option.some.injEq] at hfy
      rw [← hfx, ← hfy, hentry, hflags]
    · have hbv' : outs[k].flags.isByVal = false := by simpa using hbv
      have hvx := slotAt_value ha hbv' hfx
      have hvy := slotAt_value hb (hflags ▸ hbv') hfy
      rw [hvx, hvy] at hvt hreg ⊢
      by_cases hr : InRegs outs k
      · by_cases hr' : InRegs ins k
        · rw [if_pos hr, if_pos hr'] at hvt ⊢
          exact congrArg Slot.reg hvt
        · simp [hr, hr'] at hreg
      · by_cases hr' : InRegs ins k
        · simp [hr, hr'] at hreg
        · rw [if_neg hr, if_neg hr'] at hvt ⊢
          exact congrArg Slot.stack hvt
  · intro heq
    rw [heq]

/-- The values in front of `k` have slots exactly when none of them is stuck. -/
theorem assigned_iff_not_stuck {args : List ArgT} {k : Nat} (hk : k ≤ args.length) :
    (∀ j, 0 ≤ j → j < k → slotAt args j ≠ none) ↔ ∀ j < k, ¬ Stuck args j := by
  constructor
  · intro hall j hj hs
    exact hall j (Nat.zero_le j) hj ((slotAt_eq_none_iff (by omega)).mpr hs)
  · intro hall j _ hj hs
    exact hall j hj ((slotAt_eq_none_iff (by omega)).mp hs)

theorem sameRun_of_slotAt {outs ins : List ArgT} {k : Nat} {a b : ArgT} {x : Slot}
    (ha : outs[k]? = some a) (hb : ins[k]? = some b) (hbyval : a.flags.isByVal = false)
    (hbyval' : b.flags.isByVal = false) (hx : slotAt outs k = some x) (hy : slotAt ins k = some x) :
    (InRegs outs k ↔ InRegs ins k) ∧ headVT outs k = headVT ins k := by
  have hvx := slotAt_value ha hbyval hx
  have hvy := slotAt_value hb hbyval' hy
  rw [hvx] at hvy
  by_cases hr : InRegs outs k
  · by_cases hr' : InRegs ins k
    · simpa [hr, hr'] using hvy
    · simp [hr, hr'] at hvy
  · by_cases hr' : InRegs ins k
    · simp [hr, hr'] at hvy
    · simpa [hr, hr'] using hvy

theorem sameRuns_iff {outs ins : List ArgT} (ho : WellNumbered outs) (hi : WellNumbered ins)
    (h : SamePartition outs ins) :
    (∀ k, 0 ≤ k → k < 0 + outs.length → (∀ j, 0 ≤ j → j < k → slotAt outs j ≠ none) →
        slotAt outs k = slotAt ins k) ↔ SameRuns outs ins := by
  constructor
  · intro hall k a ha hb hstuck
    have hk := (List.getElem?_eq_some_iff.mp ha).1
    have hki : k < ins.length := h.length ▸ hk
    have hbi := List.getElem?_eq_getElem hki
    obtain ⟨hvt, hflags⟩ := h.entry k _ _ ha hbi
    have hassigned := (assigned_iff_not_stuck (Nat.le_of_lt hk)).mpr hstuck
    have heq := hall k (Nat.zero_le k) (by omega) hassigned
    cases hx : slotAt outs k with
    | some x => exact sameRun_of_slotAt ha hbi hb (hflags ▸ hb) hx (heq ▸ hx)
    | none =>
        -- both sides are stuck here for the first time, so both runs start here
        rw [hx] at heq
        have hso := (slotAt_eq_none_iff hk).mp hx
        have hsi := (slotAt_eq_none_iff hki).mp heq.symm
        have hfirst : ∀ j < k, ¬ Stuck ins j := by
          intro j hj hs
          have hjo := hall j (Nat.zero_le j) (by omega) fun i _ hij =>
            hassigned i (Nat.zero_le i) (by omega)
          rw [(slotAt_eq_none_iff (by omega)).mpr hs] at hjo
          exact hstuck j hj ((slotAt_eq_none_iff (by omega)).mp hjo)
        have hpo := headPos_of_first_stuck ho hso hstuck
        have hpi := headPos_of_first_stuck hi hsi hfirst
        rcases hso with ⟨_, _, _, hro, _⟩
        rcases hsi with ⟨_, _, _, hri, _⟩
        refine ⟨iff_of_false hro hri, ?_⟩
        unfold headVT
        rw [hpo, hpi, ha, hbi]
        exact hvt
  · intro hruns k _ hk hall
    rw [Nat.zero_add] at hk
    have hki : k < ins.length := h.length ▸ hk
    have ha := List.getElem?_eq_getElem hk
    have hbi := List.getElem?_eq_getElem hki
    obtain ⟨hvt, hflags⟩ := h.entry k _ _ ha hbi
    by_cases hb : outs[k].flags.isByVal = true
    · rw [slotAt_byVal ha hb, slotAt_byVal hbi (hflags ▸ hb), hvt, hflags]
    · have hb' : outs[k].flags.isByVal = false := by simpa using hb
      have hbi' : ins[k].flags.isByVal = false := hflags ▸ hb'
      obtain ⟨hregs, hheads⟩ :=
        hruns k _ ha hb' ((assigned_iff_not_stuck (Nat.le_of_lt hk)).mp hall)
      unfold slotAt
      rw [ha, hbi]
      simp [hb', hbi', hregs, hheads]

/-- Both analyses succeed, and they find the same locations if and only if both
sides count the values into runs of the same kind. -/
theorem analyzeArguments_agree_iff {outs ins : List ArgT} (ho : WellNumbered outs)
    (hi : WellNumbered ins) (h : SamePartition outs ins) :
    ∃ co ci, analyzeArguments false outs = some co ∧ analyzeArguments false ins = some ci ∧
      (co.locs = ci.locs ↔ SameRuns outs ins) := by
  refine ⟨_, _, ho.analyzeArguments_eq.2, hi.analyzeArguments_eq.2, ?_⟩
  rw [locs_placeAll_initial, locs_placeAll_initial, slotLocs_eq_iff h, ← sameRuns_iff ho hi h,
    ← slotsFrom_eq_iff, ← h.length]

/-! ## Lists of plain values -/

def intArg (index : Word) : ArgT := ⟨.i32, ⟨false, 0, 0⟩, index⟩

theorem wellNumbered_intArgs {xs : List Word} (hmono : xs.Pairwise fun x y => x.toNat ≤ y.toNat)
    (hfirst : xs.head? ≠ some (~~~0)) : WellNumbered (xs.map intArg) := by
  refine ⟨?_, ?_, ?_⟩
  · intro i hi
    rw [List.length_map] at hi
    have hle := List.pairwise_iff_getElem.mp hmono i (i + 1) (by omega) hi (by omega)
    simpa [argIndex, hi, show i < xs.length by omega, intArg] using hle
  · intro a ha heq
    apply hfirst
    cases xs with
    | nil => cases ha
    | cons x xs =>
        cases ha
        exact congrArg some heq
  · intro i a b ha hb _
    rcases List.mem_map.mp (List.mem_of_getElem? ha) with ⟨x, _, rfl⟩
    rcases List.mem_map.mp (List.mem_of_getElem? hb) with ⟨y, _, rfl⟩
    exact ⟨rfl, rfl⟩

theorem samePartition_intArgs {xs ys : List Word} (hlen : xs.length = ys.length)
    (hcut : ∀ k < xs.length, k + 1 < xs.length → (xs[k]? = xs[k + 1]? ↔ ys[k]? = ys[k + 1]?)) :
    SamePartition (xs.map intArg) (ys.map intArg) := by
  refine ⟨by rw [List.length_map, List.length_map, hlen], ?_, ?_⟩
  · intro k a b ha hb
    rcases List.mem_map.mp (List.mem_of_getElem? ha) with ⟨x, _, rfl⟩
    rcases List.mem_map.mp (List.mem_of_getElem? hb) with ⟨y, _, rfl⟩
    exact ⟨rfl, rfl⟩
  · intro k a a' b b' ha ha' hb hb'
    have hk := (List.getElem?_eq_some_iff.mp ha').1
    rw [List.length_map] at hk
    have hiff := hcut k (by omega) hk
    rw [List.getElem?_map] at ha ha' hb hb'
    rcases Option.map_eq_some_iff.mp ha with ⟨x, hx, rfl⟩
    rcases Option.map_eq_some_iff.mp ha' with ⟨x', hx', rfl⟩
    rcases Option.map_eq_some_iff.mp hb with ⟨y, hy, rfl⟩
    rcases Option.map_eq_some_iff.mp hb' with ⟨y', hy', rfl⟩
    rw [hx, hx', hy, hy', Option.some.injEq, Option.some.injEq] at hiff
    exact hiff

/-- An index skipped in front of a single value does no harm. -/
theorem analyzeArguments_agree_skipping :
    ∃ co ci, analyzeArguments false ([0, 1].map intArg) = some co ∧
      analyzeArguments false ([0, 2].map intArg) = some ci ∧ co.locs = ci.locs := by
  have hruns : SameRuns ([0, 1].map intArg) ([0, 2].map intArg) := by
    intro k a ha _ _
    rcases k with _ | _ | k
    · decide
    · decide
    · cases ha
  obtain ⟨co, ci, ho, hi, hiff⟩ := analyzeArguments_agree_iff
    (@wellNumbered_intArgs [0, 1] (by decide) (by decide))
    (@wellNumbered_intArgs [0, 2] (by decide) (by decide))
    (@samePartition_intArgs [0, 1] [0, 2] rfl (by decide))
  exact ⟨co, ci, ho, hi, hiff.mpr hruns⟩

/-- Behind a skipped index the two parts of the last argument are counted as one
argument by the caller and as two by the callee, which has a register left for
the first of them. -/
theorem analyzeArguments_disagree :
    WellNumbered ([0, 1, 2, 3, 3].map intArg) ∧ WellNumbered ([0, 1, 2, 4, 4].map intArg) ∧
      SamePartition ([0, 1, 2, 3, 3].map intArg) ([0, 1, 2, 4, 4].map intArg) ∧
      ∃ co ci, analyzeArguments false ([0, 1, 2, 3, 3].map intArg) = some co ∧
        analyzeArguments false ([0, 1, 2, 4, 4].map intArg) = some ci ∧ co.locs ≠ ci.locs := by
  refine ⟨wellNumbered_intArgs (by decide) (by decide),
    wellNumbered_intArgs (by decide) (by decide),
    samePartition_intArgs rfl (by decide), _, _, rfl, rfl, ?_⟩
  decide

end Mandarin.CallConv
