import Mandarin.CallConv.Lowering
import Mandarin.CallConv.StackArea

/-! # Registers occupied by arguments

The analysis counts values while the callee reads a vector through a tuple class
that covers two or four of the registers. A value passed in register `n`
therefore runs into its successor unless it is a scalar, and into `R4` unless its
lanes fit behind `n`.
-/

namespace Mandarin.CallConv

/-- Register `R i` belongs to the value as the callee reads it. -/
def CCValAssign.Occupies (l : CCValAssign) (i : Nat) : Prop :=
  match l.loc with
  | .reg (.R n) => n ≤ i ∧ i < n + (liveInClass l.locVT).lanes
  | _ => False

/-- The register sets of different values are disjoint and lie within the
argument registers. -/
def RegistersDisjoint (locs : List CCValAssign) : Prop :=
  (∀ (j k : Nat) (lj lk : CCValAssign), j < k → locs[j]? = some lj → locs[k]? = some lk →
    ∀ i, lj.Occupies i → ¬ lk.Occupies i) ∧
  ∀ l ∈ locs, ∀ i, l.Occupies i → i < nbRegs

/-- Types of the values passed in registers: those of the groups that, with all
groups before them, number at most `nbRegs` register candidates. -/
def regTypes (before : Nat) : List (List ArgT) → List MVT
  | [] => []
  | [] :: gs => regTypes before gs
  | (a :: g) :: gs =>
      if a.flags.isByVal then regTypes before gs
      else if before + (g.length + 1) ≤ nbRegs then
        List.replicate (g.length + 1) a.VT ++ regTypes (before + (g.length + 1)) gs
      else []

/-- Every type but the last is scalar, and the last has its lanes in registers. -/
def RegTypesFit (vts : List MVT) : Prop :=
  ∀ k vt, vts[k]? = some vt →
    vt.isScalar = true ∨ (k + 1 = vts.length ∧ k + (liveInClass vt).lanes ≤ nbRegs)

theorem lanes_liveInClass_scalar {vt : MVT} (h : vt.isScalar = true) : (liveInClass vt).lanes = 1 := by
  cases vt <;> simp_all [MVT.isScalar, liveInClass, RegClass.lanes]

theorem two_le_lanes_liveInClass {vt : MVT} (h : vt.isScalar = false) :
    2 ≤ (liveInClass vt).lanes := by
  cases vt <;> simp_all [MVT.isScalar, liveInClass, RegClass.lanes]

/-! ## Which values are passed in registers -/

theorem regVTs_slots_of_lt {before : Nat} (h : nbRegs < before) (gs : List (List ArgT)) :
    regVTs (slots before gs) = [] := by
  have hlen := length_regVTs_slots before gs
  apply List.length_eq_zero_iff.mp
  omega

theorem regVTs_slots (before : Nat) (gs : List (List ArgT)) :
    regVTs (slots before gs) = regTypes before gs := by
  induction gs generalizing before with
  | nil => rfl
  | cons g gs ih =>
      cases g with
      | nil => exact ih before
      | cons a g =>
          rw [slots, regTypes]
          by_cases hb : a.flags.isByVal = true
          · rw [if_neg (by simp [hb]), if_pos hb, regVTs_append, groupSlots, if_pos hb, candidates,
              if_pos hb, Nat.add_zero, ih]
            rfl
          · have hb' : a.flags.isByVal = false := by simpa using hb
            rw [if_neg hb]
            by_cases hfit : before + (g.length + 1) ≤ nbRegs
            · rw [if_neg (by simp [hfit]), if_pos hfit, regVTs_append, groupSlots, if_neg hb,
                if_pos (decide_eq_true hfit), regVTs_replicate, candidates, if_neg hb, ih]
            · rw [if_neg hfit]
              split
              · rfl
              · rw [regVTs_append, groupSlots, if_neg hb, if_neg (by simpa using hfit), candidates,
                  if_neg hb, regVTs_slots_of_lt (Nat.lt_of_not_le hfit), List.append_nil]
                split
                · exact regVTs_replicate_stack _ _
                · rfl

/-! ## Occupied registers -/

theorem occupies_slotLocs_iff {ss : List Slot} (hregs : (regVTs ss).length ≤ nbRegs) {k i : Nat}
    {l : CCValAssign} (hl : (slotLocs 0 0 0 ss)[k]? = some l) :
    l.Occupies i ↔ ∃ vt, ss[k]? = some (.reg vt) ∧ regsBefore ss k ≤ i ∧
      i < regsBefore ss k + (liveInClass vt).lanes := by
  obtain ⟨_, x, hx, _, hvt⟩ := slotLocs_getElem? hl
  cases x with
  | byVal vt flags =>
      obtain ⟨offset, hoff⟩ := slotLocs_mem_loc hl hx (by simp)
      simp [CCValAssign.Occupies, hoff, hx]
  | stack vt =>
      obtain ⟨offset, hoff⟩ := slotLocs_mem_loc hl hx (by simp)
      simp [CCValAssign.Occupies, hoff, hx]
  | reg vt =>
      have hlt : regsBefore ss k < nbRegs := by
        have h := (List.getElem?_eq_some_iff.mp (regVTs_regsBefore hx)).1
        omega
      rw [slotLocs_reg hx, Option.some.injEq] at hl
      rw [← hl, Nat.zero_add, Nat.zero_add, argReg_eq hlt]
      simp [CCValAssign.Occupies, CCValAssign.getReg, hx]

/-- A register value occupies the lanes of its class from its register on. -/
theorem slotLocs_occupies {ss : List Slot} (hregs : (regVTs ss).length ≤ nbRegs) {k : Nat}
    {vt : MVT} (hk : ss[k]? = some (.reg vt)) : ∃ l, (slotLocs 0 0 0 ss)[k]? = some l ∧
      ∀ i, regsBefore ss k ≤ i → i < regsBefore ss k + (liveInClass vt).lanes → l.Occupies i := by
  have hl := @slotLocs_reg 0 0 k 0 ss vt hk
  exact ⟨_, hl, fun i hlo hhi => (occupies_slotLocs_iff hregs hl).mpr ⟨vt, hk, hlo, hhi⟩⟩

theorem regTypesFit_of_disjoint {ss : List Slot} (hregs : (regVTs ss).length ≤ nbRegs)
    (h : RegistersDisjoint (slotLocs 0 0 0 ss)) : RegTypesFit (regVTs ss) := by
  rcases h with ⟨hdisj, hwithin⟩
  intro n vt hn
  by_cases hs : vt.isScalar = true
  · exact Or.inl hs
  · have htwo := two_le_lanes_liveInClass (by simpa using hs)
    have hlt : n < (regVTs ss).length := (List.getElem?_eq_some_iff.mp hn).1
    obtain ⟨k, hk, hbefore⟩ := exists_slot_of_regVTs hn
    obtain ⟨l, hl, hocc⟩ := slotLocs_occupies hregs hk
    refine Or.inr ⟨?_, ?_⟩
    · -- a successor would share register `n + 1`
      by_contra hne
      have hnext : n + 1 < (regVTs ss).length := by omega
      obtain ⟨k', hk', hbefore'⟩ := exists_slot_of_regVTs (List.getElem?_eq_getElem hnext)
      obtain ⟨l', hl', hocc'⟩ := slotLocs_occupies hregs hk'
      have hpos := (liveInClass (regVTs ss)[n + 1]).lanes_pos
      have hkk : k < k' := by
        rcases Nat.lt_trichotomy k k' with h | h | h
        · exact h
        · rw [h] at hbefore
          omega
        · have hback := regsBefore_lt h hk'
          omega
      exact hdisj k k' l l' hkk hl hl' (n + 1) (hocc _ (by omega) (by omega))
        (hocc' _ (by omega) (by omega))
    · have hlast := hwithin l (List.mem_of_getElem? hl) (n + (liveInClass vt).lanes - 1)
        (hocc _ (by omega) (by omega))
      omega

theorem disjoint_of_regTypesFit {ss : List Slot} (hregs : (regVTs ss).length ≤ nbRegs)
    (hfit : RegTypesFit (regVTs ss)) : RegistersDisjoint (slotLocs 0 0 0 ss) := by
  have hscalar : ∀ (k k' : Nat) (vt vt' : MVT), k < k' → ss[k]? = some (.reg vt) →
      ss[k']? = some (.reg vt') → (liveInClass vt).lanes = 1 := by
    intro k k' vt vt' hkk hk hk'
    have hlt := regsBefore_lt hkk hk
    have hlt' := (List.getElem?_eq_some_iff.mp (regVTs_regsBefore hk')).1
    rcases hfit _ _ (regVTs_regsBefore hk) with h | ⟨h, _⟩
    · exact lanes_liveInClass_scalar h
    · omega
  constructor
  · intro j k lj lk hjk hj hk i hoj hok
    obtain ⟨vt, hvt, hlo, hhi⟩ := (occupies_slotLocs_iff hregs hj).mp hoj
    obtain ⟨vt', hvt', hlo', _⟩ := (occupies_slotLocs_iff hregs hk).mp hok
    have hone := hscalar j k vt vt' hjk hvt hvt'
    have hlt := regsBefore_lt hjk hvt
    omega
  · intro l hl i ho
    obtain ⟨k, hk⟩ := List.getElem?_of_mem hl
    obtain ⟨vt, hvt, hlo, hhi⟩ := (occupies_slotLocs_iff hregs hk).mp ho
    have hlt := (List.getElem?_eq_some_iff.mp (regVTs_regsBefore hvt)).1
    rcases hfit _ _ (regVTs_regsBefore hvt) with h | ⟨_, h⟩
    · have hone := lanes_liveInClass_scalar h
      omega
    · omega

theorem registersDisjoint_iff {ss : List Slot} (hregs : (regVTs ss).length ≤ nbRegs) :
    RegistersDisjoint (slotLocs 0 0 0 ss) ↔ RegTypesFit (regVTs ss) :=
  ⟨regTypesFit_of_disjoint hregs, disjoint_of_regTypesFit hregs⟩

/-- The register values of a list are disjoint and within `R0`..`R3` if and only
if all but the last are scalar and the last one's lanes fit. -/
theorem analyzeArguments_registersDisjoint_iff {args : List ArgT} {cc : CCState}
    (h : analyzeArguments false args = some cc) (hok : ∀ g ∈ argGroups args, GroupOk g) :
    RegistersDisjoint cc.locs ↔ RegTypesFit (regTypes 0 (argGroups args)) := by
  obtain ⟨counts, hparse⟩ := parseFunctionArgs_of_analyzeArguments h
  rw [analyzeArguments_eq_placeAll hparse hok, Option.some.injEq] at h
  rw [← h, locs_placeAll_initial, ← regVTs_slots]
  exact registersDisjoint_iff (length_regVTs_slots 0 _)

/-- A scalar and a pair behind it take `R0` to `R2`. -/
theorem analyzeArguments_registersDisjoint_scalar_pair :
    ∃ cc, analyzeArguments false
        [⟨.i32, ⟨false, 0, 0⟩, 0⟩, ⟨.v2i32, ⟨false, 0, 0⟩, 1⟩] = some cc ∧
      RegistersDisjoint cc.locs := by
  have hok : ∀ g ∈ argGroups [⟨.i32, ⟨false, 0, 0⟩, 0⟩, ⟨.v2i32, ⟨false, 0, 0⟩, 1⟩],
      GroupOk g := by
    intro g hg
    replace hg : g ∈ [[ArgT.mk .i32 ⟨false, 0, 0⟩ 0], [ArgT.mk .v2i32 ⟨false, 0, 0⟩ 1]] := hg
    rcases List.mem_cons.mp hg with rfl | hg
    · exact ⟨_, [], rfl, fun _ => rfl⟩
    · rw [List.mem_singleton.mp hg]
      exact ⟨_, [], rfl, fun _ => rfl⟩
  have hfit : RegTypesFit [.i32, .v2i32] := by
    intro k vt hk
    rcases k with _ | _ | k
    · cases hk
      exact Or.inl rfl
    · cases hk
      exact Or.inr ⟨rfl, by decide⟩
    · cases hk
  exact ⟨_, rfl, (analyzeArguments_registersDisjoint_iff rfl hok).mpr hfit⟩

/-- Two pairs share `R1`. -/
theorem analyzeArguments_pairs_overlap :
    ∃ cc, analyzeArguments false
        [⟨.v2i32, ⟨false, 0, 0⟩, 0⟩, ⟨.v2i32, ⟨false, 0, 0⟩, 1⟩] = some cc ∧
      ¬ RegistersDisjoint cc.locs := by
  refine ⟨_, rfl, ?_⟩
  intro h
  apply h.1 0 1 _ _ Nat.one_pos rfl rfl 1
  · show 0 ≤ 1 ∧ 1 < 0 + 2
    omega
  · show 1 ≤ 1 ∧ 1 < 1 + 2
    omega

end Mandarin.CallConv
