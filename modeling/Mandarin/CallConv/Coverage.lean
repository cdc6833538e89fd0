import Mandarin.CallConv.Grouping
import Mandarin.CallConv.Locations

/-! # One location per value

Lowering reads `ArgLocs[i]` as the location of value `i`. The analysis delivers
that exactly for lists whose groups are placeable: one type per original
argument, byval arguments of one part, and no vector past the registers. A group
that is not placeable either records too few locations or a wrong type, and no
later group can make up for it.
-/

namespace Mandarin.CallConv

/-- An original argument: at least one part. -/
structure OrigArg where
  head : Part
  rest : List Part
  deriving DecidableEq, Repr

def OrigArg.parts (o : OrigArg) : List Part := o.head :: o.rest

def origGroups (origs : List OrigArg) : List (List ArgT) := numbered (origs.map OrigArg.parts)

def origArgs (origs : List OrigArg) : List ArgT := (origGroups origs).flatten

/-- Locations and values correspond one to one, in order. -/
def OneLocationEach (args : List ArgT) (cc : CCState) : Prop :=
  cc.locs.length = args.length ∧
    ∀ k (h : k < args.length), ∃ l, cc.locs[k]? = some l ∧ l.valNo = k ∧ l.valVT = args[k].VT

/-- Every part has the type of the first one, a byval is alone, and a group that
does not fit the registers is scalar. -/
def GroupPlaceable (before : Nat) : List ArgT → Prop
  | [] => True
  | a :: rest => (∀ b ∈ rest, b.VT = a.VT) ∧
      if a.flags.isByVal then rest = []
      else before + (rest.length + 1) ≤ nbRegs ∨ a.VT.isScalar = true

def Placeable (before : Nat) : List (List ArgT) → Prop
  | [] => True
  | [] :: gs => Placeable before gs
  | (a :: g) :: gs => GroupPlaceable before (a :: g) ∧
      Placeable (before + candidates a (g.length + 1)) gs

theorem nonempty_origGroups (origs : List OrigArg) : ∀ g ∈ origGroups origs, g ≠ [] := by
  intro g hg
  obtain ⟨k, hk⟩ := List.getElem?_of_mem hg
  rw [origGroups, numbered, numberFrom_getElem?, List.getElem?_map] at hk
  cases ho : origs[k]? with
  | none => simp [ho] at hk
  | some o =>
      simp only [ho, Option.map_some, Option.some.injEq, OrigArg.parts, List.map_cons] at hk
      rw [← hk]
      exact List.cons_ne_nil _ _

theorem parseFunctionArgs_origArgs (origs : List OrigArg) :
    parseFunctionArgs (origArgs origs) = some ((origGroups origs).map List.length) := by
  apply parseFunctionArgs_numbered
  intro g hg
  obtain ⟨o, _, rfl⟩ := List.mem_map.mp hg
  exact List.cons_ne_nil _ _

/-! ## Counting slots -/

theorem length_groupSlots_le (fits : Bool) (a : ArgT) (parts : Nat) (hp : 0 < parts) :
    (groupSlots fits a parts).length ≤ parts := by
  unfold groupSlots
  split
  · exact hp
  · split
    · simp
    · split <;> simp

theorem map_VT_groupSlots (fits : Bool) (a : ArgT) (parts : Nat)
    (hlen : (groupSlots fits a parts).length = parts) :
    (groupSlots fits a parts).map Slot.VT = List.replicate parts a.VT := by
  unfold groupSlots at hlen ⊢
  split at hlen
  · subst hlen
    simp [*, Slot.VT]
  · split at hlen
    · simp [*, Slot.VT]
    · split at hlen
      · simp [*, Slot.VT]
      · subst hlen
        simp [*]

theorem length_groupSlots_eq_iff (before : Nat) (a : ArgT) (rest : List ArgT) :
    (groupSlots (decide (before + (rest.length + 1) ≤ nbRegs)) a (rest.length + 1)).length =
        rest.length + 1 ↔
      if a.flags.isByVal then rest = []
      else before + (rest.length + 1) ≤ nbRegs ∨ a.VT.isScalar = true := by
  unfold groupSlots
  by_cases hb : a.flags.isByVal = true
  · rw [if_pos hb, if_pos hb]
    simp
  · rw [if_neg hb, if_neg hb]
    by_cases hfit : before + (rest.length + 1) ≤ nbRegs
    · simp [hfit]
    · by_cases hv : a.VT.isScalar = true
      · simp [hfit, hv]
      · simp [hfit, hv]

private theorem replicate_append_eq_iff (a : ArgT) (rest : List ArgT) (xs ys : List MVT) :
    List.replicate (rest.length + 1) a.VT ++ xs = (a :: rest).map ArgT.VT ++ ys ↔
      (∀ b ∈ rest, b.VT = a.VT) ∧ xs = ys := by
  have hgroup : List.replicate (rest.length + 1) a.VT = (a :: rest).map ArgT.VT ↔
      ∀ b ∈ rest, b.VT = a.VT := by
    rw [eq_comm, List.eq_replicate_iff]
    simp
  rw [← hgroup]
  constructor
  · intro h
    exact List.append_inj h (by simp)
  · rintro ⟨h1, h2⟩
    rw [h1, h2]

/-- Whatever the groups are, the loop finishes and records at most one location
per part. -/
theorem foldlM_assignGroup_total {args : List ArgT} {parts : List Nat} {s : AnalyzeState}
    (hpos : ∀ p ∈ parts, 0 < p) (hroom : s.valNo + parts.sum ≤ args.length) (hs : s.Synced) :
    ∃ s' ss, parts.foldlM (assignGroup args) s = some s' ∧ s'.cc = s.cc.placeAll ss ∧
      ss.length ≤ parts.sum := by
  induction parts generalizing s with
  | nil => exact ⟨s, [], rfl, rfl, Nat.le_refl 0⟩
  | cons p parts ih =>
      have hp : 0 < p := hpos p (by simp)
      rw [List.sum_cons] at hroom
      have hlt : s.valNo < args.length := by omega
      obtain ⟨t, hstep, hcc, ht, _, _⟩ :=
        assignGroup_spec p (List.getElem?_eq_getElem hlt) hs
      have hle := length_groupSlots_le (s.fits p) args[s.valNo] p hp
      have hval : t.valNo ≤ s.valNo + p := by
        rw [ht, hcc, CCState.length_placeAll, ← hs]
        omega
      obtain ⟨s', ss, hrun, hcc', hlen⟩ := @ih t (fun q hq => hpos q (by simp [hq])) (by omega) ht
      refine ⟨s', groupSlots (s.fits p) args[s.valNo] p ++ ss, ?_, ?_, ?_⟩
      · simp only [List.foldlM_cons, hstep, bind, Option.bind, hrun]
      · rw [hcc', hcc, CCState.placeAll_append]
      · rw [List.length_append, List.sum_cons]
        omega

/-! ## The exact condition -/

theorem foldlM_assignGroup_covers {args pre : List ArgT} {gs : List (List ArgT)} {before : Nat}
    {s : AnalyzeState} (hargs : args = pre ++ gs.flatten) (hne : ∀ g ∈ gs, g ≠ [])
    (hval : s.valNo = pre.length) (hs : s.Synced) (hm : s.Mirrors before) :
    ∃ s' ss, (gs.map List.length).foldlM (assignGroup args) s = some s' ∧
      s'.cc = s.cc.placeAll ss ∧
      (ss.map Slot.VT = gs.flatten.map ArgT.VT ↔ Placeable before gs) := by
  induction gs generalizing pre before s with
  | nil => exact ⟨s, [], rfl, rfl, by simp [Placeable]⟩
  | cons g gs ih =>
      obtain ⟨a, rest, rfl⟩ := List.exists_cons_of_ne_nil (hne g (by simp))
      have hrest : ∀ g ∈ gs, g ≠ [] := fun g hg => hne g (by simp [hg])
      have ha : args[s.valNo]? = some a := by rw [hargs, hval]; simp
      have hargs' : args = (pre ++ a :: rest) ++ gs.flatten := by rw [hargs]; simp
      obtain ⟨t, hstep, hcc, ht, hregs, hstack⟩ := assignGroup_spec (rest.length + 1) ha hs
      have hmt := hm.step hregs hstack
      rw [hm.fits_eq] at hcc
      generalize hfirst : groupSlots (decide (before + (rest.length + 1) ≤ nbRegs)) a
        (rest.length + 1) = first at hcc
      have hle : first.length ≤ rest.length + 1 := by
        rw [← hfirst]
        exact length_groupSlots_le _ _ _ (Nat.succ_pos _)
      have hvt : t.valNo = pre.length + first.length := by
        rw [ht, hcc, CCState.length_placeAll, ← hs, hval]
      simp only [List.map_cons, List.foldlM_cons, List.length_cons, hstep, bind, Option.bind]
      by_cases hlen : first.length = rest.length + 1
      · -- the group is recorded in full: its types decide, then the rest
        obtain ⟨s', ss, hrun, hfinal, hiff⟩ := ih hargs' hrest (by simp [hvt, hlen]) ht hmt
        refine ⟨s', first ++ ss, hrun, by rw [hfinal, hcc, CCState.placeAll_append], ?_⟩
        have htypes : first.map Slot.VT = List.replicate (rest.length + 1) a.VT := by
          rw [← hfirst]
          exact map_VT_groupSlots _ _ _ (by rw [hfirst, hlen])
        have hkind := (length_groupSlots_eq_iff before a rest).mp (by rw [hfirst, hlen])
        have hgroup : GroupPlaceable before (a :: rest) ↔ ∀ b ∈ rest, b.VT = a.VT :=
          and_iff_left hkind
        rw [Placeable, hgroup, ← hiff, List.map_append, htypes, List.flatten_cons, List.map_append,
          replicate_append_eq_iff]
      · -- the group loses a location, and the rest cannot make up for it
        have hroom : t.valNo + (gs.map List.length).sum ≤ args.length := by
          rw [hargs', List.length_append, List.length_flatten, List.length_append,
            List.length_cons]
          omega
        obtain ⟨s', ss, hrun, hfinal, hss⟩ := foldlM_assignGroup_total
          (by simpa [List.length_pos_iff] using hrest) hroom ht
        refine ⟨s', first ++ ss, hrun, by rw [hfinal, hcc, CCState.placeAll_append], ?_⟩
        apply iff_of_false
        · intro h
          have hcount := congrArg List.length h
          simp only [List.length_map, List.length_append, List.flatten_cons, List.length_cons,
            List.length_flatten] at hcount
          omega
        · intro h
          have hfull := (length_groupSlots_eq_iff before a rest).mpr h.1.2
          rw [hfirst] at hfull
          exact hlen hfull

/-- Types in order are all that is at stake: the numbers come out right in any case. -/
theorem oneLocationEach_iff (args : List ArgT) (ss : List Slot) :
    OneLocationEach args (CCState.initial.placeAll ss) ↔ ss.map Slot.VT = args.map ArgT.VT := by
  unfold OneLocationEach
  rw [locs_placeAll_initial, length_slotLocs]
  constructor
  · rintro ⟨hlen, hloc⟩
    apply List.ext_getElem (by simpa using hlen)
    intro k hk hk'
    rw [List.length_map] at hk hk'
    obtain ⟨l, hl, _, hvt⟩ := hloc k hk'
    obtain ⟨_, x, hx, hxvt, _⟩ := slotLocs_getElem? hl
    rw [List.getElem?_eq_getElem hk, Option.some.injEq] at hx
    rw [List.getElem_map, List.getElem_map, hx, ← hxvt, hvt]
  · intro h
    have hlen : ss.length = args.length := by simpa using congrArg List.length h
    refine ⟨hlen, ?_⟩
    intro k hk
    have hl : k < (slotLocs 0 0 0 ss).length := by rw [length_slotLocs, hlen]; exact hk
    obtain ⟨hno, x, hx, hxvt, _⟩ := slotLocs_getElem? (List.getElem?_eq_getElem hl)
    refine ⟨_, List.getElem?_eq_getElem hl, by omega, ?_⟩
    have hk' : (ss.map Slot.VT)[k]? = (args.map ArgT.VT)[k]? := by rw [h]
    rw [List.getElem?_map, List.getElem?_map, hx, List.getElem?_eq_getElem hk] at hk'
    rw [hxvt]
    simpa using hk'

/-- On consecutively numbered arguments `AnalyzeArguments` delivers one location
per value, in order and with the value's type, if and only if every original
argument is placeable. -/
theorem analyzeArguments_covers_iff (origs : List OrigArg) :
    ∃ cc, analyzeArguments false (origArgs origs) = some cc ∧
      (OneLocationEach (origArgs origs) cc ↔ Placeable 0 (origGroups origs)) := by
  obtain ⟨s', ss, hrun, hcc, hiff⟩ := @foldlM_assignGroup_covers (origArgs origs) []
    (origGroups origs) 0 .initial rfl (nonempty_origGroups origs) rfl rfl (Or.inl ⟨rfl, rfl⟩)
  refine ⟨s'.cc, ?_, ?_⟩
  · simp only [analyzeArguments, Bool.false_eq_true, ↓reduceIte, parseFunctionArgs_origArgs, bind,
      Option.bind, hrun]
  · rw [hcc]
    exact (oneLocationEach_iff _ ss).trans hiff

def OrigArg.single (vt : MVT) : OrigArg := ⟨⟨vt, ⟨false, 0, 0⟩⟩, []⟩

/-- Four scalars fill the registers, and the vector behind them has no location. -/
theorem analyzeArguments_drops_vector :
    ∃ cc, analyzeArguments false (origArgs [.single .i32, .single .i32, .single .i32, .single .i32,
        .single .v2i32]) = some cc ∧
      ¬ OneLocationEach (origArgs [.single .i32, .single .i32, .single .i32, .single .i32,
        .single .v2i32]) cc := by
  refine ⟨_, rfl, ?_⟩
  intro h
  exact absurd h.1 (by decide)

end Mandarin.CallConv
