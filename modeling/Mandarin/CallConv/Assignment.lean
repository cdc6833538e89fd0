import Mandarin.CallConv.Arguments
import Mathlib.Data.List.Flatten
import Mathlib.Tactic.Cases

/-! # The group loop, value by value

A group takes the next `Parts` registers, or the stack, or, when it starts with
a byval entry, one stack area. `slots` lists these decisions for the values of a
list of groups, and `placeAll` carries them out one value at a time. The count
of register candidates seen so far decides everything: a group is passed in
registers exactly when that count, the group included, stays within `nbRegs`.
-/

namespace Mandarin.CallConv

open Layout

inductive Slot where
  | byVal (vt : MVT) (flags : ArgFlagsTy)
  | reg (vt : MVT)
  | stack (vt : MVT)
  deriving DecidableEq, Repr

def Slot.VT : Slot → MVT
  | byVal vt _ | reg vt | stack vt => vt

/-- The decision for the values of a group of `parts` values that starts with `a`
and does or does not fit the registers left. -/
def groupSlots (fits : Bool) (a : ArgT) (parts : Nat) : List Slot :=
  if a.flags.isByVal then [.byVal a.VT a.flags]
  else if fits then List.replicate parts (.reg a.VT)
  else if a.VT.isScalar then List.replicate parts (.stack a.VT)
  else []

def candidates (a : ArgT) (parts : Nat) : Nat := if a.flags.isByVal then 0 else parts

/-- The decisions for a list of groups, `before` register candidates having been
seen. From the first vector group past the registers on nothing is assigned. -/
def slots (before : Nat) : List (List ArgT) → List Slot
  | [] => []
  | [] :: gs => slots before gs
  | (a :: g) :: gs =>
      let fits := decide (before + (g.length + 1) ≤ nbRegs)
      if !a.flags.isByVal && !fits && !a.VT.isScalar then []
      else groupSlots fits a (g.length + 1) ++ slots (before + candidates a (g.length + 1)) gs

namespace CCState

def place (st : CCState) : Slot → CCState
  | .byVal vt flags => st.handleByVal st.locs.length vt vt .Full 2 2 flags
  | .reg vt =>
      let (reg, cc) := st.allocateReg regList
      cc.addLoc (.getReg st.locs.length vt reg vt .Full)
  | .stack vt =>
      let (offset, cc) := st.allocateStack 4 4
      cc.addLoc (.getMem st.locs.length vt offset vt .Full)

def placeAll (st : CCState) (ss : List Slot) : CCState := ss.foldl place st

@[simp] theorem placeAll_nil (st : CCState) : st.placeAll [] = st := rfl

@[simp] theorem placeAll_cons (st : CCState) (x : Slot) (ss : List Slot) :
    st.placeAll (x :: ss) = (st.place x).placeAll ss := rfl

theorem placeAll_append (st : CCState) (ss ts : List Slot) :
    st.placeAll (ss ++ ts) = (st.placeAll ss).placeAll ts := List.foldl_append ..

@[simp] theorem length_place (st : CCState) (x : Slot) :
    (st.place x).locs.length = st.locs.length + 1 := by
  cases x <;> simp [place, handleByVal, allocateStack]

@[simp] theorem length_placeAll (st : CCState) (ss : List Slot) :
    (st.placeAll ss).locs.length = st.locs.length + ss.length := by
  induction ss generalizing st with
  | nil => rfl
  | cons x ss ih => rw [placeAll_cons, ih, length_place, List.length_cons]; omega

end CCState

/-! ## One group -/

/-- The value counter points behind the last location. -/
def AnalyzeState.Synced (s : AnalyzeState) : Prop := s.valNo = s.cc.locs.length

theorem assignRegs_eq (vt : MVT) (parts : Nat) (s : AnalyzeState) (hs : s.Synced) :
    assignRegs vt parts s =
      { s with
        cc := s.cc.placeAll (List.replicate parts (.reg vt))
        valNo := s.valNo + parts
        regsLeft := s.regsLeft - parts } := by
  induction parts generalizing s with
  | zero => rfl
  | succ parts ih =>
      have hplace : (s.cc.allocateReg regList).2.addLoc
          (.getReg s.valNo vt (s.cc.allocateReg regList).1 vt .Full) = s.cc.place (.reg vt) := by
        simp only [CCState.place, hs.symm]
      simp only [assignRegs, hplace]
      rw [ih]
      · simp only [List.replicate_succ, CCState.placeAll_cons, AnalyzeState.mk.injEq, true_and]
        omega
      · simp only [AnalyzeState.Synced, CCState.length_place, hs.symm]

theorem assignStack_scalar (vt : MVT) (flags : ArgFlagsTy) (parts : Nat) (s : AnalyzeState)
    (hs : s.Synced) (hb : flags.isByVal = false) (hvt : vt.isScalar = true) :
    assignStack vt flags parts s =
      { s with
        cc := s.cc.placeAll (List.replicate parts (.stack vt))
        valNo := s.valNo + parts } := by
  have hscalar : vt = .i32 ∨ vt = .f32 := by cases vt <;> simp_all [MVT.isScalar]
  induction parts generalizing s with
  | zero => rfl
  | succ parts ih =>
      have hplace : (s.cc.allocateStack 4 4).2.addLoc
          (.getMem s.valNo vt (s.cc.allocateStack 4 4).1 vt .Full) = s.cc.place (.stack vt) := by
        simp only [CCState.place, hs.symm]
      simp only [assignStack, hb, Bool.false_eq_true, ↓reduceIte, hscalar, hplace]
      rw [ih]
      · simp only [List.replicate_succ, CCState.placeAll_cons, AnalyzeState.mk.injEq, true_and]
        omega
      · simp only [AnalyzeState.Synced, CCState.length_place, hs.symm]

theorem assignStack_vector (vt : MVT) (flags : ArgFlagsTy) (parts : Nat) (s : AnalyzeState)
    (hb : flags.isByVal = false) (hvt : vt.isScalar = false) :
    assignStack vt flags parts s = s := by
  have hvector : ¬ (vt = .i32 ∨ vt = .f32) := by cases vt <;> simp_all [MVT.isScalar]
  induction parts with
  | zero => rfl
  | succ parts ih => simpa [assignStack, hb, hvector] using ih

def AnalyzeState.fits (s : AnalyzeState) (parts : Nat) : Bool :=
  !s.useStack && parts ≤ s.regsLeft

theorem assignGroup_spec {args : List ArgT} {s : AnalyzeState} {a : ArgT} (parts : Nat)
    (ha : args[s.valNo]? = some a) (hs : s.Synced) :
    ∃ s', assignGroup args s parts = some s' ∧
      s'.cc = s.cc.placeAll (groupSlots (s.fits parts) a parts) ∧ s'.Synced ∧
      s'.regsLeft = (if !a.flags.isByVal && s.fits parts then s.regsLeft - parts else s.regsLeft) ∧
      s'.useStack = (s.useStack || (!a.flags.isByVal && !s.fits parts)) := by
  simp only [assignGroup, ha, bind, Option.bind, ← AnalyzeState.fits.eq_1]
  by_cases hb : a.flags.isByVal = true
  · have hplace : s.cc.handleByVal s.valNo a.VT a.VT .Full 2 2 a.flags =
        s.cc.place (.byVal a.VT a.flags) := by simp only [CCState.place, hs.symm]
    refine ⟨_, by rw [if_pos hb], ?_, ?_, ?_, ?_⟩
    · simp only [groupSlots, hb, ↓reduceIte, hplace, CCState.placeAll_cons, CCState.placeAll_nil]
    · simp only [AnalyzeState.Synced, hplace, CCState.length_place, hs.symm]
    · simp [hb]
    · simp [hb]
  · have hb' : a.flags.isByVal = false := by simpa using hb
    rw [if_neg hb]
    by_cases hfit : s.fits parts = true
    · refine ⟨_, by rw [if_pos hfit, assignRegs_eq a.VT parts s hs], ?_, ?_, ?_, ?_⟩
      · simp only [groupSlots, hb', hfit, Bool.false_eq_true, ↓reduceIte]
      · simp only [AnalyzeState.Synced, CCState.length_placeAll, List.length_replicate, hs.symm]
      · simp [hb', hfit]
      · simp [hfit]
    · have hfit' : s.fits parts = false := by simpa using hfit
      rw [if_neg hfit]
      by_cases hv : a.VT.isScalar = true
      · refine ⟨_, by rw [assignStack_scalar a.VT a.flags parts { s with useStack := true } hs hb' hv],
          ?_, ?_, ?_, ?_⟩
        · simp only [groupSlots, hb', hfit', hv, Bool.false_eq_true, ↓reduceIte]
        · simp only [AnalyzeState.Synced, CCState.length_placeAll, List.length_replicate, hs.symm]
        · simp [hfit']
        · simp [hb', hfit']
      · have hv' : a.VT.isScalar = false := by simpa using hv
        refine ⟨{ s with useStack := true }, by rw [assignStack_vector a.VT a.flags parts _ hb' hv'],
          ?_, hs, ?_, ?_⟩
        · simp only [groupSlots, hb', hfit', hv', Bool.false_eq_true, ↓reduceIte,
            CCState.placeAll_nil]
        · simp [hfit']
        · simp [hb', hfit']

/-- Registers left and the stack flag mirror the number of register candidates
seen so far. -/
def AnalyzeState.Mirrors (s : AnalyzeState) (before : Nat) : Prop :=
  (s.useStack = false ∧ before + s.regsLeft = nbRegs) ∨ (s.useStack = true ∧ nbRegs < before)

theorem AnalyzeState.Mirrors.fits_eq {s : AnalyzeState} {before : Nat} (h : s.Mirrors before)
    (parts : Nat) : s.fits parts = decide (before + parts ≤ nbRegs) := by
  unfold AnalyzeState.fits
  rcases h with ⟨hu, hk⟩ | ⟨hu, hk⟩
  · simp only [hu, Bool.not_false, Bool.true_and, decide_eq_decide]
    omega
  · simp only [hu, Bool.not_true, Bool.false_and, Bool.false_eq, decide_eq_false_iff_not]
    omega

theorem AnalyzeState.Mirrors.step {s s' : AnalyzeState} {before : Nat} (h : s.Mirrors before)
    {a : ArgT} {parts : Nat}
    (hregs : s'.regsLeft =
      if !a.flags.isByVal && s.fits parts then s.regsLeft - parts else s.regsLeft)
    (hstack : s'.useStack = (s.useStack || (!a.flags.isByVal && !s.fits parts))) :
    s'.Mirrors (before + candidates a parts) := by
  rw [h.fits_eq] at hregs hstack
  unfold candidates
  by_cases hb : a.flags.isByVal = true
  · simp only [hb, Bool.not_true, Bool.false_and, Bool.false_eq_true, ↓reduceIte, Bool.or_false]
      at hregs hstack ⊢
    rw [Nat.add_zero, AnalyzeState.Mirrors, hregs, hstack]
    exact h
  · have hb' : a.flags.isByVal = false := by simpa using hb
    simp only [hb', Bool.not_false, Bool.true_and, decide_eq_true_eq, Bool.false_eq_true,
      ↓reduceIte] at hregs hstack ⊢
    by_cases hfit : before + parts ≤ nbRegs
    · rw [if_pos hfit] at hregs
      simp only [hfit, decide_true, Bool.not_true, Bool.or_false] at hstack
      rcases h with ⟨hu, hk⟩ | ⟨hu, hk⟩
      · exact Or.inl ⟨by rw [hstack, hu], by omega⟩
      · omega
    · simp only [hfit, decide_false, Bool.not_false, Bool.or_true] at hstack
      exact Or.inr ⟨hstack, by omega⟩

/-- A vector group past the registers sticks: the counter stays on its first
entry, and every later group reads that entry again. -/
theorem foldlM_assignGroup_stuck {args : List ArgT} {s : AnalyzeState} {a : ArgT}
    (ha : args[s.valNo]? = some a) (hb : a.flags.isByVal = false) (hv : a.VT.isScalar = false)
    (hu : s.useStack = true) (parts : List Nat) :
    parts.foldlM (assignGroup args) s = some s := by
  induction parts with
  | nil => rfl
  | cons p parts ih =>
      have hstep : assignGroup args s p = some s := by
        simp only [assignGroup, ha, hb, hu, Bool.not_true, Bool.false_and, Bool.false_eq_true,
          ↓reduceIte, bind, Option.bind, assignStack_vector a.VT a.flags p _ hb hv]
        rw [← hu]
      simp only [List.foldlM_cons, hstep, bind, Option.bind, ih]

/-! ## All groups -/

/-- A group as the loop expects it: not empty, and alone when it is a byval. -/
def GroupOk (g : List ArgT) : Prop :=
  ∃ a rest, g = a :: rest ∧ (a.flags.isByVal = true → rest = [])

/-- The group loop carries out `slots`. -/
theorem foldlM_assignGroup {args pre : List ArgT} {gs : List (List ArgT)} {before : Nat}
    {s : AnalyzeState} (hargs : args = pre ++ gs.flatten) (hok : ∀ g ∈ gs, GroupOk g)
    (hval : s.valNo = pre.length) (hs : s.Synced) (hm : s.Mirrors before) :
    ∃ s', (gs.map List.length).foldlM (assignGroup args) s = some s' ∧
      s'.cc = s.cc.placeAll (slots before gs) := by
  induction gs generalizing pre before s with
  | nil => exact ⟨s, rfl, rfl⟩
  | cons g gs ih =>
      obtain ⟨a, rest, rfl, halone⟩ := hok g (by simp)
      have hrest : ∀ g ∈ gs, GroupOk g := fun g hg => hok g (by simp [hg])
      have ha : args[s.valNo]? = some a := by rw [hargs, hval]; simp
      have hargs' : args = (pre ++ a :: rest) ++ gs.flatten := by rw [hargs]; simp
      obtain ⟨t, hstep, hcc, ht, hregs, hstack⟩ := assignGroup_spec (rest.length + 1) ha hs
      have hmt := hm.step hregs hstack
      simp only [List.map_cons, List.foldlM_cons, List.length_cons, hstep, bind, Option.bind]
      rw [hm.fits_eq] at hcc hstack
      by_cases hstuck : (!a.flags.isByVal && !decide (before + (rest.length + 1) ≤ nbRegs) &&
          !a.VT.isScalar) = true
      · simp only [Bool.and_eq_true, Bool.not_eq_true'] at hstuck
        obtain ⟨⟨hb, hfit⟩, hv⟩ := hstuck
        have hnone : groupSlots (decide (before + (rest.length + 1) ≤ nbRegs)) a (rest.length + 1) =
            [] := by simp [groupSlots, hb, hfit, hv]
        rw [hnone, CCState.placeAll_nil] at hcc
        refine ⟨t, ?_, ?_⟩
        · apply foldlM_assignGroup_stuck _ hb hv
          · rw [hstack, hb, hfit]
            simp
          · rw [ht, hcc, ← hs]
            exact ha
        · simp [hcc, slots, hb, hfit, hv]
      · have hlen : (groupSlots (decide (before + (rest.length + 1) ≤ nbRegs)) a
            (rest.length + 1)).length = rest.length + 1 := by
          unfold groupSlots
          split
          · simp [halone ‹_›]
          · split
            · simp
            · split
              · simp
              · simp_all
        have hvt : t.valNo = (pre ++ a :: rest).length := by
          rw [ht, hcc, CCState.length_placeAll, hlen, ← hs, hval]
          simp
        obtain ⟨s', hrun, hfinal⟩ := ih hargs' hrest hvt ht hmt
        refine ⟨s', hrun, ?_⟩
        rw [hfinal, hcc, slots, if_neg hstuck, CCState.placeAll_append]

end Mandarin.CallConv
