import Mandarin.CallConv.Coverage
import Mandarin.CallConv.RoundTrip

/-! # All or nothing

Original arguments take registers as long as all their parts fit and all arguments
before them did; from then on they go to the stack, as aggregates by value always do.
The number of parts in front of an argument decides: it is in registers when that
number, its own parts included, is within `nbRegs`. The slots of an argument follow
from it, and from the slots everything about the locations.
-/

namespace Mandarin.CallConv

open Layout

/-! ## Arguments -/

/-- An original argument: an aggregate by value or a group of scalars. -/
inductive FixedArg where
  | byVal (VT : MVT) (size : Word) (logAlign : Fin 32)
  | scalars (head : ScalarVT) (rest : List ScalarVT)

namespace FixedArg

def orig : FixedArg → OrigArg
  | byVal VT size logAlign => ⟨.byVal VT size logAlign, []⟩
  | scalars head rest => ⟨head.part, rest.map ScalarVT.part⟩

def isByVal : FixedArg → Bool
  | byVal _ _ _ => true
  | scalars _ _ => false

def numParts : FixedArg → Nat
  | byVal _ _ _ => 1
  | scalars _ rest => rest.length + 1

/-- The parts that compete for registers. -/
def regParts : FixedArg → Nat
  | byVal _ _ _ => 0
  | scalars _ rest => rest.length + 1

def block : FixedArg → Request
  | byVal _ size logAlign => ⟨max size.toNat 2, max (2 ^ logAlign.val) 2⟩
  | scalars _ _ => ⟨4, 4⟩

end FixedArg

def fixedArgs (args : List FixedArg) : List ArgT := origArgs (args.map FixedArg.orig)

def firstPart (args : List FixedArg) (i : Nat) : Nat := totalSize FixedArg.numParts (args.take i)

/-- The blocks the arguments need behind `before` parts that compete for registers. -/
def stackBlocks (before : Nat) : List FixedArg → List Request
  | [] => []
  | .byVal VT size logAlign :: args =>
      (FixedArg.byVal VT size logAlign).block :: stackBlocks before args
  | .scalars _ rest :: args =>
      (if before + (rest.length + 1) ≤ nbRegs then []
        else List.replicate (rest.length + 1) ⟨4, 4⟩) ++
        stackBlocks (before + (rest.length + 1)) args

def totalStackSize (args : List FixedArg) : Nat := stop 0 (stackBlocks 0 args)

/-! ## The rule -/

def PassedInRegs (args : List FixedArg) (cc : CCState) (i : Nat) : Prop :=
  ∃ a, args[i]? = some a ∧ ∀ j < a.numParts, ∃ l r,
    cc.locs[firstPart args i + j]? = some l ∧ l.loc = .reg r

def PassedOnStack (args : List FixedArg) (cc : CCState) (i : Nat) : Prop :=
  ∃ a, args[i]? = some a ∧ ∀ j < a.numParts, ∃ l offset,
    cc.locs[firstPart args i + j]? = some l ∧ l.loc = .mem offset

def regsHandedOut (cc : CCState) (m : Nat) : List Reg :=
  (cc.locs.take m).filterMap CCValAssign.reg?

/-- Part `k` is in the stack area, at `start`, and needs the block `r`. -/
def StackPart (args : List FixedArg) (cc : CCState) (k : Nat) (start : Nat) (r : Request) : Prop :=
  ∃ i a j l offset, args[i]? = some a ∧ j < a.numParts ∧ k = firstPart args i + j ∧ r = a.block ∧
    cc.locs[k]? = some l ∧ l.loc = .mem offset ∧ start = offset.toNat

structure AllOrNothing (args : List FixedArg) (cc : CCState) : Prop where
  /-- There is a location for each part. -/
  located : cc.locs.length = (fixedArgs args).length
  /-- A register asked for is there. -/
  registerLeft : ∀ l ∈ cc.locs, l.loc ≠ .reg .NoRegister
  whole : ∀ i < args.length, PassedInRegs args cc i ∨ PassedOnStack args cc i
  byVal : ∀ i a, args[i]? = some a → a.isByVal = true → PassedOnStack args cc i
  /-- In registers like all before it, if its parts fit the registers they left. -/
  greedy : ∀ i a, args[i]? = some a → a.isByVal = false →
    (PassedInRegs args cc i ↔
      (∀ j b, j < i → args[j]? = some b → b.isByVal = false → PassedInRegs args cc j) ∧
        a.numParts ≤ nbRegs - (regsHandedOut cc (firstPart args i)).length)
  /-- `R0`, `R1`, ... in order. -/
  inOrder : regsHandedOut cc cc.locs.length =
    regList.take (regsHandedOut cc cc.locs.length).length
  ordered : ∀ j k o p r q, j < k → StackPart args cc j o r → StackPart args cc k p q →
    o + r.size ≤ p
  aligned : ∀ k o r, StackPart args cc k o r → r.align ∣ o
  reserved : ∀ k o r, StackPart args cc k o r → o + r.size ≤ cc.getNextStackOffset.toNat

/-! ## Slots of the arguments -/

def FixedArg.slots (before : Nat) : FixedArg → List Slot
  | byVal VT size logAlign => [.byVal VT (Part.byVal VT size logAlign).flags]
  | scalars head rest =>
      if before + (rest.length + 1) ≤ nbRegs then List.replicate (rest.length + 1) (.reg head.VT)
      else List.replicate (rest.length + 1) (.stack head.VT)

def argSlots (before : Nat) : List FixedArg → List Slot
  | [] => []
  | a :: args => a.slots before ++ argSlots (before + a.regParts) args

theorem FixedArg.length_slots (before : Nat) (a : FixedArg) :
    (a.slots before).length = a.numParts := by
  cases a with
  | byVal VT size logAlign => rfl
  | scalars head rest =>
      show (if _ then _ else _ : List Slot).length = rest.length + 1
      split <;> rw [List.length_replicate]

theorem FixedArg.length_parts (a : FixedArg) : a.orig.parts.length = a.numParts := by
  cases a with
  | byVal VT size logAlign => rfl
  | scalars head rest => simp [orig, OrigArg.parts, numParts]

theorem request_byVal (VT : MVT) (size : Word) (logAlign : Fin 32) :
    (Slot.byVal VT (Part.byVal VT size logAlign).flags).request =
      some (FixedArg.byVal VT size logAlign).block := by
  have hsize := toNat_atLeast_two size
  have halign := toNat_atLeast_two (Part.byVal VT size logAlign).flags.byValAlign
  rw [Part.byVal_align] at halign
  rw [FixedArg.block, ← hsize, ← halign]
  rfl

theorem slots_numberFrom (before i : Nat) (args : List FixedArg) :
    slots before (numberFrom i ((args.map FixedArg.orig).map OrigArg.parts)) =
      argSlots before args := by
  induction args generalizing before i with
  | nil => rfl
  | cons a args ih =>
      cases a with
      | byVal VT size logAlign =>
          have hrest := ih (before + 0) (i + 1)
          simp only [List.map_cons, numberFrom, FixedArg.orig, OrigArg.parts, List.map_nil, slots,
            Part.arg, Part.byVal, Bool.not_true, Bool.false_and, Bool.false_eq_true,
            ↓reduceIte, candidates, groupSlots]
          rw [hrest]
          rfl
      | scalars head rest =>
          have hrest := ih (before + (rest.length + 1)) (i + 1)
          simp only [List.map_cons, numberFrom, FixedArg.orig, OrigArg.parts, slots, Part.arg, ScalarVT.part,
            List.length_map, head.scalar, Bool.not_true, Bool.and_false, Bool.false_eq_true,
            ↓reduceIte, candidates, groupSlots]
          rw [hrest, argSlots, FixedArg.slots, FixedArg.regParts]
          simp only [decide_eq_true_eq]

theorem length_argSlots (before : Nat) (args : List FixedArg) :
    (argSlots before args).length = totalSize FixedArg.numParts args := by
  induction args generalizing before with
  | nil => rfl
  | cons a args ih =>
      rw [argSlots, List.length_append, a.length_slots, ih]
      rfl

theorem argSlots_append (before : Nat) (args args' : List FixedArg) :
    argSlots before (args ++ args') =
      argSlots before args ++ argSlots (before + totalSize FixedArg.regParts args) args' := by
  induction args generalizing before with
  | nil => rfl
  | cons a args ih =>
      have hsum : totalSize FixedArg.regParts (a :: args) =
          a.regParts + totalSize FixedArg.regParts args := rfl
      rw [List.cons_append, argSlots, argSlots, ih, hsum, Nat.add_assoc, List.append_assoc]

def partsBefore (args : List FixedArg) (i : Nat) : Nat :=
  totalSize FixedArg.regParts (args.take i)

theorem take_argSlots (args : List FixedArg) (i : Nat) :
    (argSlots 0 args).take (firstPart args i) = argSlots 0 (args.take i) := by
  conv_lhs => rw [← List.take_append_drop i args, argSlots_append]
  apply List.take_left'
  rw [length_argSlots, List.take_append_drop]
  rfl

section
variable {args : List FixedArg} {i : Nat} {a : FixedArg} (ha : args[i]? = some a)
include ha

theorem argSlots_getElem? {j : Nat} (hj : j < a.numParts) :
    (argSlots 0 args)[firstPart args i + j]? = (a.slots (partsBefore args i))[j]? := by
  have hsplit := eq_take_append ha
  have hfirst : (argSlots 0 (args.take i)).length = firstPart args i := length_argSlots 0 _
  conv_lhs => rw [hsplit, argSlots_append, argSlots]
  rw [← hsplit, ← hfirst, List.getElem?_append_right (Nat.le_add_right _ _), Nat.add_sub_cancel_left,
    List.getElem?_append_left (by rw [a.length_slots]; exact hj), Nat.zero_add]
  rfl

theorem slot_of_fits (hb : a.isByVal = false) (hfit : partsBefore args i + a.numParts ≤ nbRegs)
    {j : Nat} (hj : j < a.numParts) :
    ∃ vt, (argSlots 0 args)[firstPart args i + j]? = some (.reg vt) := by
  rw [argSlots_getElem? ha hj]
  cases a with
  | byVal VT size logAlign => cases hb
  | scalars head rest =>
      have hfit : partsBefore args i + (rest.length + 1) ≤ nbRegs := hfit
      refine ⟨head.VT, ?_⟩
      rw [FixedArg.slots, if_pos hfit]
      exact List.getElem?_replicate_of_lt hj

theorem slot_of_not_fits (h : a.isByVal = false → nbRegs < partsBefore args i + a.numParts)
    {j : Nat} (hj : j < a.numParts) :
    ∃ x, (argSlots 0 args)[firstPart args i + j]? = some x ∧ x.request = some a.block := by
  rw [argSlots_getElem? ha hj]
  cases a with
  | byVal VT size logAlign =>
      refine ⟨.byVal VT (Part.byVal VT size logAlign).flags, ?_, ?_⟩
      · have hzero : j = 0 := Nat.lt_one_iff.mp hj
        rw [hzero]
        rfl
      · exact request_byVal VT size logAlign
  | scalars head rest =>
      have hfit : ¬ partsBefore args i + (rest.length + 1) ≤ nbRegs := Nat.not_le_of_lt (h rfl)
      refine ⟨.stack head.VT, ?_, rfl⟩
      rw [FixedArg.slots, if_neg hfit]
      exact List.getElem?_replicate_of_lt hj

end

theorem argGroups_fixedArgs (args : List FixedArg) :
    argGroups (fixedArgs args) = origGroups (args.map FixedArg.orig) :=
  argGroups_eq (parseFunctionArgs_origArgs (args.map FixedArg.orig)) rfl

/-! ## The slots of a call -/

theorem callEntries_parts (i : Nat) (args : List CallArg) :
    (callEntries i args).map Prod.fst =
      (numberFrom i (args.map fun c => c.parts.map Prod.fst)).flatten := by
  induction args generalizing i with
  | nil => rfl
  | cons c args ih =>
      rw [callEntries, List.map_append, ih, CallArg.entries, List.map_map, List.map_cons, numberFrom,
        List.flatten_cons, List.map_map]
      rfl

/-- A call without empty groups has the slots of its arguments. -/
theorem callSlots_eq_argSlots {args : List CallArg} (hcount : args.length < 2 ^ 32)
    {fixed : List FixedArg}
    (h : (args.map fun c => c.parts.map Prod.fst) = fixed.map fun a => a.orig.parts) :
    callSlots args = argSlots 0 fixed := by
  have hargs : callArgs args = fixedArgs fixed := by
    rw [callArgs, callEntries_parts, h, fixedArgs, origArgs, origGroups, numbered, List.map_map]
    rfl
  rw [← slots_callArgs hcount, hargs, argGroups_fixedArgs]
  exact slots_numberFrom 0 0 fixed

/-! ## The analysis -/

theorem analyzeArguments_fixedArgs (args : List FixedArg) :
    analyzeArguments false (fixedArgs args) = some (CCState.initial.placeAll (argSlots 0 args)) := by
  have hparse := parseFunctionArgs_origArgs (args.map FixedArg.orig)
  have hgroups := argGroups_fixedArgs args
  rw [← slots_numberFrom 0 0 args]
  show _ = some (CCState.initial.placeAll (slots 0 (origGroups (args.map FixedArg.orig))))
  rw [← hgroups]
  apply analyzeArguments_eq_placeAll hparse
  intro g hg
  have hg : g ∈ argGroups (fixedArgs args) := hg
  rw [hgroups] at hg
  obtain ⟨k, hk⟩ := List.getElem?_of_mem hg
  rw [origGroups, numbered, numberFrom_getElem?, List.map_map, List.getElem?_map] at hk
  obtain ⟨parts, hparts, rfl⟩ := Option.map_eq_some_iff.mp hk
  obtain ⟨a, _, rfl⟩ := Option.map_eq_some_iff.mp hparts
  cases a with
  | byVal VT size logAlign => exact ⟨_, [], rfl, fun _ => rfl⟩
  | scalars head rest => exact ⟨_, _, rfl, fun hb => by cases hb⟩

theorem length_fixedArgs (args : List FixedArg) :
    (fixedArgs args).length = totalSize FixedArg.numParts args := by
  have hlen : ∀ i, ((numberFrom i ((args.map FixedArg.orig).map OrigArg.parts)).flatten).length =
      totalSize FixedArg.numParts args := by
    induction args with
    | nil =>
        intro i
        rfl
    | cons a args ih =>
        intro i
        rw [List.map_cons, List.map_cons, numberFrom, List.flatten_cons, List.length_append, ih,
          List.length_map, a.length_parts]
        rfl
  exact hlen 0

theorem powerAligned_argSlots (before : Nat) (args : List FixedArg) :
    PowerAligned (argSlots before args) := by
  intro vt flags hmem
  induction args generalizing before with
  | nil => cases hmem
  | cons a args ih =>
      rw [argSlots, List.mem_append] at hmem
      cases hmem with
      | inr hrest => exact ih _ hrest
      | inl hfirst =>
          cases a with
          | byVal VT size logAlign =>
              cases List.mem_singleton.mp hfirst
              exact ⟨logAlign.val, Part.byVal_align _ size logAlign⟩
          | scalars head rest =>
              rw [FixedArg.slots] at hfirst
              split at hfirst <;> cases List.eq_of_mem_replicate hfirst

theorem stackRequests_argSlots (before : Nat) (args : List FixedArg) :
    stackRequests (argSlots before args) = stackBlocks before args := by
  induction args generalizing before with
  | nil => rfl
  | cons a args ih =>
      rw [argSlots, stackRequests_append, ih]
      cases a with
      | byVal VT size logAlign =>
          have hfirst : stackRequests ((FixedArg.byVal VT size logAlign).slots before) =
              [(FixedArg.byVal VT size logAlign).block] :=
            stackRequests_cons_some [] (request_byVal VT size logAlign)
          rw [hfirst]
          rfl
      | scalars head rest =>
          have hfirst : stackRequests ((FixedArg.scalars head rest).slots before) =
              if before + (rest.length + 1) ≤ nbRegs then []
              else List.replicate (rest.length + 1) ⟨4, 4⟩ := by
            rw [FixedArg.slots, stackRequests]
            split
            · rw [List.filterMap_replicate]
              rfl
            · rw [List.filterMap_replicate]
              rfl
          rw [hfirst]
          rfl

/-! ## Locations of the parts -/

def analysis (args : List FixedArg) : CCState := CCState.initial.placeAll (argSlots 0 args)

theorem analysis_locs (args : List FixedArg) :
    (analysis args).locs = slotLocs 0 0 0 (argSlots 0 args) := locs_placeAll_initial _

theorem loc_of_reg {args : List FixedArg} {k : Nat} {vt : MVT}
    (h : (argSlots 0 args)[k]? = some (.reg vt)) :
    ∃ l r, (analysis args).locs[k]? = some l ∧ l.loc = .reg r := by
  rw [analysis_locs, slotLocs_reg h]
  exact ⟨_, _, rfl, rfl⟩

theorem loc_of_request {args : List FixedArg} {k : Nat} {x : Slot} {r : Request}
    (hx : (argSlots 0 args)[k]? = some x) (hr : x.request = some r) :
    ∃ l offset, (analysis args).locs[k]? = some l ∧ l.loc = .mem offset := by
  have hk : k < (slotLocs 0 0 0 (argSlots 0 args)).length := by
    rw [length_slotLocs]
    exact (List.getElem?_eq_some_iff.mp hx).1
  have hl := List.getElem?_eq_getElem hk
  have hreg : ∀ vt, x ≠ .reg vt := by
    rintro vt rfl
    cases hr
  obtain ⟨offset, hoffset⟩ := slotLocs_mem_loc hl hx hreg
  rw [analysis_locs]
  exact ⟨_, offset, hl, hoffset⟩

theorem regsHandedOut_eq (args : List FixedArg) (m : Nat) :
    regsHandedOut (analysis args) m =
      (List.range (regVTs ((argSlots 0 args).take m)).length).map argReg := by
  rw [regsHandedOut, analysis_locs, take_slotLocs, regs_slotLocs, List.range_eq_range']

theorem length_regVTs_argSlots_le (args : List FixedArg) :
    (regVTs (argSlots 0 args)).length ≤ nbRegs := by
  rw [← slots_numberFrom 0 0 args]
  exact length_regVTs_slots 0 _

theorem length_regVTs_argSlots {before : Nat} {args : List FixedArg}
    (h : before + totalSize FixedArg.regParts args ≤ nbRegs) :
    (regVTs (argSlots before args)).length = totalSize FixedArg.regParts args := by
  induction args generalizing before with
  | nil => rfl
  | cons a args ih =>
      have hsum : totalSize FixedArg.regParts (a :: args) =
          a.regParts + totalSize FixedArg.regParts args := rfl
      rw [hsum] at h ⊢
      rw [argSlots, regVTs_append, List.length_append, @ih (before + a.regParts) (by omega)]
      congr 1
      cases a with
      | byVal VT size logAlign => rfl
      | scalars head rest =>
          have hfit : before + (rest.length + 1) ≤ nbRegs := by
            have hparts : (FixedArg.scalars head rest).regParts = rest.length + 1 := rfl
            omega
          rw [FixedArg.slots, if_pos hfit, regVTs_replicate, List.length_replicate]
          rfl

theorem FixedArg.numParts_pos (a : FixedArg) : 0 < a.numParts := by
  cases a with
  | byVal VT size logAlign => exact Nat.one_pos
  | scalars head rest => exact Nat.succ_pos _

theorem passedOnStack_of_not_fits {args : List FixedArg} {i : Nat} {a : FixedArg}
    (ha : args[i]? = some a) (h : a.isByVal = false → nbRegs < partsBefore args i + a.numParts) :
    PassedOnStack args (analysis args) i := by
  refine ⟨a, ha, ?_⟩
  intro j hj
  obtain ⟨x, hx, hr⟩ := slot_of_not_fits ha h hj
  exact loc_of_request hx hr

/-- What decides about registers: the parts up to the end of the argument. -/
theorem passedInRegs_iff {args : List FixedArg} {i : Nat} {a : FixedArg} (ha : args[i]? = some a)
    (hb : a.isByVal = false) :
    PassedInRegs args (analysis args) i ↔ partsBefore args i + a.numParts ≤ nbRegs := by
  constructor
  · rintro ⟨b, hb', hregs⟩
    rw [ha] at hb'
    cases hb'
    by_contra hnot
    obtain ⟨l, r, hl, hr⟩ := hregs 0 a.numParts_pos
    obtain ⟨x, hx, hreq⟩ := slot_of_not_fits ha (fun _ => Nat.lt_of_not_le hnot) a.numParts_pos
    obtain ⟨l', offset, hl', hoffset⟩ := loc_of_request hx hreq
    rw [hl] at hl'
    cases hl'
    rw [hr] at hoffset
    cases hoffset
  · intro hfit
    refine ⟨a, ha, ?_⟩
    intro j hj
    obtain ⟨vt, hvt⟩ := slot_of_fits ha hb hfit hj
    exact loc_of_reg hvt

theorem partsBefore_succ {args : List FixedArg} {i : Nat} {a : FixedArg} (ha : args[i]? = some a) :
    partsBefore args (i + 1) = partsBefore args i + a.regParts := by
  rw [partsBefore, List.take_add_one, ha]
  simp [partsBefore, totalSize]

theorem partsBefore_mono (args : List FixedArg) {i j : Nat} (h : i ≤ j) :
    partsBefore args i ≤ partsBefore args j := by
  induction j with
  | zero => rw [Nat.le_zero.mp h]
  | succ j ih =>
      rcases Nat.lt_or_ge i (j + 1) with hlt | hge
      · refine Nat.le_trans (ih (Nat.le_of_lt_succ hlt)) ?_
        cases hj : args[j]? with
        | none =>
            have hlen := List.getElem?_eq_none_iff.mp hj
            rw [partsBefore, partsBefore, List.take_of_length_le hlen,
              List.take_of_length_le (Nat.le_succ_of_le hlen)]
        | some a =>
            rw [partsBefore_succ hj]
            exact Nat.le_add_right _ _
      · rw [Nat.le_antisymm h hge]

theorem FixedArg.regParts_eq {a : FixedArg} (hb : a.isByVal = false) : a.regParts = a.numParts := by
  cases a with
  | byVal VT size logAlign => cases hb
  | scalars head rest => rfl

theorem FixedArg.regParts_byVal {a : FixedArg} (hb : a.isByVal = true) : a.regParts = 0 := by
  cases a with
  | byVal VT size logAlign => rfl
  | scalars head rest => cases hb

/-- All arguments in front of argument `i` that can be in registers are, exactly when
all their parts fit. -/
theorem all_inRegs_iff {args : List FixedArg} {i : Nat} (hi : i ≤ args.length) :
    (∀ j b, j < i → args[j]? = some b → b.isByVal = false →
      PassedInRegs args (analysis args) j) ↔ partsBefore args i ≤ nbRegs := by
  constructor
  · intro h
    induction i with
    | zero => exact Nat.zero_le _
    | succ i ih =>
        have ha := List.getElem?_eq_getElem (show i < args.length by omega)
        have hprev := ih (by omega) fun j b hj => h j b (by omega)
        rw [partsBefore_succ ha]
        by_cases hb : args[i].isByVal = true
        · rw [FixedArg.regParts_byVal hb]
          exact hprev
        · have hb : args[i].isByVal = false := by simpa using hb
          rw [FixedArg.regParts_eq hb]
          exact (passedInRegs_iff ha hb).mp (h i _ (Nat.lt_succ_self i) ha hb)
  · intro h j b hj hb hscalar
    rw [passedInRegs_iff hb hscalar, ← FixedArg.regParts_eq hscalar, ← partsBefore_succ hb]
    exact Nat.le_trans (partsBefore_mono args hj) h

/-! ## The stack area -/

section
variable {args : List FixedArg} (hsize : totalStackSize args < 2 ^ 32)
include hsize

theorem getNextStackOffset_analysis :
    (analysis args).getNextStackOffset.toNat = stop 0 (stackRequests (argSlots 0 args)) := by
  rw [totalStackSize, ← stackRequests_argSlots] at hsize
  exact @stackOffset_placeAll .initial _ (powerAligned_argSlots 0 args) hsize

/-- A part in the stack area lies where the layout of the blocks puts it. -/
theorem StackPart.slot {k o : Nat} {r : Request} (h : StackPart args (analysis args) k o r) :
    ∃ x, (argSlots 0 args)[k]? = some x ∧ x.request = some r ∧
      o = slotStart 0 (argSlots 0 args) k r := by
  obtain ⟨i, a, j, l, offset, ha, hj, rfl, rfl, hl, hoffset, rfl⟩ := h
  have hfits : a.isByVal = false → nbRegs < partsBefore args i + a.numParts := by
    intro hb
    by_contra hnot
    obtain ⟨vt, hvt⟩ := slot_of_fits ha hb (Nat.le_of_not_lt hnot) hj
    obtain ⟨l', r, hl', hr⟩ := loc_of_reg hvt
    rw [hl] at hl'
    cases hl'
    rw [hoffset] at hr
    cases hr
  obtain ⟨x, hx, hr⟩ := slot_of_not_fits ha hfits hj
  refine ⟨x, hx, hr, ?_⟩
  rw [totalStackSize, ← stackRequests_argSlots] at hsize
  have hend := @slotStart_le_stop 0 _ _ x a.block hx hr
  have hmem := @slotLocs_mem 0 0 _ 0 _ x a.block (powerAligned_argSlots 0 args) hsize hx hr
  rw [← analysis_locs, hl, Option.some.injEq] at hmem
  rw [hmem] at hoffset
  cases hoffset
  show (BitVec.ofNat 32 (slotStart 0 (argSlots 0 args) (firstPart args i + j) a.block)).toNat = _
  rw [BitVec.toNat_ofNat, Nat.mod_eq_of_lt (by omega)]

end

/-! ## The rule holds -/

theorem map_argReg_range {c : Nat} (h : c ≤ nbRegs) : (List.range c).map argReg = regList.take c := by
  have hc : c ≤ 4 := h
  interval_cases c <;> rfl

theorem regsHandedOut_all (args : List FixedArg) :
    regsHandedOut (analysis args) (analysis args).locs.length =
      regList.take (regVTs (argSlots 0 args)).length := by
  rw [regsHandedOut_eq, analysis_locs, length_slotLocs, List.take_length,
    map_argReg_range (length_regVTs_argSlots_le args)]

theorem registerLeft_analysis (args : List FixedArg) {l : CCValAssign}
    (hl : l ∈ (analysis args).locs) : l.loc ≠ .reg .NoRegister := by
  intro hnone
  have hmem : Reg.NoRegister ∈ regsHandedOut (analysis args) (analysis args).locs.length := by
    rw [regsHandedOut, List.take_length, List.mem_filterMap]
    exact ⟨l, hl, by rw [CCValAssign.reg?, hnone]⟩
  rw [regsHandedOut_all] at hmem
  exact absurd (List.mem_of_mem_take hmem) (by decide)

theorem whole_analysis {args : List FixedArg} {i : Nat} (hi : i < args.length) :
    PassedInRegs args (analysis args) i ∨ PassedOnStack args (analysis args) i := by
  have ha := List.getElem?_eq_getElem hi
  by_cases hfit : args[i].isByVal = false ∧ partsBefore args i + args[i].numParts ≤ nbRegs
  · exact .inl ((passedInRegs_iff ha hfit.1).mpr hfit.2)
  · right
    apply passedOnStack_of_not_fits ha
    intro hb
    exact Nat.lt_of_not_le fun hle => hfit ⟨hb, hle⟩

theorem passedOnStack_byVal {args : List FixedArg} {i : Nat} {a : FixedArg}
    (ha : args[i]? = some a) (hb : a.isByVal = true) : PassedOnStack args (analysis args) i := by
  apply passedOnStack_of_not_fits ha
  intro hscalar
  rw [hb] at hscalar
  cases hscalar

theorem greedy_analysis {args : List FixedArg} {i : Nat} {a : FixedArg} (ha : args[i]? = some a)
    (hb : a.isByVal = false) :
    PassedInRegs args (analysis args) i ↔
      (∀ j b, j < i → args[j]? = some b → b.isByVal = false →
        PassedInRegs args (analysis args) j) ∧
        a.numParts ≤ nbRegs - (regsHandedOut (analysis args) (firstPart args i)).length := by
  have hi := (List.getElem?_eq_some_iff.mp ha).1
  have hcount : partsBefore args i ≤ nbRegs →
      (regsHandedOut (analysis args) (firstPart args i)).length = partsBefore args i := by
    intro hle
    rw [regsHandedOut_eq, take_argSlots, List.length_map, List.length_range]
    exact length_regVTs_argSlots (by rw [Nat.zero_add]; exact hle)
  have hpos := a.numParts_pos
  rw [passedInRegs_iff ha hb, all_inRegs_iff (Nat.le_of_lt hi)]
  constructor
  · intro hfit
    have hle : partsBefore args i ≤ nbRegs := Nat.le_trans (Nat.le_add_right _ _) hfit
    rw [hcount hle]
    exact ⟨hle, by omega⟩
  · rintro ⟨hle, hleft⟩
    rw [hcount hle] at hleft
    omega

/-- `AnalyzeArguments` passes every original argument as a whole, in registers as long
as they last, and lays out the stack parts in order within what `LowerCall` reserves. -/
theorem analyzeArguments_allOrNothing (args : List FixedArg) (hsize : totalStackSize args < 2 ^ 32) :
    ∃ cc, analyzeArguments false (fixedArgs args) = some cc ∧ AllOrNothing args cc ∧
      ∀ (α : Type) (outVals : List α) (call : LoweredCall α),
        lowerCall false (fixedArgs args) outVals = some call →
          call.numBytes = cc.getNextStackOffset := by
  have hanalysis := analyzeArguments_fixedArgs args
  refine ⟨analysis args, hanalysis, ?_, ?_⟩
  · constructor
    · rw [analysis_locs, length_slotLocs, length_argSlots, length_fixedArgs]
    · intro l hl
      exact registerLeft_analysis args hl
    · intro i hi
      exact whole_analysis hi
    · intro i a ha hb
      exact passedOnStack_byVal ha hb
    · intro i a ha hb
      exact greedy_analysis ha hb
    · rw [regsHandedOut_all, List.length_take]
      exact congrArg (fun c => regList.take c) (Nat.min_eq_left (length_regVTs_argSlots_le args)).symm
    · intro j k o p r q hjk hj hk
      obtain ⟨x, hx, hr, rfl⟩ := hj.slot hsize
      obtain ⟨y, _, hq, rfl⟩ := hk.slot hsize
      exact slotStart_ordered hjk hx hr hq
    · intro k o r hk
      obtain ⟨x, _, _, rfl⟩ := hk.slot hsize
      exact dvd_roundUp _ _
    · intro k o r hk
      obtain ⟨x, hx, hr, rfl⟩ := hk.slot hsize
      rw [getNextStackOffset_analysis hsize]
      exact slotStart_le_stop hx hr
  · intro α outVals call hcall
    exact numBytes_lowerCall hanalysis hcall

/-- Two words in registers, an aggregate, three words that no longer fit, and one that
would but comes behind them. -/
def mixedArgs : List FixedArg :=
  [.scalars ⟨.i32, MVT.isScalar_i32⟩ [⟨.f32, MVT.isScalar_f32⟩],
   .byVal .i32 5 0,
   .scalars ⟨.i32, MVT.isScalar_i32⟩ [⟨.i32, MVT.isScalar_i32⟩, ⟨.i32, MVT.isScalar_i32⟩],
   .scalars ⟨.f32, MVT.isScalar_f32⟩ []]

theorem mixedArgs_allOrNothing :
    totalStackSize mixedArgs < 2 ^ 32 ∧
      ∃ cc, analyzeArguments false (fixedArgs mixedArgs) = some cc ∧ AllOrNothing mixedArgs cc := by
  have hsize : totalStackSize mixedArgs < 2 ^ 32 := by decide
  obtain ⟨cc, hcc, hrule, _⟩ := analyzeArguments_allOrNothing mixedArgs hsize
  exact ⟨hsize, cc, hcc, hrule⟩

end Mandarin.CallConv
