import Mandarin.CallConv.Assignment
import Mathlib.Tactic.IntervalCases

/-! # The locations handed out

`AllocateReg` takes the registers of the list in order, because each value that
takes one marks only that one of the list. The list of locations is therefore a
function of the slots alone.
-/

namespace Mandarin.CallConv

open Layout

def argReg (n : Nat) : Reg := regList.getD n .NoRegister

theorem argReg_eq {n : Nat} (h : n < nbRegs) : argReg n = .R ⟨n, by simp [nbRegs, regList] at h; omega⟩ := by
  have hn : n < 4 := h
  interval_cases n <;> rfl

theorem argReg_of_ge {n : Nat} (h : nbRegs ≤ n) : argReg n = .NoRegister := by
  have hlen : regList.length ≤ n := h
  simp [argReg, List.getElem?_eq_none hlen]

def CCState.RegsTaken (st : CCState) (n : Nat) : Prop :=
  ∀ i < nbRegs, st.usedRegs (argReg i) = decide (i < n)

theorem CCState.regsTaken_initial : CCState.initial.RegsTaken 0 := by
  intro i _
  simp [initial]

theorem CCState.RegsTaken.allocateReg {st : CCState} {n : Nat} (h : st.RegsTaken n) :
    (st.allocateReg regList).1 = argReg n ∧ (st.allocateReg regList).2.RegsTaken (n + 1) := by
  have h0 : st.usedRegs (.R 0) = decide (0 < n) := h 0 (by decide)
  have h1 : st.usedRegs (.R 1) = decide (1 < n) := h 1 (by decide)
  have h2 : st.usedRegs (.R 2) = decide (2 < n) := h 2 (by decide)
  have h3 : st.usedRegs (.R 3) = decide (3 < n) := h 3 (by decide)
  have hfind : regList.find? (fun r => !st.usedRegs r) =
      if n < nbRegs then some (argReg n) else none := by
    rcases Nat.lt_or_ge n nbRegs with hn | hn
    · have hn' : n < 4 := hn
      interval_cases n <;> simp [regList, nbRegs, argReg, h0, h1, h2, h3]
    · have hn' : 4 ≤ n := hn
      have e0 : decide (0 < n) = true := decide_eq_true (by omega)
      have e1 : decide (1 < n) = true := decide_eq_true (by omega)
      have e2 : decide (2 < n) = true := decide_eq_true (by omega)
      have e3 : decide (3 < n) = true := decide_eq_true (by omega)
      simp [regList, nbRegs, h0, h1, h2, h3, e0, e1, e2, e3]
      omega
  unfold CCState.allocateReg
  rw [hfind]
  by_cases hn : n < nbRegs
  · rw [if_pos hn]
    refine ⟨rfl, ?_⟩
    intro i hi
    show (st.usedRegs (argReg i) || (argReg n).overlaps (argReg i)) = decide (i < n + 1)
    rw [h i hi, argReg_eq hn, argReg_eq hi, Reg.overlaps_R, ← Bool.coe_iff_coe]
    simp
    omega
  · rw [if_neg hn]
    refine ⟨(argReg_of_ge (Nat.le_of_not_lt hn)).symm, ?_⟩
    intro i hi
    rw [h i hi, decide_eq_decide]
    omega

/-- Locations of a list of slots: `n` registers are taken, `v` values are
assigned and the stack area ends at `off`. -/
def slotLocs (n v : Nat) (off : Word) : List Slot → List CCValAssign
  | [] => []
  | .byVal vt flags :: ss =>
      let offset := alignUp off (CCState.atLeast 2 flags.byValAlign)
      .getMem v vt offset vt .Full ::
        slotLocs n (v + 1) (offset + CCState.atLeast 2 flags.byValSize) ss
  | .reg vt :: ss => .getReg v vt (argReg n) vt .Full :: slotLocs (n + 1) (v + 1) off ss
  | .stack vt :: ss =>
      let offset := alignUp off 4
      .getMem v vt offset vt .Full :: slotLocs n (v + 1) (offset + 4) ss

theorem CCState.placeAll_locs {st : CCState} {n : Nat} (h : st.RegsTaken n) (ss : List Slot) :
    (st.placeAll ss).locs = st.locs ++ slotLocs n st.locs.length st.stackOffset ss := by
  induction ss generalizing st n with
  | nil => simp [slotLocs]
  | cons x ss ih =>
      cases x with
      | byVal vt flags =>
          rw [placeAll_cons, @ih (st.place (.byVal vt flags)) n h]
          simp [place, handleByVal, allocateStack, slotLocs]
      | reg vt =>
          obtain ⟨hreg, htaken⟩ := h.allocateReg
          rw [placeAll_cons, @ih (st.place (.reg vt)) (n + 1) htaken]
          simp [place, slotLocs, hreg]
      | stack vt =>
          rw [placeAll_cons, @ih (st.place (.stack vt)) n h]
          simp [place, allocateStack, slotLocs]

@[simp] theorem length_slotLocs (n v : Nat) (off : Word) (ss : List Slot) :
    (slotLocs n v off ss).length = ss.length := by
  induction ss generalizing n v off with
  | nil => rfl
  | cons x ss ih => cases x <;> simp [slotLocs, ih]

/-- Locations are numbered in order and carry the type of their slot, as value
type and as location type. -/
theorem slotLocs_getElem? {n v k : Nat} {off : Word} {ss : List Slot} {l : CCValAssign}
    (h : (slotLocs n v off ss)[k]? = some l) :
    l.valNo = v + k ∧ ∃ x, ss[k]? = some x ∧ l.valVT = x.VT ∧ l.locVT = x.VT := by
  induction ss generalizing n v off k with
  | nil => simp [slotLocs] at h
  | cons x ss ih =>
      cases k with
      | zero =>
          cases x <;> simp only [slotLocs, List.getElem?_cons_zero, Option.some.injEq] at h <;>
            subst h <;> simp [CCValAssign.getMem, CCValAssign.getReg, Slot.VT]
      | succ k =>
          cases x <;> simp only [slotLocs, List.getElem?_cons_succ] at h ⊢ <;>
            obtain ⟨hno, hx⟩ := ih h <;> exact ⟨by omega, hx⟩

theorem slotLocs_mem_loc {n v k : Nat} {off : Word} {ss : List Slot} {l : CCValAssign} {x : Slot}
    (h : (slotLocs n v off ss)[k]? = some l) (hx : ss[k]? = some x) (hreg : ∀ vt, x ≠ .reg vt) :
    ∃ offset, l.loc = .mem offset := by
  induction ss generalizing n v off k with
  | nil => simp at hx
  | cons y ss ih =>
      cases k with
      | zero =>
          simp only [List.getElem?_cons_zero, Option.some.injEq] at hx
          subst hx
          cases y with
          | reg vt => exact absurd rfl (hreg vt)
          | byVal vt flags =>
              cases h
              exact ⟨_, rfl⟩
          | stack vt =>
              cases h
              exact ⟨_, rfl⟩
      | succ k =>
          rw [List.getElem?_cons_succ] at hx
          cases y <;> simp only [slotLocs, List.getElem?_cons_succ] at h <;> exact ih h hx

theorem locs_placeAll_initial (ss : List Slot) :
    (CCState.initial.placeAll ss).locs = slotLocs 0 0 0 ss := by
  rw [CCState.placeAll_locs CCState.regsTaken_initial]
  rfl

end Mandarin.CallConv
