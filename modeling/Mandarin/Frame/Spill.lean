import Mandarin.Frame.FrameLowering

/-! # Spilling to stack slots

The reload passes its operands in the declared order. The spill passes the slot
in the place of the register to store and the number zero in the place of the
address, so every spill writes the address of its slot to address 0. A run of
spills and reloads behaves as a store exactly if that write leaves behind what
the intended one would have.
-/

namespace Mandarin.Frame

open Memory

/-! ## Emitted code -/

/-- `none` where the source calls `llvm_unreachable`. -/
def storeRegToStackSlot (SrcReg : Register) (FrameIndex : Int) (RC : RegClass) :
    Option (List MachineInstr) :=
  if RC = .GenericRegs then
    some [⟨.STORErr, [.frameIndex FrameIndex, .imm 0, .reg SrcReg]⟩]
  else none

def loadRegFromStackSlot (DestReg : Register) (FrameIndex : Int) (RC : RegClass) :
    Option (List MachineInstr) :=
  if RC = .GenericRegs then
    some [⟨.LOADrr, [.reg DestReg, .frameIndex FrameIndex, .imm 0]⟩]
  else none

/-- Frame index elimination puts a register in the operand's place. -/
def replaceFrameIndex (base : Register) (i : MachineInstr) : MachineInstr :=
  { i with operands := i.operands.map fun
      | .frameIndex _ => .reg base
      | operand => operand }

structure SpillArea where
  slots : List Int
  addr : Int → Word
  apart : ∀ fi ∈ slots, ∀ fj ∈ slots, fi ≠ fj →
    Region.Apart (⟨addr fi, 4⟩ : Region 32) ⟨addr fj, 4⟩

namespace SpillArea

abbrev Slot (area : SpillArea) := { fi : Int // fi ∈ area.slots }

def region (area : SpillArea) (slot : area.Slot) : Region 32 := ⟨area.addr slot.val, 4⟩

/-- Run `code` with `base` holding the address of the slot. -/
def access (area : SpillArea) (slot : area.Slot) (base : Register)
    (code : Option (List MachineInstr)) (m : Machine) : Option Machine := do
  runInstrs ((← code).map (replaceFrameIndex base)) (m.setReg base (area.addr slot.val))

end SpillArea

/-! ## Runs -/

/-- Spills and reloads, with the register that replaces the frame index, and other
writes to registers in between. -/
inductive SpillOp (area : SpillArea) where
  | spill (src : Register) (slot : area.Slot) (base : Register)
  | reload (dst : Register) (slot : area.Slot) (base : Register)
  | write (r : Register) (v : Word)

/-- The machine and the value most recently spilled to each slot. -/
structure SpillState (area : SpillArea) where
  machine : Machine
  last : area.Slot → Option Word

variable {area : SpillArea}

def SpillOp.step (op : SpillOp area) (s : SpillState area) : Option (SpillState area) :=
  match op with
  | .spill src slot base => do
      let spilled := (s.machine.setReg base (area.addr slot.val)).regs src
      let m ← area.access slot base (storeRegToStackSlot src slot.val .GenericRegs) s.machine
      some ⟨m, Function.update s.last slot (some spilled)⟩
  | .reload dst slot base => do
      let m ← area.access slot base (loadRegFromStackSlot dst slot.val .GenericRegs) s.machine
      some ⟨m, s.last⟩
  | .write r v => some ⟨s.machine.setReg r v, s.last⟩

def SpillOp.Writes (op : SpillOp area) (p : Word) : Prop :=
  match op with
  | .spill _ slot _ => (area.region slot).Contains p
  | _ => False

def SpillArea.Reloads (area : SpillArea) (m : Machine) (slot : area.Slot) (v : Word) : Prop :=
  ∀ dst base, ∃ m', area.access slot base (loadRegFromStackSlot dst slot.val .GenericRegs) m =
    some m' ∧ m'.regs dst = v

/-- What a store owes its user in one operation. -/
structure SpillOp.Correct (op : SpillOp area) (s s' : SpillState area) : Prop where
  loaded : ∀ dst slot base v, op = .reload dst slot base → s.last slot = some v →
    s'.machine.regs dst = v
  reloads : ∀ slot v, s'.last slot = some v → area.Reloads s'.machine slot v
  frame : ∀ p, ¬ op.Writes p → s'.machine.mem p = s.machine.mem p

def Behaves : List (SpillOp area) → SpillState area → Prop
  | [], _ => True
  | op :: ops, s => ∃ s', op.step s = some s' ∧ op.Correct s s' ∧ Behaves ops s'

/-! ## What a spill really does -/

/-- Storing the address of the slot to address 0 leaves `v` in the slot and changes
nothing else: word 0 already holds that address, as far as it lies outside the
slot, and the slot holds `v`, as far as it is not in word 0. -/
structure FitsSlot (mem : Mem 32) (a v : Word) : Prop where
  outside : ∀ i < 4, ¬ (⟨a, 4⟩ : Region 32).Contains (BitVec.ofNat 32 i) →
    mem (BitVec.ofNat 32 i) = wordByte a i
  inside : ∀ i < 4, wordByte v i =
    if (a + BitVec.ofNat 32 i).toNat < 4 then wordByte a (a + BitVec.ofNat 32 i).toNat
    else mem (a + BitVec.ofNat 32 i)

def SpillOp.Fits (op : SpillOp area) (s : SpillState area) : Prop :=
  match op with
  | .spill src slot base => FitsSlot s.machine.mem (area.addr slot.val)
      ((s.machine.setReg base (area.addr slot.val)).regs src)
  | _ => True

def AllFit : List (SpillOp area) → SpillState area → Prop
  | [], _ => True
  | op :: ops, s => op.Fits s ∧ ∀ s', op.step s = some s' → AllFit ops s'

def SpillState.afterSpill (s : SpillState area) (src : Register) (slot : area.Slot)
    (base : Register) : SpillState area where
  machine := { s.machine.setReg base (area.addr slot.val) with
    mem := storeWord s.machine.mem 0 (area.addr slot.val) }
  last := Function.update s.last slot
    (some ((s.machine.setReg base (area.addr slot.val)).regs src))

def SpillState.afterReload (s : SpillState area) (dst : Register) (slot : area.Slot)
    (base : Register) : SpillState area where
  machine := (s.machine.setReg base (area.addr slot.val)).setReg dst
    (loadWord s.machine.mem (area.addr slot.val))
  last := s.last

theorem step_spill (src : Register) (slot : area.Slot) (base : Register) (s : SpillState area) :
    (SpillOp.spill src slot base).step s = some (s.afterSpill src slot base) := by
  simp [SpillOp.step, SpillArea.access, storeRegToStackSlot, replaceFrameIndex, runInstrs,
    MachineInstr.exec, Machine.value, SpillState.afterSpill]

theorem access_load (dst : Register) (slot : area.Slot) (base : Register) (m : Machine) :
    area.access slot base (loadRegFromStackSlot dst slot.val .GenericRegs) m =
      some ((m.setReg base (area.addr slot.val)).setReg dst
        (loadWord m.mem (area.addr slot.val))) := by
  simp [SpillArea.access, loadRegFromStackSlot, replaceFrameIndex, runInstrs, MachineInstr.exec,
    Machine.value]

theorem step_reload (dst : Register) (slot : area.Slot) (base : Register) (s : SpillState area) :
    (SpillOp.reload dst slot base).step s = some (s.afterReload dst slot base) := by
  simp [SpillOp.step, access_load, SpillState.afterReload]

theorem reloads_iff (m : Machine) (slot : area.Slot) (v : Word) :
    area.Reloads m slot v ↔ loadWord m.mem (area.addr slot.val) = v := by
  unfold SpillArea.Reloads
  simp only [access_load]
  constructor
  · intro h
    rcases h (.vreg 0) (.vreg 0) with ⟨m', hm', hv⟩
    cases hm'
    rw [← hv, Machine.setReg_self]
  · intro h dst base
    exact ⟨_, rfl, by rw [Machine.setReg_self, h]⟩

theorem storeWord_zero (mem : Mem 32) (a p : Word) :
    storeWord mem 0 a p = if p.toNat < 4 then wordByte a p.toNat else mem p := by
  simp [storeWord, write, Region.Contains]

theorem fitsSlot_iff (mem : Mem 32) (a v : Word) :
    FitsSlot mem a v ↔ loadWord (storeWord mem 0 a) a = v ∧
      ∀ p, ¬ (⟨a, 4⟩ : Region 32).Contains p → storeWord mem 0 a p = mem p := by
  rw [loadWord_eq_iff]
  simp only [storeWord_zero]
  constructor
  · intro h
    refine ⟨fun i hi => (h.inside i hi).symm, ?_⟩
    intro p hp
    by_cases hlt : p.toNat < 4
    · have hbyte := h.outside p.toNat hlt
      rw [BitVec.ofNat_toNat, BitVec.setWidth_eq] at hbyte
      rw [if_pos hlt, hbyte hp]
    · rw [if_neg hlt]
  · intro h
    refine ⟨?_, fun i hi => (h.1 i hi).symm⟩
    intro i hi hout
    have hbyte := h.2 _ hout
    have hi' : (BitVec.ofNat 32 i).toNat = i := by
      rw [BitVec.toNat_ofNat, Nat.mod_eq_of_lt (by omega)]
    rw [hi', if_pos hi] at hbyte
    exact hbyte.symm

/-! ## One operation -/

/-- Every slot holds what was most recently spilled to it. -/
def SlotsHold (s : SpillState area) : Prop :=
  ∀ slot v, s.last slot = some v → loadWord s.machine.mem (area.addr slot.val) = v

theorem slots_apart {slot slot' : area.Slot} (h : slot ≠ slot') :
    (area.region slot).Apart (area.region slot') :=
  area.apart _ slot.property _ slot'.property fun heq => h (Subtype.ext heq)

theorem loadWord_of_frame {mem mem' : Mem 32} {slot slot' : area.Slot} (h : slot ≠ slot')
    (hframe : ∀ p, ¬ (area.region slot).Contains p → mem' p = mem p) :
    loadWord mem' (area.addr slot'.val) = loadWord mem (area.addr slot'.val) := by
  apply loadWord_congr
  intro i hi
  apply hframe
  exact (slots_apart h).symm _
    (@Region.contains_add 32 (area.region slot') i hi (by omega))

/-- Slots that hold what they should make the rest of an operation's duties. -/
theorem SlotsHold.correct {op : SpillOp area} {s s' : SpillState area} (h : SlotsHold s')
    (hloaded : ∀ dst slot base v, op = .reload dst slot base → s.last slot = some v →
      s'.machine.regs dst = v)
    (hframe : ∀ p, ¬ op.Writes p → s'.machine.mem p = s.machine.mem p) : op.Correct s s' :=
  ⟨hloaded, fun slot v hv => (reloads_iff _ _ _).mpr (h slot v hv), hframe⟩

theorem afterSpill_slotsHold {src : Register} {slot : area.Slot} {base : Register}
    {s : SpillState area} (hs : SlotsHold s) (hfits : (SpillOp.spill src slot base).Fits s) :
    SlotsHold (s.afterSpill src slot base) := by
  have hfit := (fitsSlot_iff _ _ _).mp hfits
  intro slot' v hv
  have hlast : Function.update s.last slot
      (some ((s.machine.setReg base (area.addr slot.val)).regs src)) slot' = some v := hv
  by_cases h : slot' = slot
  · rw [h, Function.update_self, Option.some.injEq] at hlast
    rw [h, ← hlast]
    exact hfit.1
  · rw [Function.update_of_ne h] at hlast
    rw [← hs slot' v hlast]
    exact loadWord_of_frame (Ne.symm h) hfit.2

theorem spill_correct_iff {src : Register} {slot : area.Slot} {base : Register}
    {s : SpillState area} (hs : SlotsHold s) :
    (SpillOp.spill src slot base).Correct s (s.afterSpill src slot base) ↔
      (SpillOp.spill src slot base).Fits s := by
  constructor
  · intro hcorrect
    have hreload := (reloads_iff _ _ _).mp (hcorrect.reloads slot _ (Function.update_self ..))
    exact (fitsSlot_iff _ _ _).mpr ⟨hreload, hcorrect.frame⟩
  · intro hfits
    apply (afterSpill_slotsHold hs hfits).correct
    · intro dst slot' base' v heq
      cases heq
    · exact ((fitsSlot_iff _ _ _).mp hfits).2

theorem reload_correct {dst : Register} {slot : area.Slot} {base : Register}
    {s : SpillState area} (hs : SlotsHold s) :
    (SpillOp.reload dst slot base).Correct s (s.afterReload dst slot base) := by
  have hhold : SlotsHold (s.afterReload dst slot base) := hs
  apply hhold.correct
  · intro dst' slot' base' v heq hv
    cases heq
    rw [SpillState.afterReload, Machine.setReg_self]
    exact hs slot v hv
  · intro p _
    rfl

theorem write_correct {r : Register} {v : Word} {s : SpillState area} (hs : SlotsHold s) :
    (SpillOp.write r v).Correct s ⟨s.machine.setReg r v, s.last⟩ := by
  have hhold : SlotsHold (⟨s.machine.setReg r v, s.last⟩ : SpillState area) := hs
  apply hhold.correct
  · intro dst slot base v' heq
    cases heq
  · intro p _
    rfl

/-- An operation is executed, and in a state whose slots hold what they should it
is correct if and only if it meets its condition. -/
theorem step_correct_iff (op : SpillOp area) {s : SpillState area} (hs : SlotsHold s) :
    ∃ s', op.step s = some s' ∧ (op.Correct s s' ↔ op.Fits s) ∧ (op.Fits s → SlotsHold s') := by
  cases op with
  | spill src slot base =>
      exact ⟨_, step_spill src slot base s, spill_correct_iff hs, afterSpill_slotsHold hs⟩
  | reload dst slot base =>
      exact ⟨_, step_reload dst slot base s, ⟨fun _ => trivial, fun _ => reload_correct hs⟩,
        fun _ => hs⟩
  | write r v =>
      exact ⟨_, rfl, ⟨fun _ => trivial, fun _ => write_correct hs⟩, fun _ => hs⟩

/-! ## All runs -/

theorem behaves_iff_of_slotsHold (ops : List (SpillOp area)) {s : SpillState area}
    (hs : SlotsHold s) : Behaves ops s ↔ AllFit ops s := by
  induction ops generalizing s with
  | nil => exact Iff.rfl
  | cons op ops ih =>
      rcases step_correct_iff op hs with ⟨s', hstep, hcorrect, hhold⟩
      constructor
      · rintro ⟨t, ht, hop, hrest⟩
        rw [hstep, Option.some.injEq] at ht
        subst ht
        have hfits := hcorrect.mp hop
        refine ⟨hfits, ?_⟩
        intro t ht
        rw [hstep, Option.some.injEq] at ht
        subst ht
        exact (ih (hhold hfits)).mp hrest
      · intro hfit
        have hrest := hfit.2 s' hstep
        exact ⟨s', hstep, hcorrect.mpr hfit.1, (ih (hhold hfit.1)).mpr hrest⟩

/-- A run that starts with nothing spilled behaves as a store if and only if every
spill in it fits the memory it is executed in. -/
theorem spills_behave_iff (ops : List (SpillOp area)) (m : Machine) :
    Behaves ops ⟨m, fun _ => none⟩ ↔ AllFit ops ⟨m, fun _ => none⟩ := by
  apply behaves_iff_of_slotsHold
  intro slot v hv
  cases hv

/-- Memory that holds 256 at address 0 and 7 at address 256 fits a spill of 7. -/
example : FitsSlot (storeWord (storeWord (fun _ => 0) 0 256) 256 7) 256 7 :=
  ⟨by decide, by decide⟩

def oneSlot : SpillArea where
  slots := [0]
  addr := fun _ => 256
  apart := by simp

/-- Spilling a nonzero register to empty memory and loading it back. -/
theorem spill_not_reloaded : ∃ (ops : List (SpillOp oneSlot)) (m : Machine),
    ¬ Behaves ops ⟨m, fun _ => none⟩ := by
  let slot : oneSlot.Slot := ⟨0, by decide⟩
  let m : Machine := ⟨fun r => if r = .gpr 5 then 7 else 0, fun _ => 0, fun _ => 0⟩
  refine ⟨[.spill (.gpr 5) slot (.vreg 0), .reload (.gpr 6) slot (.vreg 1)], m, ?_⟩
  intro hbehaves
  have hfit := (behaves_iff_of_slotsHold _ (by rintro _ _ ⟨⟩)).mp hbehaves
  have hbyte := hfit.1.outside 1 (by decide) (by decide)
  exact absurd hbyte (by decide)

end Mandarin.Frame
