import Mandarin.Frame.Survival

/-! # One activation

Prologue, body and epilogue of one function, for a body that respects the frame.
The epilogue loads the caller's frame pointer into `R31` before a frame with
variable-sized objects takes its stack pointer from there, so such a frame leaves
the caller's frame pointer in `R30`. Every other frame is balanced.
-/

namespace Mandarin.Frame

open Memory

/-- What a body may do to the machine the prologue left: with a frame pointer it
keeps `R31` and the saved word, and only variable-sized objects move `R30`. -/
structure LeavesFrame (mf : MachineFunction) (entered left : Machine) : Prop where
  fp : hasFP mf = true → left.fp = entered.fp
  saved : hasFP mf = true → loadWord left.localMem 0 = loadWord entered.localMem 0
  sp : mf.frameInfo.hasVarSizedObjects = false → left.sp = entered.sp

def runFrame (mf : MachineFunction) (body : Machine → Machine) (m : Machine) : Option Machine := do
  let entered ← runInstrs (emitPrologue mf) m
  runInstrs (emitEpilogue mf) (body entered)

def RespectsFrame (mf : MachineFunction) (body : Machine → Machine) (m : Machine) : Prop :=
  ∀ entered, runInstrs (emitPrologue mf) m = some entered → LeavesFrame mf entered (body entered)

def Balanced (mf : MachineFunction) (body : Machine → Machine) (m : Machine) : Prop :=
  ∃ final, runFrame mf body m = some final ∧ final.sp = m.sp ∧
    (hasFP mf = true → final.fp = m.fp)

/-! ## The two sequences together -/

theorem hasFP_of_hasVarSizedObjects {mf : MachineFunction}
    (h : mf.frameInfo.hasVarSizedObjects = true) : hasFP mf = true := by
  simp [hasFP, h]

theorem runFrame_eq (mf : MachineFunction) (body : Machine → Machine) (m : Machine) :
    runFrame mf body m = some (afterEpilogue mf (body (afterPrologue mf m))) := by
  unfold runFrame
  rw [run_emitPrologue]
  exact run_emitEpilogue ..

theorem balanced_iff_afterEpilogue (mf : MachineFunction) (body : Machine → Machine) (m : Machine) :
    Balanced mf body m ↔
      (afterEpilogue mf (body (afterPrologue mf m))).sp = m.sp ∧
        (hasFP mf = true → (afterEpilogue mf (body (afterPrologue mf m))).fp = m.fp) := by
  unfold Balanced
  rw [runFrame_eq]
  constructor
  · intro h
    rcases h with ⟨final, hfinal, hregs⟩
    cases hfinal
    exact hregs
  · intro h
    exact ⟨_, rfl, h⟩

theorem afterPrologue_saved {mf : MachineFunction} (h : hasFP mf = true) (m : Machine) :
    loadWord (afterPrologue mf m).localMem 0 = m.fp := by
  have hmem : (afterPrologue mf m).localMem = storeWord m.localMem 0 m.fp := if_pos h
  rw [hmem]
  exact loadWord_storeWord (by decide) _ _ _

/-- With variable-sized objects `R30` becomes what was just loaded into `R31`. -/
theorem afterEpilogue_sp_of_varSized {mf : MachineFunction}
    (h : mf.frameInfo.hasVarSizedObjects = true) (m : Machine) :
    (afterEpilogue mf m).sp = loadWord m.localMem 0 := by
  simp [afterEpilogue, Machine.sp, h, hasFP_of_hasVarSizedObjects h]

/-! ## When an activation is balanced -/

theorem LeavesFrame.afterEpilogue_fp {mf : MachineFunction} {m left : Machine}
    (h : LeavesFrame mf (afterPrologue mf m) left) (hfp : hasFP mf = true) :
    (afterEpilogue mf left).fp = m.fp := by
  rw [Frame.afterEpilogue_fp, if_pos hfp, h.saved hfp, afterPrologue_saved hfp]

theorem LeavesFrame.afterEpilogue_sp {mf : MachineFunction} {m left : Machine}
    (h : LeavesFrame mf (afterPrologue mf m) left)
    (hfixed : mf.frameInfo.hasVarSizedObjects = false) : (afterEpilogue mf left).sp = m.sp := by
  rw [Frame.afterEpilogue_sp hfixed, h.sp hfixed, afterPrologue_sp, BitVec.add_sub_cancel]

theorem LeavesFrame.afterEpilogue_sp_of_varSized {mf : MachineFunction} {m left : Machine}
    (h : LeavesFrame mf (afterPrologue mf m) left)
    (hvar : mf.frameInfo.hasVarSizedObjects = true) : (afterEpilogue mf left).sp = m.fp := by
  have hfp := hasFP_of_hasVarSizedObjects hvar
  rw [Frame.afterEpilogue_sp_of_varSized hvar, h.saved hfp, afterPrologue_saved hfp]

/-- An activation is balanced exactly when it has no variable-sized objects or
was entered with equal stack and frame pointers. -/
theorem runFrame_balanced_iff (mf : MachineFunction) (body : Machine → Machine) (m : Machine)
    (hbody : RespectsFrame mf body m) :
    Balanced mf body m ↔ (mf.frameInfo.hasVarSizedObjects = true → m.fp = m.sp) := by
  have hleft := hbody _ (run_emitPrologue mf m)
  rw [balanced_iff_afterEpilogue]
  by_cases hvar : mf.frameInfo.hasVarSizedObjects = true
  · have hsp := hleft.afterEpilogue_sp_of_varSized hvar
    constructor
    · intro h _
      rw [← hsp]
      exact h.1
    · intro h
      exact ⟨by rw [hsp, h hvar], hleft.afterEpilogue_fp⟩
  · have hfixed : mf.frameInfo.hasVarSizedObjects = false := by simpa using hvar
    constructor
    · intro _ h
      exact absurd h hvar
    · intro _
      exact ⟨hleft.afterEpilogue_sp hfixed, hleft.afterEpilogue_fp⟩

/-! ## A function with an alloca -/

def dynamic : MachineFunction := ⟨⟨8, true, false, fun _ => 0⟩, false⟩

def allocate (m : Machine) : Machine := m.setReg (.gpr 30) (m.sp + 16)

def machineAt (sp : Word) : Machine :=
  ⟨fun r => if r = .gpr 30 then sp else 0, fun _ => 0, fun _ => 0⟩

theorem respectsFrame_allocate (m : Machine) : RespectsFrame dynamic allocate m := by
  intro entered _
  refine ⟨fun _ => Machine.setReg_of_ne entered _ (by decide), fun _ => rfl, fun h => ?_⟩
  cases h

/-- Entered at address 0 with both registers equal, the activation is balanced. -/
theorem runFrame_balanced_equal_pointers : Balanced dynamic allocate (machineAt 0) :=
  (runFrame_balanced_iff dynamic allocate (machineAt 0) (respectsFrame_allocate _)).mpr
    fun _ => rfl

/-- Entered with stack pointer 64 and frame pointer 0, it returns with stack pointer 0. -/
theorem runFrame_loses_sp :
    RespectsFrame dynamic allocate (machineAt 64) ∧ ¬ Balanced dynamic allocate (machineAt 64) := by
  have hleft := respectsFrame_allocate (machineAt 64) _ (run_emitPrologue dynamic (machineAt 64))
  refine ⟨respectsFrame_allocate _, ?_⟩
  intro h
  have hsp := ((balanced_iff_afterEpilogue ..).mp h).1
  rw [hleft.afterEpilogue_sp_of_varSized rfl] at hsp
  exact absurd hsp (by decide)

end Mandarin.Frame
