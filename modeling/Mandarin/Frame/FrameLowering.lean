import Mathlib.Algebra.Group.Int.Defs
import Mandarin.Target.Instr

/-! # Prologue, epilogue and frame indices

The stack grows up and the prologue saves the frame pointer at local address 0.
The effect of the emitted code is stated once for each sequence; everything about
frames is derived from these two states.
-/

namespace Mandarin.Frame

open Memory

/-- The part of `MachineFrameInfo` the frame code reads. Frame indices are
numbers, and an object's offset is counted from the incoming stack pointer. -/
structure MachineFrameInfo where
  stackSize : Nat
  hasVarSizedObjects : Bool
  frameAddressTaken : Bool
  objectOffset : Int → Int

structure MachineFunction where
  frameInfo : MachineFrameInfo
  disableFramePointerElim : Bool

def hasFP (mf : MachineFunction) : Bool :=
  mf.disableFramePointerElim || mf.frameInfo.hasVarSizedObjects || mf.frameInfo.frameAddressTaken

def getFrameRegister (mf : MachineFunction) : Register := if hasFP mf then .gpr 31 else .gpr 30

def getReservedRegs (mf : MachineFunction) : List Reg :=
  .R 30 :: if hasFP mf then [.R 31] else []

/-- The list of the source is empty up to its terminating zero. -/
def getCalleeSavedRegs (_ : MachineFunction) : List Reg := []

/-! ## Emitted code -/

def emitPrologue (mf : MachineFunction) : List MachineInstr :=
  (if hasFP mf then
    [⟨.STORELri, [.reg (.gpr 31), .imm 0]⟩, ⟨.MOVrr, [.reg (.gpr 31), .reg (.gpr 30)]⟩]
  else []) ++
  if mf.frameInfo.stackSize ≠ 0 then
    [⟨.ADDri, [.reg (.gpr 30), .reg (.gpr 30), .imm mf.frameInfo.stackSize]⟩]
  else []

/-- The code in front of the block's `RET`. -/
def emitEpilogue (mf : MachineFunction) : List MachineInstr :=
  (if hasFP mf then [⟨.LOADLri, [.reg (.gpr 31), .imm 0]⟩] else []) ++
  if mf.frameInfo.hasVarSizedObjects then [⟨.MOVrr, [.reg (.gpr 30), .reg (.gpr 31)]⟩]
  else if mf.frameInfo.stackSize ≠ 0 then
    [⟨.SUBri, [.reg (.gpr 30), .reg (.gpr 30), .imm mf.frameInfo.stackSize]⟩]
  else []

/-- A value converted to the `int` of the source. -/
def toInt32 (v : Int) : Int := v.bmod (2 ^ 32)

def frameOffset (mf : MachineFunction) (fi : Int) : Int :=
  let Offset := toInt32 (mf.frameInfo.objectOffset fi)
  if !hasFP mf then toInt32 (Offset + mf.frameInfo.stackSize) else Offset

/-- The instructions inserted in front of the user of frame index `fi` and the
register that replaces it; `VReg` is the next virtual register. -/
def eliminateFrameIndex (mf : MachineFunction) (fi : Int) (VReg : Nat) :
    List MachineInstr × Register :=
  let BasePtr : Register := if hasFP mf then .gpr 31 else .gpr 30
  let Offset := frameOffset mf fi
  if Offset ≠ 0 then
    if Offset > 0 then ([⟨.ADDri, [.reg (.vreg VReg), .reg BasePtr, .imm Offset]⟩], .vreg VReg)
    else ([⟨.SUBri, [.reg (.vreg VReg), .reg BasePtr, .imm Offset]⟩], .vreg VReg)
  else ([], BasePtr)

/-! ## What the code does -/

def afterPrologue (mf : MachineFunction) (m : Machine) : Machine where
  regs := fun r =>
    if r = .gpr 30 then m.sp + BitVec.ofNat 32 mf.frameInfo.stackSize
    else if r = .gpr 31 ∧ hasFP mf then m.sp
    else m.regs r
  mem := m.mem
  localMem := if hasFP mf then storeWord m.localMem 0 m.fp else m.localMem

def afterEpilogue (mf : MachineFunction) (m : Machine) : Machine where
  regs := fun r =>
    let fp := if hasFP mf then loadWord m.localMem 0 else m.fp
    if r = .gpr 31 then fp
    else if r = .gpr 30 then
      if mf.frameInfo.hasVarSizedObjects then fp
      else m.sp - BitVec.ofNat 32 mf.frameInfo.stackSize
    else m.regs r
  mem := m.mem
  localMem := m.localMem

theorem setReg_sp (m : Machine) : m.setReg (.gpr 30) m.sp = m := by
  simp [Machine.setReg, Machine.sp]

theorem run_addStackSize (n : Nat) (m : Machine) :
    runInstrs (if n ≠ 0 then [⟨.ADDri, [.reg (.gpr 30), .reg (.gpr 30), .imm n]⟩] else []) m =
      some (m.setReg (.gpr 30) (m.sp + BitVec.ofNat 32 n)) := by
  by_cases h0 : n = 0
  · subst h0
    rw [show BitVec.ofNat 32 0 = 0#32 from rfl, BitVec.add_zero, setReg_sp]
    rfl
  · rw [if_pos h0]
    simp [runInstrs, MachineInstr.exec, Machine.value, Machine.sp]

theorem run_subStackSize (n : Nat) (m : Machine) :
    runInstrs (if n ≠ 0 then [⟨.SUBri, [.reg (.gpr 30), .reg (.gpr 30), .imm n]⟩] else []) m =
      some (m.setReg (.gpr 30) (m.sp - BitVec.ofNat 32 n)) := by
  by_cases h0 : n = 0
  · subst h0
    rw [show BitVec.ofNat 32 0 = 0#32 from rfl, BitVec.sub_zero, setReg_sp]
    rfl
  · rw [if_pos h0]
    simp [runInstrs, MachineInstr.exec, Machine.value, Machine.sp]

theorem setReg_fp_sp (m : Machine) (fp sp : Word) :
    (m.setReg (.gpr 31) fp).setReg (.gpr 30) sp =
      { m with regs := fun r =>
          if r = .gpr 31 then fp else if r = .gpr 30 then sp else m.regs r } := by
  simp only [Machine.setReg, Machine.mk.injEq, and_true]
  funext r
  by_cases h31 : r = .gpr 31
  · subst h31
    simp [Function.update]
  · simp [Function.update, h31]

theorem run_emitPrologue (mf : MachineFunction) (m : Machine) :
    runInstrs (emitPrologue mf) m = some (afterPrologue mf m) := by
  unfold emitPrologue
  rw [runInstrs_append]
  by_cases hfp : hasFP mf = true
  · simp only [hfp, ↓reduceIte, runInstrs, MachineInstr.exec, Machine.value, bind, Option.bind]
    rw [run_addStackSize, setReg_fp_sp, Option.some.injEq]
    simp only [afterPrologue, hfp, ↓reduceIte, and_true, Machine.mk.injEq, Machine.sp, Machine.fp,
      true_and]
    refine ⟨?_, rfl⟩
    funext r
    by_cases h30 : r = .gpr 30
    · subst h30
      simp [Machine.setReg]
    · simp [h30]
  · simp only [hfp, Bool.false_eq_true, ↓reduceIte, runInstrs, Option.bind]
    rw [run_addStackSize, Option.some.injEq]
    simp only [afterPrologue, hfp, Machine.setReg, Bool.false_eq_true, and_false, ↓reduceIte,
      Machine.mk.injEq, and_true]
    funext r
    exact Function.update_apply ..

theorem run_emitEpilogue (mf : MachineFunction) (m : Machine) :
    runInstrs (emitEpilogue mf) m = some (afterEpilogue mf m) := by
  have hload : runInstrs (if hasFP mf then [⟨.LOADLri, [.reg (.gpr 31), .imm 0]⟩] else []) m =
      some (m.setReg (.gpr 31) (if hasFP mf then loadWord m.localMem 0 else m.fp)) := by
    by_cases hfp : hasFP mf = true
    · simp [hfp, runInstrs, MachineInstr.exec, Machine.value]
    · simp [hfp, runInstrs, Machine.setReg, Machine.fp]
  unfold emitEpilogue
  rw [runInstrs_append, hload, Option.bind]
  generalize hval : (if hasFP mf then loadWord m.localMem 0 else m.fp) = fp
  have hsp : (m.setReg (.gpr 31) fp).sp = m.sp := Machine.setReg_of_ne m fp (by decide)
  simp only [afterEpilogue, hval]
  by_cases hvar : mf.frameInfo.hasVarSizedObjects = true
  · simp only [hvar, ↓reduceIte, runInstrs, MachineInstr.exec, Machine.value, bind, Option.bind,
      Machine.setReg_self]
    rw [setReg_fp_sp]
  · simp only [hvar, Bool.false_eq_true, ↓reduceIte]
    rw [run_subStackSize, hsp, setReg_fp_sp]

end Mandarin.Frame
