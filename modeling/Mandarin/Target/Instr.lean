import Mandarin.Lib.Memory
import Mandarin.Target.Register

/-! # Machine instructions

An instruction carries its operands in a list, as the code that builds it adds
them. It is executed by the order of operands its definition declares, outputs
first: the operand at a position is bound to the name at that position, and
operands behind the declared ones have no effect. Executing a frame index is an
error; it has to be replaced first.
-/

namespace Mandarin

open Memory

inductive Register where
  | gpr (n : Fin 32)
  | vreg (n : Nat)
  deriving DecidableEq, Repr

inductive MachineOperand where
  | reg (r : Register)
  | imm (v : Int)
  | frameIndex (fi : Int)
  deriving DecidableEq, Repr

inductive Opcode where
  | ADDri | SUBri | MOVrr | LOADrr | STORErr | LOADLri | STORELri
  deriving DecidableEq, Repr

structure MachineInstr where
  opcode : Opcode
  operands : List MachineOperand
  deriving DecidableEq, Repr

structure Machine where
  regs : Register → Word
  mem : Mem 32
  localMem : Mem 32

namespace Machine

def sp (m : Machine) : Word := m.regs (.gpr 30)

def fp (m : Machine) : Word := m.regs (.gpr 31)

def setReg (m : Machine) (r : Register) (v : Word) : Machine :=
  { m with regs := Function.update m.regs r v }

def value (m : Machine) : MachineOperand → Option Word
  | .reg r => some (m.regs r)
  | .imm v => some (BitVec.ofInt 32 v)
  | .frameIndex _ => none

@[simp] theorem setReg_self (m : Machine) (r : Register) (v : Word) : (m.setReg r v).regs r = v :=
  Function.update_self ..

theorem setReg_of_ne (m : Machine) {r q : Register} (v : Word) (h : q ≠ r) :
    (m.setReg r v).regs q = m.regs q := Function.update_of_ne h ..

@[simp] theorem setReg_mem (m : Machine) (r : Register) (v : Word) : (m.setReg r v).mem = m.mem := rfl

@[simp] theorem setReg_localMem (m : Machine) (r : Register) (v : Word) :
    (m.setReg r v).localMem = m.localMem := rfl

end Machine

/-- `add $dst, $src1, $src2`, `sub $dst, $src1, $src2`, `mov $dst, $src`,
`load $dst, $addr`, `store $src, $addr`, `loadl $dst, $addr`, `storel $src, $addr`. -/
def MachineInstr.exec (i : MachineInstr) (m : Machine) : Option Machine :=
  match i.opcode, i.operands with
  | .ADDri, .reg dst :: src1 :: src2 :: _ => do
      some (m.setReg dst ((← m.value src1) + (← m.value src2)))
  | .SUBri, .reg dst :: src1 :: src2 :: _ => do
      some (m.setReg dst ((← m.value src1) - (← m.value src2)))
  | .MOVrr, .reg dst :: src :: _ => do some (m.setReg dst (← m.value src))
  | .LOADrr, .reg dst :: addr :: _ => do some (m.setReg dst (loadWord m.mem (← m.value addr)))
  | .STORErr, src :: addr :: _ => do
      some { m with mem := storeWord m.mem (← m.value addr) (← m.value src) }
  | .LOADLri, .reg dst :: addr :: _ => do
      some (m.setReg dst (loadWord m.localMem (← m.value addr)))
  | .STORELri, src :: addr :: _ => do
      some { m with localMem := storeWord m.localMem (← m.value addr) (← m.value src) }
  | _, _ => none

def runInstrs : List MachineInstr → Machine → Option Machine
  | [], m => some m
  | i :: is, m => do runInstrs is (← i.exec m)

theorem runInstrs_append (is js : List MachineInstr) (m : Machine) :
    runInstrs (is ++ js) m = (runInstrs is m).bind (runInstrs js) := by
  induction is generalizing m with
  | nil => rfl
  | cons i is ih =>
      rw [List.cons_append, runInstrs, runInstrs]
      cases i.exec m with
      | none => rfl
      | some m' => exact ih m'

end Mandarin
