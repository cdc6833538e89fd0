import Mandarin.Branch.Block
import Mandarin.Target.Instr

/-! # Functions under construction

A machine function is a list of blocks in layout order and the blocks themselves,
reached by their numbers. A block starts with its PHIs and ends with its
terminators. Blocks are changed in place by the operations the inserter uses.
-/

namespace Mandarin.Select

open Branch (BlockId CondCodes)

/-- `dst = phi [value, block], …` -/
structure Phi where
  dst : Register
  incoming : List (Register × BlockId)
  deriving DecidableEq, Repr

/-- PHI operands that refer to `fromMBB` refer to `toMBB`. -/
def Phi.setMBB (fromMBB toMBB : BlockId) (phi : Phi) : Phi :=
  { phi with incoming := phi.incoming.map fun value =>
      if value.2 = fromMBB then (value.1, toMBB) else value }

inductive SelectKind where
  | SELECT_CC_Int | SELECT_CC_Float
  deriving DecidableEq, Repr

/-- An ordinary instruction or one of the pseudos `$dst, $T, $F, $Cond`. -/
inductive Inst (ι : Type) where
  | op (i : ι)
  | selectCC (kind : SelectKind) (dst T F : Register) (Cond : CondCodes)
  deriving DecidableEq, Repr

inductive Terminator where
  | JMPi (dst : BlockId)
  | JCCi (dst : BlockId) (cc : CondCodes)
  | JMPr (dst : Register)
  | JCCr (dst : Register) (cc : CondCodes)
  | RET
  deriving DecidableEq, Repr

structure MachineBasicBlock (ι : Type) where
  phis : List Phi
  body : List (Inst ι)
  terms : List Terminator
  successors : List BlockId
  deriving DecidableEq, Repr

structure MachineFunction (ι : Type) where
  layout : List BlockId
  block : BlockId → MachineBasicBlock ι
  nextBlockNum : BlockId

variable {ι : Type}

def layoutSucc (layout : List BlockId) (b : BlockId) : Option BlockId :=
  layout[layout.idxOf b + 1]?

namespace MachineFunction

def modify (f : MachineFunction ι) (b : BlockId)
    (change : MachineBasicBlock ι → MachineBasicBlock ι) : MachineFunction ι :=
  { f with block := Function.update f.block b (change (f.block b)) }

def CreateMachineBasicBlock (f : MachineFunction ι) : MachineFunction ι × BlockId :=
  ({ f with
      block := Function.update f.block f.nextBlockNum ⟨[], [], [], []⟩
      nextBlockNum := f.nextBlockNum + 1 },
    f.nextBlockNum)

def insert (f : MachineFunction ι) (It : Nat) (b : BlockId) : MachineFunction ι :=
  { f with layout := f.layout.insertIdx It b }

def addSuccessor (f : MachineFunction ι) (b Succ : BlockId) : MachineFunction ι :=
  f.modify b fun block => { block with successors := block.successors ++ [Succ] }

def removeSuccessor (f : MachineFunction ι) (b Succ : BlockId) : MachineFunction ι :=
  f.modify b fun block => { block with successors := block.successors.erase Succ }

/-- Move the instructions of `fromMBB` from position `first` on to the front of `toMBB`. -/
def splice (f : MachineFunction ι) (toMBB fromMBB : BlockId) (first : Nat) : MachineFunction ι :=
  (f.modify toMBB fun block => { block with
      body := (f.block fromMBB).body.drop first ++ block.body
      terms := (f.block fromMBB).terms ++ block.terms }).modify fromMBB
    fun block => { block with body := block.body.take first, terms := [] }

/-- One turn of the loop of `transferSuccessorsAndUpdatePHIs`. -/
def transferSuccessor (toMBB fromMBB : BlockId) (f : MachineFunction ι) (Succ : BlockId) :
    MachineFunction ι :=
  ((f.addSuccessor toMBB Succ).removeSuccessor fromMBB Succ).modify Succ
    fun block => { block with phis := block.phis.map (Phi.setMBB fromMBB toMBB) }

/-- The loop takes the first successor of `fromMBB` until there is none left. -/
def transferSuccessorsAndUpdatePHIs (f : MachineFunction ι) (toMBB fromMBB : BlockId) :
    MachineFunction ι :=
  (f.block fromMBB).successors.foldl (transferSuccessor toMBB fromMBB) f

def addTerminator (f : MachineFunction ι) (b : BlockId) (t : Terminator) : MachineFunction ι :=
  f.modify b fun block => { block with terms := block.terms ++ [t] }

def insertPhi (f : MachineFunction ι) (b : BlockId) (phi : Phi) : MachineFunction ι :=
  f.modify b fun block => { block with phis := phi :: block.phis }

def erase (f : MachineFunction ι) (b : BlockId) (MI : Nat) : MachineFunction ι :=
  f.modify b fun block => { block with body := block.body.eraseIdx MI }

end MachineFunction

open MachineFunction

/-- Expand the pseudo at position `MI` of block `BB`. -/
def EmitInstrWithCustomInserter (f : MachineFunction ι) (BB : BlockId) (MI : Nat) :
    Option (MachineFunction ι × BlockId) :=
  match (f.block BB).body[MI]? with
  | some (.selectCC _ dst T F CC) =>
      let It := f.layout.idxOf BB + 1
      let thisMBB := BB
      let (f, copy0MBB) := f.CreateMachineBasicBlock
      let (f, sinkMBB) := f.CreateMachineBasicBlock
      let f := f.insert It copy0MBB
      -- the iterator still points to the old layout successor
      let f := f.insert (It + 1) sinkMBB
      let f := f.splice sinkMBB BB (MI + 1)
      let f := f.transferSuccessorsAndUpdatePHIs sinkMBB BB
      let f := f.addSuccessor BB copy0MBB
      let f := f.addSuccessor BB sinkMBB
      let f := f.addTerminator BB (.JCCi sinkMBB CC)
      let f := f.addSuccessor copy0MBB sinkMBB
      let f := f.insertPhi sinkMBB ⟨dst, [(F, copy0MBB), (T, thisMBB)]⟩
      some (f.erase BB MI, sinkMBB)
  | _ => none

end Mandarin.Select
