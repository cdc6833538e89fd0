import Mandarin.Isel.Conditions
import Mandarin.Lib.Memory
import Mandarin.Select.Semantics

/-! # Selection DAGs

The DAG of a block is the list of its nodes in the order they are scheduled in, and
an operand is the position of an earlier node. Types are legal, operations are not
lowered yet. Values of one block are passed to another in registers.
-/

namespace Mandarin.Isel

open Branch (BlockId Exit fallThrough)
open Memory
open Select (State Phi phiValues layoutSucc)

/-! ## Nodes -/

inductive FaluOp where
  | FADD | FSUB | FMUL | FDIV
  deriving DecidableEq, Repr

/-- The part of a word a narrow load or store works on. -/
inductive MemVT where
  | i8 | i16
  deriving DecidableEq, Repr

/-- `ISD::LoadExtType` with the type in memory. -/
inductive LoadExtType where
  | NON_EXTLOAD
  | EXTLOAD (VT : MemVT)
  | SEXTLOAD (VT : MemVT)
  | ZEXTLOAD (VT : MemVT)
  deriving DecidableEq, Repr

/-- Nodes on `i32` and `f32`; `σ` are the symbols of globals and constant pool entries. -/
inductive DagNode (σ : Type) where
  | Constant (c : Word)
  | CopyFromReg (r : Register)
  | CopyToReg (r : Register) (a : Nat)
  | alu (op : AluOp) (a b : Nat)
  | SRA (a b : Nat)
  | falu (op : FaluOp) (a b : Nat)
  | FP_TO_SINT (a : Nat)
  | SINT_TO_FP (a : Nat)
  | FrameIndex (fi : Int)
  | GlobalAddress (g : σ)
  | load (ext : LoadExtType) (addr : Nat)
  | store (value addr : Nat)
  | truncstore (VT : MemVT) (value addr : Nat)
  | SELECT_CC (VT : CmpVT) (LHS RHS TrueVal FalseVal : Nat) (CC : CondCode)
  deriving DecidableEq, Repr

def DagNode.operands {σ : Type} : DagNode σ → List Nat
  | Constant _ | CopyFromReg _ | FrameIndex _ | GlobalAddress _ => []
  | CopyToReg _ a | FP_TO_SINT a | SINT_TO_FP a | load _ a => [a]
  | alu _ a b | SRA a b | falu _ a b | store a b | truncstore _ a b => [a, b]
  | SELECT_CC _ LHS RHS TrueVal FalseVal _ => [LHS, RHS, TrueVal, FalseVal]

/-- How a block ends: with a return, a branch, a conditional branch with perhaps a
branch behind it, or by running into the next block. -/
inductive DagEnd where
  | RET_FLAG
  | BR (Dest : BlockId)
  | BR_CC (CC : CondCode) (LHS RHS : Nat) (Dest : BlockId) (other : Option BlockId)
  | next
  deriving DecidableEq, Repr

structure DagBlock (σ : Type) where
  phis : List Phi
  nodes : List (DagNode σ)
  last : DagEnd
  successors : List BlockId

structure DagFunction (σ : Type) where
  layout : List BlockId
  block : BlockId → DagBlock σ
  nextBlockNum : BlockId

/-! ## What the nodes mean -/

/-- Floats, and where frame objects and symbols are. -/
structure World (σ : Type) where
  float : FaluOp → Word → Word → Word
  fpToSint : Word → Word
  sintToFp : Word → Word
  frameAddress : Int → Word
  symbolAddress : σ → Word

def MemVT.bits : MemVT → Nat
  | i8 => 8
  | i16 => 16

def MemVT.bytes : MemVT → Nat
  | i8 => 1
  | i16 => 2

def loadPart (m : Mem 32) (p : Word) : (VT : MemVT) → BitVec VT.bits
  | .i8 => m p
  | .i16 => m (p + 1) ++ m p

def storePart (VT : MemVT) (m : Mem 32) (p v : Word) : Mem 32 := write m ⟨p, VT.bytes⟩ (wordByte v)

/-- `EXTLOAD` leaves the upper bits open. -/
def LoadExtType.Reads (m : Mem 32) (p v : Word) : LoadExtType → Prop
  | NON_EXTLOAD => v = loadWord m p
  | EXTLOAD VT => v.setWidth VT.bits = loadPart m p VT
  | SEXTLOAD VT => v = (loadPart m p VT).signExtend 32
  | ZEXTLOAD VT => v = (loadPart m p VT).setWidth 32

abbrev DagState := State Unit (Mem 32)

variable {σ : Type}

/-- The node yields `v` and leaves `st'`, its operands having the values `vals`. What a
node without a value yields does not matter. -/
inductive DagNode.Step (W : World σ) (vals : Nat → Word) (st : DagState) :
    DagNode σ → Word → DagState → Prop where
  | Constant {c : Word} : Step W vals st (.Constant c) c st
  | CopyFromReg {r : Register} : Step W vals st (.CopyFromReg r) (st.regs r) st
  | CopyToReg {r : Register} {a : Nat} {v : Word} :
      Step W vals st (.CopyToReg r a) v (st.setReg r (vals a))
  | alu {op : AluOp} {a b : Nat} : Step W vals st (.alu op a b) (op.eval (vals a) (vals b)) st
  | SRA {a b : Nat} : Step W vals st (.SRA a b) ((vals a).sshiftRight (vals b).toNat) st
  | falu {op : FaluOp} {a b : Nat} :
      Step W vals st (.falu op a b) (W.float op (vals a) (vals b)) st
  | FP_TO_SINT {a : Nat} : Step W vals st (.FP_TO_SINT a) (W.fpToSint (vals a)) st
  | SINT_TO_FP {a : Nat} : Step W vals st (.SINT_TO_FP a) (W.sintToFp (vals a)) st
  | FrameIndex {fi : Int} : Step W vals st (.FrameIndex fi) (W.frameAddress fi) st
  | GlobalAddress {g : σ} : Step W vals st (.GlobalAddress g) (W.symbolAddress g) st
  | load {ext : LoadExtType} {addr : Nat} {v : Word} (h : ext.Reads st.mem (vals addr) v) :
      Step W vals st (.load ext addr) v st
  | store {value addr : Nat} {v : Word} :
      Step W vals st (.store value addr) v
        { st with mem := storeWord st.mem (vals addr) (vals value) }
  | truncstore {VT : MemVT} {value addr : Nat} {v : Word} :
      Step W vals st (.truncstore VT value addr) v
        { st with mem := storePart VT st.mem (vals addr) (vals value) }
  | SELECT_CC {VT : CmpVT} {LHS RHS TrueVal FalseVal : Nat} {CC : CondCode}
      {holds : Word → Word → Bool} (h : CC.intMeaning = some holds) :
      Step W vals st (.SELECT_CC VT LHS RHS TrueVal FalseVal CC)
        (if holds (vals LHS) (vals RHS) then vals TrueVal else vals FalseVal) st

/-! ## Runs of a function -/

inductive DagEnd.Exits (vals : Nat → Word) (next : Option BlockId) : DagEnd → Exit → Prop where
  | RET_FLAG : Exits vals next .RET_FLAG .ret
  | BR {Dest : BlockId} : Exits vals next (.BR Dest) (.block Dest)
  | BR_CC {CC : CondCode} {LHS RHS : Nat} {Dest : BlockId} {other : Option BlockId}
      {holds : Word → Word → Bool} (h : CC.intMeaning = some holds) :
      Exits vals next (.BR_CC CC LHS RHS Dest other)
        (if holds (vals LHS) (vals RHS) then .block Dest else fallThrough (other.or next))
  | next : Exits vals next .next (fallThrough next)

/-- Control in front of node `i` of block `b`, whose earlier nodes have the values `vals`. -/
inductive DagConfig where
  | run (b : BlockId) (i : Nat) (vals : Nat → Word) (st : DagState)
  | returned (st : DagState)

def DagConfig.state : DagConfig → DagState
  | run _ _ _ st => st
  | returned st => st

inductive DagEvent where
  | node (i : Nat)
  | enter (b : BlockId) (values : List (Register × Word))
  | ret
  deriving DecidableEq, Repr

inductive DagStep (W : World σ) (f : DagFunction σ) : DagConfig → DagEvent → DagConfig → Prop where
  | node {b : BlockId} {i : Nat} {n : DagNode σ} {vals : Nat → Word} {v : Word} {st st' : DagState}
      (hn : (f.block b).nodes[i]? = some n) (h : n.Step W vals st v st') :
      DagStep W f (.run b i vals st) (.node i) (.run b (i + 1) (Function.update vals i v) st')
  | enter {b b' : BlockId} {vals vals' : Nat → Word} {st : DagState}
      {values : List (Register × Word)}
      (hexit : (f.block b).last.Exits vals (layoutSucc f.layout b) (.block b'))
      (hphis : phiValues b st.regs (f.block b').phis = some values) :
      DagStep W f (.run b (f.block b).nodes.length vals st) (.enter b' values)
        (.run b' 0 vals' (st.setAll values))
  | ret {b : BlockId} {vals : Nat → Word} {st : DagState}
      (hexit : (f.block b).last.Exits vals (layoutSucc f.layout b) .ret) :
      DagStep W f (.run b (f.block b).nodes.length vals st) .ret (.returned st)

end Mandarin.Isel
