import Mandarin.Lib.Layout
import Mandarin.Target.Register

/-! # Calling-convention state

`CCState` is the state LLVM threads through an argument analysis: the registers
handed out so far, the end of the stack area and the locations recorded. Only
the operations the target calls are modelled. Stack offsets are `unsigned`, so
they wrap at `2 ^ 32`.
-/

namespace Mandarin.CallConv

open Layout

/-- The argument flags the target reads. -/
structure ArgFlagsTy where
  isByVal : Bool
  byValSize : Word
  byValAlign : Word
  deriving DecidableEq, Repr

/-- One entry of `Outs` or `Ins`: both lists carry the same three fields. -/
structure ArgT where
  VT : MVT
  flags : ArgFlagsTy
  origArgIndex : Word
  deriving DecidableEq, Repr

inductive LocInfo where
  | Full | SExt | ZExt | AExt
  deriving DecidableEq, Repr

inductive Loc where
  | reg (r : Reg)
  | mem (offset : Word)
  deriving DecidableEq, Repr

structure CCValAssign where
  valNo : Nat
  valVT : MVT
  loc : Loc
  locVT : MVT
  locInfo : LocInfo
  deriving DecidableEq, Repr

namespace CCValAssign

def getReg (valNo : Nat) (valVT : MVT) (r : Reg) (locVT : MVT) (info : LocInfo) : CCValAssign :=
  ⟨valNo, valVT, .reg r, locVT, info⟩

def getMem (valNo : Nat) (valVT : MVT) (offset : Word) (locVT : MVT) (info : LocInfo) :
    CCValAssign :=
  ⟨valNo, valVT, .mem offset, locVT, info⟩

end CCValAssign

structure CCState where
  usedRegs : Reg → Bool
  stackOffset : Word
  locs : List CCValAssign

namespace CCState

def initial : CCState := ⟨fun _ => false, 0, []⟩

def getNextStackOffset (st : CCState) : Word := st.stackOffset

def addLoc (st : CCState) (l : CCValAssign) : CCState := { st with locs := st.locs ++ [l] }

/-- A register is taken together with all its aliases. -/
def markAllocated (st : CCState) (r : Reg) : CCState :=
  { st with usedRegs := fun q => st.usedRegs q || r.overlaps q }

/-- The first free register of the list, or `NoRegister`. -/
def allocateReg (st : CCState) (regs : List Reg) : Reg × CCState :=
  match regs.find? (fun r => !st.usedRegs r) with
  | none => (.NoRegister, st)
  | some r => (r, st.markAllocated r)

def allocateStack (st : CCState) (size align : Word) : Word × CCState :=
  let result := alignUp st.stackOffset align
  (result, { st with stackOffset := result + size })

/-- `HandleByVal` raises size and alignment of an aggregate to a minimum. -/
def atLeast (least w : Word) : Word := if w < least then least else w

def handleByVal (st : CCState) (valNo : Nat) (valVT locVT : MVT) (info : LocInfo)
    (minSize minAlign : Word) (flags : ArgFlagsTy) : CCState :=
  let size := atLeast minSize flags.byValSize
  let align := atLeast minAlign flags.byValAlign
  let (offset, st) := st.allocateStack size align
  st.addLoc (.getMem valNo valVT offset locVT info)

@[simp] theorem addLoc_locs (st : CCState) (l : CCValAssign) :
    (st.addLoc l).locs = st.locs ++ [l] := rfl

@[simp] theorem addLoc_usedRegs (st : CCState) (l : CCValAssign) :
    (st.addLoc l).usedRegs = st.usedRegs := rfl

@[simp] theorem addLoc_stackOffset (st : CCState) (l : CCValAssign) :
    (st.addLoc l).stackOffset = st.stackOffset := rfl

@[simp] theorem markAllocated_locs (st : CCState) (r : Reg) :
    (st.markAllocated r).locs = st.locs := rfl

@[simp] theorem markAllocated_stackOffset (st : CCState) (r : Reg) :
    (st.markAllocated r).stackOffset = st.stackOffset := rfl

@[simp] theorem allocateReg_locs (st : CCState) (regs : List Reg) :
    (st.allocateReg regs).2.locs = st.locs := by
  unfold allocateReg
  split <;> rfl

@[simp] theorem allocateReg_stackOffset (st : CCState) (regs : List Reg) :
    (st.allocateReg regs).2.stackOffset = st.stackOffset := by
  unfold allocateReg
  split <;> rfl

end CCState

end Mandarin.CallConv
