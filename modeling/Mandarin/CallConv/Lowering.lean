import Mandarin.CallConv.Arguments

/-! # Lowering calls and formal arguments

Both lowerings run the same analysis and then walk its locations, location `i`
being taken for value `i`. The caller's walk yields memory operations at offsets
from the stack pointer and register copies; the callee's yields the incoming
values and the fixed stack objects they live in. Operands are opaque nodes, of
type `α` here. `none` stands for a read past the end of a list or for
`llvm_unreachable`.
-/

namespace Mandarin.CallConv

def eachLoc {β : Type} (f : Nat → CCValAssign → Option β) : Nat → List CCValAssign →
    Option (List β)
  | _, [] => some []
  | i, va :: vas => do
      let b ← f i va
      let bs ← eachLoc f (i + 1) vas
      some (b :: bs)

theorem eachLoc_eq_some {β : Type} {f : Nat → CCValAssign → Option β} {i : Nat}
    {vas : List CCValAssign} (h : ∀ k va, vas[k]? = some va → ∃ b, f (i + k) va = some b) :
    ∃ bs, eachLoc f i vas = some bs ∧ bs.length = vas.length ∧
      ∀ k, bs[k]? = vas[k]?.bind (f (i + k)) := by
  induction vas generalizing i with
  | nil => exact ⟨[], rfl, rfl, by simp⟩
  | cons va vas ih =>
      obtain ⟨b, hb⟩ := h 0 va rfl
      obtain ⟨bs, hbs, hlen, hget⟩ := @ih (i + 1) fun k va' hk => by
        rw [show i + 1 + k = i + (k + 1) by omega]
        exact h (k + 1) va' hk
      rw [Nat.add_zero] at hb
      refine ⟨b :: bs, ?_, by rw [List.length_cons, List.length_cons, hlen], ?_⟩
      · simp only [eachLoc, hb, hbs, bind, Option.bind]
      · intro k
        cases k with
        | zero => simp [hb]
        | succ k =>
            rw [List.getElem?_cons_succ, List.getElem?_cons_succ, hget,
              show i + 1 + k = i + (k + 1) by omega]

/-! ## The caller -/

/-- An operand, extended to the location type where the location asks for it. -/
inductive ArgNode (α : Type) where
  | value (a : α)
  | extend (info : LocInfo) (VT : MVT) (a : α)
  deriving DecidableEq, Repr

def promote {α : Type} (va : CCValAssign) (arg : α) : ArgNode α :=
  match va.locInfo with
  | .Full => .value arg
  | info => .extend info va.locVT arg

/-- A store or an inline `memcpy` to an offset from the stack pointer. -/
inductive MemOp (α : Type) where
  | store (offset : Word) (arg : ArgNode α)
  | memcpy (offset : Word) (arg : ArgNode α) (size align : Word)
  deriving DecidableEq, Repr

inductive Transfer (α : Type) where
  | regToPass (r : Reg) (arg : ArgNode α)
  | memOp (op : MemOp α)
  deriving DecidableEq, Repr

def Transfer.reg? {α : Type} : Transfer α → Option (Reg × ArgNode α)
  | regToPass r arg => some (r, arg)
  | memOp _ => none

def Transfer.mem? {α : Type} : Transfer α → Option (MemOp α)
  | regToPass _ _ => none
  | memOp op => some op

def lowerOperand {α : Type} (outs : List ArgT) (outVals : List α) (i : Nat) (va : CCValAssign) :
    Option (Transfer α) := do
  let arg ← outVals[i]?
  match va.loc with
  | .reg r => some (.regToPass r (promote va arg))
  | .mem offset => do
      let out ← outs[i]?
      if out.flags.isByVal then
        some (.memOp
          (.memcpy offset (promote va arg) out.flags.byValSize out.flags.byValAlign))
      else some (.memOp (.store offset (promote va arg)))

structure LoweredCall (α : Type) where
  numBytes : Word
  memOps : List (MemOp α)
  regsToPass : List (Reg × ArgNode α)

/-- The argument part of `LowerCall`. -/
def lowerCall {α : Type} (isVarArg : Bool) (outs : List ArgT) (outVals : List α) :
    Option (LoweredCall α) := do
  let cc ← analyzeArguments isVarArg outs
  let ts ← eachLoc (lowerOperand outs outVals) 0 cc.locs
  some ⟨cc.getNextStackOffset, ts.filterMap Transfer.mem?, ts.filterMap Transfer.reg?⟩

theorem numBytes_lowerCall {α : Type} {isVarArg : Bool} {outs : List ArgT} {outVals : List α}
    {cc : CCState} {call : LoweredCall α} (hanalysis : analyzeArguments isVarArg outs = some cc)
    (hcall : lowerCall isVarArg outs outVals = some call) :
    call.numBytes = cc.getNextStackOffset := by
  unfold lowerCall at hcall
  rw [hanalysis, Option.bind_eq_bind, Option.bind_some] at hcall
  obtain ⟨ts, _, hts⟩ := Option.bind_eq_some_iff.mp hcall
  cases hts
  rfl

/-! ## The callee -/

/-- The class of the virtual register a live-in of this type is read in. -/
def liveInClass : MVT → RegClass
  | .i32 | .f32 => .GenericRegs
  | .v2i32 | .v2f32 => .DoubleRegs
  | .v4i32 | .v4f32 => .QuadRegs

/-- A fixed object of the frame, at an offset from the incoming stack pointer. -/
structure FixedObject where
  size : Word
  offset : Word
  deriving DecidableEq, Repr

/-- An incoming value. A frame index is represented by the object it denotes. -/
inductive InVal where
  | copyFromReg (r : Reg) (rc : RegClass) (VT : MVT)
  | load (VT : MVT) (object : FixedObject)
  | frameIndex (object : FixedObject)
  deriving DecidableEq, Repr

def InVal.object? : InVal → Option FixedObject
  | copyFromReg _ _ _ => none
  | load _ object => some object
  | frameIndex object => some object

def lowerFormal (ins : List ArgT) (i : Nat) (va : CCValAssign) : Option InVal :=
  match va.loc with
  | .reg r => some (.copyFromReg r (liveInClass va.locVT) va.locVT)
  | .mem offset => do
      let a ← ins[i]?
      if a.flags.isByVal then some (.frameIndex ⟨a.flags.byValSize, offset⟩)
      else
        let objSize := va.locVT.getSizeInBits / 32
        if objSize > 1 then none
        else some (.load va.locVT ⟨BitVec.ofNat 32 objSize, offset⟩)

structure LoweredFormals where
  inVals : List InVal
  fixedObjects : List FixedObject

/-- `LowerFormalArguments`, which asserts that the function is not variadic. -/
def lowerFormalArguments (isVarArg : Bool) (ins : List ArgT) : Option LoweredFormals := do
  let cc ← analyzeArguments isVarArg ins
  if isVarArg then none
  else do
    let inVals ← eachLoc (lowerFormal ins) 0 cc.locs
    some ⟨inVals, inVals.filterMap InVal.object?⟩

end Mandarin.CallConv
