import Mandarin.CallConv.State

/-! # Assigning locations to arguments

`parseFunctionArgs` cuts an argument list into groups, one count per original
argument; `analyzeArguments` walks the groups with its own value counter, its
own count of registers left and a sticky stack flag. Both are written as the
source writes them: the group loop reads the entry at the value counter, not at
the group's position, and a stack-passed vector leaves both the state and the
counter alone. `none` stands for undefined behaviour: `back()` of an empty
vector, or an argument read out of bounds.
-/

namespace Mandarin.CallConv

/-! ## Cutting the list into original arguments -/

/-- One round of the loop of `ParseFunctionArgs`: the running argument index and
the counts pushed so far, last one first. -/
def parseStep (s : Word × List Nat) (a : ArgT) : Option (Word × List Nat) :=
  if s.1 = a.origArgIndex then
    match s.2 with
    | [] => none
    | n :: out => some (s.1, (n + 1) :: out)
  else some (s.1 + 1, 1 :: s.2)

def parseFunctionArgs (args : List ArgT) : Option (List Nat) :=
  (args.foldlM parseStep (~~~0, [])).map fun s => s.2.reverse

/-! ## Variadic calls -/

def assignStackCC (st : CCState) (valNo : Nat) (a : ArgT) : CCState :=
  if a.flags.isByVal then st.handleByVal valNo a.VT a.VT .Full 4 4 a.flags
  else
    let size : Word := match a.VT with
      | .i32 | .f32 => 4
      | .v2i32 | .v2f32 => 8
      | .v4i32 | .v4f32 => 16
    let (offset, st) := st.allocateStack size 4
    st.addLoc (.getMem valNo a.VT offset a.VT .Full)

def analyzeVarArgs (st : CCState) (args : List ArgT) : CCState :=
  args.zipIdx.foldl (fun st p => assignStackCC st p.2 p.1) st

/-! ## Fixed calls -/

def regList : List Reg := [.R 0, .R 1, .R 2, .R 3]

def nbRegs : Nat := regList.length

structure AnalyzeState where
  cc : CCState
  regsLeft : Nat
  useStack : Bool
  valNo : Nat

def assignRegs (argVT : MVT) : Nat → AnalyzeState → AnalyzeState
  | 0, s => s
  | parts + 1, s =>
      let (reg, cc) := s.cc.allocateReg regList
      assignRegs argVT parts
        { s with
          cc := cc.addLoc (.getReg s.valNo argVT reg argVT .Full)
          valNo := s.valNo + 1
          regsLeft := s.regsLeft - 1 }

/-- The part loop of a group on the stack. Nothing happens for a vector. -/
def assignStack (argVT : MVT) (flags : ArgFlagsTy) : Nat → AnalyzeState → AnalyzeState
  | 0, s => s
  | parts + 1, s =>
      if flags.isByVal then
        assignStack argVT flags parts
          { s with
            cc := s.cc.handleByVal s.valNo argVT argVT .Full 4 4 flags
            valNo := s.valNo + 1 }
      else if argVT = .i32 ∨ argVT = .f32 then
        let (offset, cc) := s.cc.allocateStack 4 4
        assignStack argVT flags parts
          { s with
            cc := cc.addLoc (.getMem s.valNo argVT offset argVT .Full)
            valNo := s.valNo + 1 }
      else assignStack argVT flags parts s

/-- One round of the group loop: type and flags are those of the entry at the
value counter. -/
def assignGroup (args : List ArgT) (s : AnalyzeState) (parts : Nat) : Option AnalyzeState := do
  let a ← args[s.valNo]?
  if a.flags.isByVal then
    some
      { s with
        cc := s.cc.handleByVal s.valNo a.VT a.VT .Full 2 2 a.flags
        valNo := s.valNo + 1 }
  else if !s.useStack && parts ≤ s.regsLeft then some (assignRegs a.VT parts s)
  else some (assignStack a.VT a.flags parts { s with useStack := true })

def AnalyzeState.initial : AnalyzeState := ⟨.initial, nbRegs, false, 0⟩

def analyzeArguments (isVarArg : Bool) (args : List ArgT) : Option CCState :=
  if isVarArg then some (analyzeVarArgs .initial args)
  else do
    let argsParts ← parseFunctionArgs args
    let s ← argsParts.foldlM (assignGroup args) .initial
    some s.cc

end Mandarin.CallConv
