import Mandarin.Isel.Immediate
import Mandarin.Lib.Line
import Mandarin.Lib.Packing

/-! # Formats and operands

The 32-bit formats place an operation and the operands of an instruction in a word.
Operands are bound to the fields a format leaves open, in order; an operand behind
the last field is not encoded. The printer writes the condition behind the name and
the other operands behind a blank.
-/

namespace Mandarin.Encoding

open Isel (isUInt)
open Line Packing

/-! ## Formats -/

inductive Format where
  | Inst32MD3R | Inst32MD3I | Inst32MD2R | Inst32MD2I | Inst32MD1R | Inst32MD1I | Inst32MD0
  deriving DecidableEq, Repr

/-- The fields that operands are bound to. `repCount` is 0 and not one of them. -/
def Format.fields : Format → List Slice
  | .Inst32MD3R => [⟨13, 5⟩, ⟨18, 5⟩, ⟨23, 5⟩]
  | .Inst32MD3I => [⟨8, 5⟩, ⟨13, 5⟩, ⟨18, 14⟩]
  | .Inst32MD2R => [⟨13, 5⟩, ⟨18, 5⟩]
  | .Inst32MD2I => [⟨8, 5⟩, ⟨13, 19⟩]
  | .Inst32MD1R => [⟨8, 5⟩]
  | .Inst32MD1I => [⟨8, 24⟩]
  | .Inst32MD0 => []

def flagInstSize : Slice := ⟨0, 1⟩
def operationField : Slice := ⟨1, 7⟩

theorem ascending_fields (f : Format) :
    Ascending 32 0 (flagInstSize :: operationField :: f.fields) := by
  cases f <;> decide

/-! ## Operands -/

/-- The range a pattern demands of an immediate. Where it demands none the operand is
an address of 19 bits. -/
inductive Predicate where
  | uimm14 | simm14 | uimm19 | simm19 | addr
  deriving DecidableEq, Repr

def Predicate.holds : Predicate → Word → Bool
  | uimm14 => Isel.uimm14
  | simm14 => Isel.simm14
  | uimm19 => Isel.uimm19
  | simm19 => Isel.simm19
  | addr => isUInt 19

inductive OperandKind where
  | regs (rc : RegClass)
  | i32imm (p : Predicate)
  | jmptarget
  | cc
  deriving DecidableEq, Repr

/-- A block operand stands for the address of the block. -/
inductive Operand where
  | reg (r : Reg)
  | imm (v : Word)
  | block (address : Word)
  deriving DecidableEq, Repr

def OperandKind.admits : OperandKind → Operand → Bool
  | .regs rc, .reg r => rc.contains r
  | .i32imm p, .imm v => p.holds v
  | .jmptarget, .block a => isUInt 19 a
  | .cc, .imm _ => true
  | _, _ => false

/-- The encoding of a register; a tuple has that of its first lane. -/
def HWEncoding : Reg → Fin 32
  | .R n => n
  | .RD n => ⟨2 * n, firstLane_double n⟩
  | .RQ n => ⟨4 * n, firstLane_quad n⟩
  | .NoRegister | .CC_FLAG => 0

def Operand.value : Operand → Nat
  | reg r => (HWEncoding r).val
  | imm v => v.toNat
  | block a => a.toNat

/-! ## Instructions -/

structure InstDef where
  format : Format
  operation : BitVec 7
  outs : List OperandKind
  ins : List OperandKind
  asm : String
  deriving DecidableEq, Repr

def InstDef.kinds (d : InstDef) : List OperandKind := d.outs ++ d.ins

/-- The operation and the operands at their places, the lowest bit set. -/
def InstDef.Inst (d : InstDef) (operands : List Operand) : Word :=
  pack 32 ((flagInstSize, 1) :: (operationField, d.operation.toNat) ::
    d.format.fields.zip (operands.map Operand.value))

/-! ## Printing -/

def printCCOperand (c : Word) : String :=
  if c = 0 then "eq" else if c = 1 then "ne" else if c = 2 then "gr" else if c = 3 then "ls"
  else if c = 4 then "ge" else if c = 5 then "le" else "cc_error"

/-- Names of registers are `R` and their encoding, printed in lower case. `symbol`
names the blocks. -/
def printOperand (symbol : Word → String) : Operand → String
  | .reg r => "r" ++ (HWEncoding r).val.repr
  | .imm v => v.toInt.repr
  | .block a => symbol a

def condition (kinds : List OperandKind) (operands : List Operand) : String :=
  String.join ((kinds.zip operands).filterMap fun p =>
    match p with
    | (.cc, .imm c) => some (printCCOperand c)
    | _ => none)

def printed (kinds : List OperandKind) (operands : List Operand) : List Operand :=
  ((kinds.zip operands).filter fun p => p.1 ≠ .cc).map Prod.snd

def InstDef.mnemonic (d : InstDef) (operands : List Operand) : String :=
  d.asm ++ condition d.kinds operands

def InstDef.text (d : InstDef) (symbol : Word → String) (operands : List Operand) : String :=
  line (d.mnemonic operands) ((printed d.kinds operands).map (printOperand symbol))

end Mandarin.Encoding
