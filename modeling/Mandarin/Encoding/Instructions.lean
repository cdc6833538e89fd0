import Mandarin.Encoding.Formats

/-! # The instruction definitions

Every definition of the target description that is no pseudo instruction, with the
operation and the operands it is given there. The multiclasses define the forms of an
operation on one, two and four registers.
-/

namespace Mandarin.Encoding

/-! ## Operand kinds -/

def GenericRegs : OperandKind := .regs .GenericRegs
def DoubleRegs : OperandKind := .regs .DoubleRegs
def QuadRegs : OperandKind := .regs .QuadRegs

/-! ## Multiclasses -/

def Inst32MD3Int (operation : BitVec 7) (OpcStr : String) : List InstDef :=
  [⟨.Inst32MD3R, operation, [GenericRegs], [GenericRegs, GenericRegs], OpcStr⟩,
   ⟨.Inst32MD3R, operation, [DoubleRegs], [DoubleRegs, DoubleRegs], OpcStr ++ "[2]"⟩,
   ⟨.Inst32MD3R, operation, [QuadRegs], [QuadRegs, QuadRegs], OpcStr ++ "[4]"⟩]

def Inst32MD3IntU (operation : BitVec 7) (OpcStr : String) : List InstDef :=
  Inst32MD3Int operation OpcStr ++
    [⟨.Inst32MD3I, operation, [GenericRegs], [GenericRegs, .i32imm .uimm14], OpcStr⟩]

def Inst32MD3IntS (operation : BitVec 7) (OpcStr : String) : List InstDef :=
  Inst32MD3Int operation OpcStr ++
    [⟨.Inst32MD3I, operation, [GenericRegs], [GenericRegs, .i32imm .simm14], OpcStr⟩]

/-- The patterns differ from those of `Inst32MD3Int`, the instructions do not. -/
def Inst32MD3Float (operation : BitVec 7) (OpcStr : String) : List InstDef :=
  Inst32MD3Int operation OpcStr

/-! ## Arithmetic -/

def ADD : List InstDef := Inst32MD3IntU 0 "add"
def SUB : List InstDef := Inst32MD3IntU 1 "sub"
def MUL : List InstDef := Inst32MD3IntU 2 "mul"
def DIV : List InstDef := Inst32MD3IntS 3 "div"
def MOD : List InstDef := Inst32MD3IntS 4 "mod"

def FADD : List InstDef := Inst32MD3Float 5 "fadd"
def FSUB : List InstDef := Inst32MD3Float 6 "fsub"
def FMUL : List InstDef := Inst32MD3Float 7 "fmul"
def FDIV : List InstDef := Inst32MD3Float 8 "fdiv"

def SHL : List InstDef := Inst32MD3IntU 9 "shl"
def SHR : List InstDef := Inst32MD3IntU 10 "shr"
def AND : List InstDef := Inst32MD3IntU 11 "and"
def OR : List InstDef := Inst32MD3IntU 12 "or"
def XOR : List InstDef := Inst32MD3IntU 13 "xor"

/-! ## Comparisons and unary operations -/

def CMPrr : InstDef := ⟨.Inst32MD2R, 14, [], [GenericRegs, GenericRegs], "cmp"⟩
def CMPri : InstDef := ⟨.Inst32MD2I, 14, [], [GenericRegs, .i32imm .uimm19], "cmp"⟩
def SCMPrr : InstDef := ⟨.Inst32MD2R, 15, [], [GenericRegs, GenericRegs], "scmp"⟩
def SCMPri : InstDef := ⟨.Inst32MD2I, 15, [], [GenericRegs, .i32imm .simm19], "scmp"⟩
def FCMPrr : InstDef := ⟨.Inst32MD2R, 17, [], [GenericRegs, GenericRegs], "fcmp"⟩
def FCMPri : InstDef := ⟨.Inst32MD2I, 17, [], [GenericRegs, .i32imm .simm19], "fcmp"⟩

def NEGrr : InstDef := ⟨.Inst32MD2R, 20, [GenericRegs], [GenericRegs], "neg"⟩
def FTOIrr : InstDef := ⟨.Inst32MD2R, 18, [GenericRegs], [GenericRegs], "ftoi"⟩
def ITOFrr : InstDef := ⟨.Inst32MD2R, 19, [GenericRegs], [GenericRegs], "ftoi"⟩
def ITOFri : InstDef := ⟨.Inst32MD2R, 19, [GenericRegs], [.i32imm .simm19], "ftoi"⟩
def NOTrr : InstDef := ⟨.Inst32MD2R, 20, [GenericRegs], [GenericRegs], "not"⟩

/-! ## Branches, calls and returns -/

def JCCi : InstDef := ⟨.Inst32MD1I, 0, [], [.jmptarget, .cc], "j"⟩
def JMPi : InstDef := ⟨.Inst32MD1I, 28, [], [.jmptarget], "jmp"⟩
def JCCr : InstDef := ⟨.Inst32MD1I, 0, [], [GenericRegs, .cc], "j"⟩
def JMPr : InstDef := ⟨.Inst32MD1I, 28, [], [GenericRegs], "jmp"⟩
def RET : InstDef := ⟨.Inst32MD0, 45, [], [], "ret"⟩
def CALLi : InstDef := ⟨.Inst32MD1I, 21, [], [.i32imm .uimm19], "call"⟩
def CALLr : InstDef := ⟨.Inst32MD1R, 21, [], [GenericRegs], "call"⟩

/-! ## Loads -/

def LOADrr : InstDef := ⟨.Inst32MD2R, 29, [GenericRegs], [GenericRegs], "load"⟩
def LOADri : InstDef := ⟨.Inst32MD2I, 29, [GenericRegs], [.i32imm .addr], "load"⟩
def LOAD2rr : InstDef := ⟨.Inst32MD2R, 29, [DoubleRegs], [GenericRegs], "load[2]"⟩
def LOAD2ri : InstDef := ⟨.Inst32MD2I, 29, [DoubleRegs], [.i32imm .addr], "load[2]"⟩
def LOAD4rr : InstDef := ⟨.Inst32MD2R, 29, [QuadRegs], [GenericRegs], "load[4]"⟩
def LOAD4ri : InstDef := ⟨.Inst32MD2I, 29, [QuadRegs], [.i32imm .addr], "load[4]"⟩
def LOADfrr : InstDef := ⟨.Inst32MD2R, 29, [GenericRegs], [GenericRegs], "load"⟩
def LOADfri : InstDef := ⟨.Inst32MD2I, 29, [GenericRegs], [.i32imm .addr], "load"⟩
def LOAD2frr : InstDef := ⟨.Inst32MD2R, 29, [DoubleRegs], [GenericRegs], "load[2]"⟩
def LOAD2fri : InstDef := ⟨.Inst32MD2I, 29, [DoubleRegs], [.i32imm .addr], "load[2]"⟩
def LOAD4frr : InstDef := ⟨.Inst32MD2R, 29, [QuadRegs], [GenericRegs], "load[4]"⟩
def LOAD4fri : InstDef := ⟨.Inst32MD2I, 29, [QuadRegs], [.i32imm .addr], "load[4]"⟩

def LOADWrr : InstDef := ⟨.Inst32MD2R, 30, [GenericRegs], [GenericRegs], "loadw"⟩
def LOADWri : InstDef := ⟨.Inst32MD2I, 30, [GenericRegs], [.i32imm .addr], "loadw"⟩
def LOADBrr : InstDef := ⟨.Inst32MD2R, 31, [GenericRegs], [GenericRegs], "loadb"⟩
def LOADBri : InstDef := ⟨.Inst32MD2I, 31, [GenericRegs], [.i32imm .addr], "loadb"⟩

def LOADLrr : InstDef := ⟨.Inst32MD2R, 29, [GenericRegs], [GenericRegs], "loadl"⟩
def LOADLri : InstDef := ⟨.Inst32MD2I, 29, [GenericRegs], [.i32imm .addr], "loadl"⟩
def LOADLWrr : InstDef := ⟨.Inst32MD2R, 30, [GenericRegs], [GenericRegs], "loadlw"⟩
def LOADLWri : InstDef := ⟨.Inst32MD2I, 30, [GenericRegs], [.i32imm .addr], "loadlw"⟩
def LOADLBrr : InstDef := ⟨.Inst32MD2R, 31, [GenericRegs], [GenericRegs], "loadlb"⟩
def LOADLBri : InstDef := ⟨.Inst32MD2I, 31, [GenericRegs], [.i32imm .addr], "loadlb"⟩

/-! ## Stores -/

def STORErr : InstDef := ⟨.Inst32MD2R, 32, [], [GenericRegs, GenericRegs], "store"⟩
def STOREri : InstDef := ⟨.Inst32MD2I, 32, [], [GenericRegs, .i32imm .addr], "store"⟩

-- the other stores to an address have the format of two registers
def STORE2rr : InstDef := ⟨.Inst32MD2R, 32, [], [DoubleRegs, GenericRegs], "store[2]"⟩
def STORE2ri : InstDef := ⟨.Inst32MD2R, 32, [], [DoubleRegs, .i32imm .addr], "store[2]"⟩
def STORE4rr : InstDef := ⟨.Inst32MD2R, 32, [], [QuadRegs, GenericRegs], "store[4]"⟩
def STORE4ri : InstDef := ⟨.Inst32MD2R, 32, [], [QuadRegs, .i32imm .addr], "store[4]"⟩
def STOREfrr : InstDef := ⟨.Inst32MD2R, 32, [], [GenericRegs, GenericRegs], "store"⟩
def STOREfri : InstDef := ⟨.Inst32MD2R, 32, [], [GenericRegs, .i32imm .addr], "store"⟩
def STORE2frr : InstDef := ⟨.Inst32MD2R, 32, [], [DoubleRegs, GenericRegs], "store[2]"⟩
def STORE2fri : InstDef := ⟨.Inst32MD2R, 32, [], [DoubleRegs, .i32imm .addr], "store[2]"⟩
def STORE4frr : InstDef := ⟨.Inst32MD2R, 32, [], [QuadRegs, GenericRegs], "store[4]"⟩
def STORE4fri : InstDef := ⟨.Inst32MD2R, 32, [], [QuadRegs, .i32imm .addr], "store[4]"⟩

def STOREWrr : InstDef := ⟨.Inst32MD2R, 33, [], [GenericRegs, GenericRegs], "storew"⟩
def STOREWri : InstDef := ⟨.Inst32MD2I, 33, [], [GenericRegs, .i32imm .addr], "storew"⟩
def STOREBrr : InstDef := ⟨.Inst32MD2R, 34, [], [GenericRegs, GenericRegs], "storeb"⟩
def STOREBri : InstDef := ⟨.Inst32MD2I, 34, [], [GenericRegs, .i32imm .addr], "storeb"⟩

def STORELrr : InstDef := ⟨.Inst32MD2R, 32, [], [GenericRegs, GenericRegs], "storel"⟩
def STORELri : InstDef := ⟨.Inst32MD2I, 32, [], [GenericRegs, .i32imm .addr], "storel"⟩
def STORELWrr : InstDef := ⟨.Inst32MD2R, 33, [], [GenericRegs, GenericRegs], "storelw"⟩
def STORELWri : InstDef := ⟨.Inst32MD2I, 33, [], [GenericRegs, .i32imm .addr], "storelw"⟩
def STORELBrr : InstDef := ⟨.Inst32MD2R, 34, [], [GenericRegs, GenericRegs], "storelb"⟩
def STORELBri : InstDef := ⟨.Inst32MD2I, 34, [], [GenericRegs, .i32imm .addr], "storelb"⟩

/-! ## Immediate loads and moves -/

def LDIri : InstDef := ⟨.Inst32MD2I, 41, [GenericRegs], [.i32imm .uimm19], "ldi"⟩
def MOVrr : InstDef := ⟨.Inst32MD2R, 42, [GenericRegs], [GenericRegs], "mov"⟩
def MOV2rr : InstDef := ⟨.Inst32MD2R, 42, [DoubleRegs], [DoubleRegs], "mov[2]"⟩
def MOV4rr : InstDef := ⟨.Inst32MD2R, 42, [QuadRegs], [QuadRegs], "mov[4]"⟩

def SCALAR_TO_VECTOR2i : InstDef := ⟨.Inst32MD2R, 42, [DoubleRegs], [GenericRegs], "mov"⟩
def SCALAR_TO_VECTOR4i : InstDef := ⟨.Inst32MD2R, 42, [QuadRegs], [GenericRegs], "mov"⟩
def SCALAR_TO_VECTOR2f : InstDef := ⟨.Inst32MD2R, 42, [DoubleRegs], [GenericRegs], "mov"⟩
def SCALAR_TO_VECTOR4f : InstDef := ⟨.Inst32MD2R, 42, [QuadRegs], [GenericRegs], "mov"⟩

/-! ## All definitions -/

def instructions : List InstDef :=
  ADD ++ SUB ++ MUL ++ DIV ++ MOD ++ FADD ++ FSUB ++ FMUL ++ FDIV ++ SHL ++ SHR ++ AND ++ OR ++ XOR ++
  [CMPrr, CMPri, SCMPrr, SCMPri, FCMPrr, FCMPri, NEGrr, FTOIrr, ITOFrr, ITOFri, NOTrr] ++
  [JCCi, JMPi, JCCr, JMPr, RET, CALLi, CALLr] ++
  [LOADrr, LOADri, LOAD2rr, LOAD2ri, LOAD4rr, LOAD4ri, LOADfrr, LOADfri, LOAD2frr, LOAD2fri,
   LOAD4frr, LOAD4fri, LOADWrr, LOADWri, LOADBrr, LOADBri, LOADLrr, LOADLri, LOADLWrr, LOADLWri,
   LOADLBrr, LOADLBri] ++
  [STORErr, STOREri, STORE2rr, STORE2ri, STORE4rr, STORE4ri, STOREfrr, STOREfri, STORE2frr,
   STORE2fri, STORE4frr, STORE4fri, STOREWrr, STOREWri, STOREBrr, STOREBri, STORELrr, STORELri,
   STORELWrr, STORELWri, STORELBrr, STORELBri] ++
  [LDIri, MOVrr, MOV2rr, MOV4rr, SCALAR_TO_VECTOR2i, SCALAR_TO_VECTOR4i, SCALAR_TO_VECTOR2f,
   SCALAR_TO_VECTOR4f]

end Mandarin.Encoding
