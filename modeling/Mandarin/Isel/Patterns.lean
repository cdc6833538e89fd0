import Mandarin.Isel.Dag

/-! # Selection patterns

A node is replaced by the instructions of a pattern that matches it. Which pattern is
tried first does not matter here: a selection takes any. The rr and ri forms of a load
or store come from one pattern and print alike, so an operand in the place of a
register is whatever has been selected for the node it stands for.
-/

namespace Mandarin.Isel

open Immediate Memory
open Branch (BlockId CondCodes)
open Select (State Inst SelectKind Terminator)

/-! ## Instructions -/

/-- An operand in the place of a register; `lo16` is printed around a symbol. -/
inductive Src (σ : Type) where
  | reg (r : Register)
  | frameIndex (fi : Int)
  | lo16 (g : σ)
  deriving DecidableEq, Repr

inductive LdiImm (σ : Type) where
  | imm (c : Word)
  | lo16 (g : σ)
  deriving DecidableEq, Repr

inductive MachInstr (σ : Type) where
  | LDIri (dst : Register) (src : LdiImm σ)
  | rr (op : AluOp) (dst : Register) (src1 src2 : Src σ)
  | ri (op : AluOp) (dst : Register) (src1 : Src σ) (src2 : Word)
  | frr (op : FaluOp) (dst : Register) (src1 src2 : Src σ)
  | NEGrr (dst : Register) (src : Src σ)
  | NOTrr (dst : Register) (src : Src σ)
  | FTOIrr (dst : Register) (src : Src σ)
  | ITOFrr (dst : Register) (src : Src σ)
  | ITOFri (dst : Register) (src : Word)
  | LOAD (dst : Register) (addr : Src σ)
  /-- `LOADW` and `LOADB`. -/
  | loadPart (VT : MemVT) (dst : Register) (addr : Src σ)
  | STORE (src addr : Src σ)
  /-- `STOREW` and `STOREB`. -/
  | storePart (VT : MemVT) (src addr : Src σ)
  | SCMPrr (src1 src2 : Src σ)
  | SCMPri (src1 : Src σ) (src2 : Word)
  | COPY (dst src : Register)
  deriving DecidableEq, Repr

variable {σ : Type}

/-- The machine, with the outcome of the last comparison in `CC_FLAG`. -/
abbrev MachState := State Outcome (Mem 32)

def lo16 (address : Word) : Word := address &&& 65535

def Src.eval (W : World σ) (regs : Register → Word) : Src σ → Word
  | reg r => regs r
  | frameIndex fi => W.frameAddress fi
  | lo16 g => Isel.lo16 (W.symbolAddress g)

def LdiImm.eval (W : World σ) : LdiImm σ → Word
  | imm c => c
  | lo16 g => Isel.lo16 (W.symbolAddress g)

/-- An immediate is read from its field. -/
def MachInstr.exec (W : World σ) (i : MachInstr σ) (st : MachState) : MachState :=
  match i with
  | LDIri dst src => st.setReg dst (fieldValue ldiField (src.eval W))
  | rr op dst src1 src2 => st.setReg dst (op.eval (src1.eval W st.regs) (src2.eval W st.regs))
  | ri op dst src1 src2 =>
      st.setReg dst (op.eval (src1.eval W st.regs) (fieldValue op.imm14 src2))
  | frr op dst src1 src2 => st.setReg dst (W.float op (src1.eval W st.regs) (src2.eval W st.regs))
  | NEGrr dst src => st.setReg dst (-src.eval W st.regs)
  | NOTrr dst src => st.setReg dst (~~~src.eval W st.regs)
  | FTOIrr dst src => st.setReg dst (W.fpToSint (src.eval W st.regs))
  | ITOFrr dst src => st.setReg dst (W.sintToFp (src.eval W st.regs))
  -- its format has no immediate field
  | ITOFri dst src => st.setReg dst (W.sintToFp src)
  | LOAD dst addr => st.setReg dst (loadWord st.mem (addr.eval W st.regs))
  | loadPart VT dst addr =>
      st.setReg dst ((Isel.loadPart st.mem (addr.eval W st.regs) VT).setWidth 32)
  | STORE src addr =>
      { st with mem := storeWord st.mem (addr.eval W st.regs) (src.eval W st.regs) }
  | storePart VT src addr =>
      { st with mem := Isel.storePart VT st.mem (addr.eval W st.regs) (src.eval W st.regs) }
  | SCMPrr src1 src2 =>
      { st with flag := signedCompare (src1.eval W st.regs) (src2.eval W st.regs) }
  | SCMPri src1 src2 =>
      { st with flag := signedCompare (src1.eval W st.regs) (fieldValue scmpField src2) }
  | COPY dst src => st.setReg dst (st.regs src)

/-! ## Trees of instructions -/

def Node.leaves : Node → List Nat
  | reg n => [n]
  | LDIri _ => []
  | rr _ src1 src2 => src1.leaves ++ src2.leaves
  | ri _ src1 _ => src1.leaves
  | NEGrr src | NOTrr src => src.leaves

/-- The instructions of a tree into virtual registers from `k` on, the operand its value
is in, and the first register left. -/
def Node.emit (operand : Nat → Src σ) : Node → Nat → List (MachInstr σ) × Src σ × Nat
  | reg n, k => ([], operand n, k)
  | LDIri src, k => ([.LDIri (.vreg k) (.imm src)], .reg (.vreg k), k + 1)
  | rr op src1 src2, k =>
      let first := src1.emit operand k
      let second := src2.emit operand first.2.2
      (first.1 ++ second.1 ++ [.rr op (.vreg second.2.2) first.2.1 second.2.1],
        .reg (.vreg second.2.2), second.2.2 + 1)
  | ri op src1 src2, k =>
      let first := src1.emit operand k
      (first.1 ++ [.ri op (.vreg first.2.2) first.2.1 src2], .reg (.vreg first.2.2), first.2.2 + 1)
  | NEGrr src, k =>
      let first := src.emit operand k
      (first.1 ++ [.NEGrr (.vreg first.2.2) first.2.1], .reg (.vreg first.2.2), first.2.2 + 1)
  | NOTrr src, k =>
      let first := src.emit operand k
      (first.1 ++ [.NOTrr (.vreg first.2.2) first.2.1], .reg (.vreg first.2.2), first.2.2 + 1)

/-! ## Patterns of the target description -/

def constantAt (nodes : List (DagNode σ)) (a : Nat) : Option Word :=
  match nodes[a]? with
  | some (.Constant c) => some c
  | _ => none

def symbolAt (nodes : List (DagNode σ)) (a : Nat) : Option σ :=
  match nodes[a]? with
  | some (.GlobalAddress g) => some g
  | _ => none

def DagNode.trees (nodes : List (DagNode σ)) : DagNode σ → List Node
  | Constant c => constants c
  | alu op a b =>
      .rr op (.reg a) (.reg b) ::
        (match constantAt nodes b with
          | some c => aluPatterns op (.reg a) c
          | none => []) ++
        match constantAt nodes a with
          | some c => leftPatterns op c (.reg b)
          | none => []
  | _ => []

def LoadExtType.pattern (dst : Register) (addr : Src σ) : LoadExtType → Option (MachInstr σ)
  | NON_EXTLOAD => some (.LOAD dst addr)
  | ZEXTLOAD VT => some (.loadPart VT dst addr)
  | EXTLOAD _ | SEXTLOAD _ => none

/-- `LowerAddress`: `MDISD::LOW` of the symbol flagged `MO_LO16`, except in position
independent code. -/
def lowerAddress (PIC : Bool) (g : σ) : Option (LdiImm σ) := if PIC then none else some (.lo16 g)

/-! ## Selected nodes -/

/-- What stands for the nodes selected so far, and the next virtual register. -/
structure Selection (σ : Type) where
  operand : Nat → Option (Src σ)
  next : Nat

namespace Selection

def define (s : Selection σ) (i : Nat) (src : Src σ) (next : Nat) : Selection σ :=
  ⟨Function.update s.operand i (some src), next⟩

def fresh (s : Selection σ) (i : Nat) : Selection σ := s.define i (.reg (.vreg s.next)) (s.next + 1)

def dst (s : Selection σ) : Register := .vreg s.next

theorem define_operand {s : Selection σ} {i j next : Nat} {src src' : Src σ}
    (h : (s.define i src next).operand j = some src') :
    (j = i ∧ src' = src) ∨ (j ≠ i ∧ s.operand j = some src') := by
  have h : Function.update s.operand i (some src) j = some src' := h
  by_cases hji : j = i
  · rw [hji, Function.update_self, Option.some.injEq] at h
    exact .inl ⟨hji, h.symm⟩
  · rw [Function.update_of_ne hji] at h
    exact .inr ⟨hji, h⟩

/-- `SelectAddr`; nodes that are called directly do not occur as addresses. -/
def selectAddr (nodes : List (DagNode σ)) (s : Selection σ) (Addr : Nat) : Option (Src σ) :=
  match nodes[Addr]? with
  | some (.FrameIndex fi) => some (.frameIndex fi)
  | _ => s.operand Addr

/-- The operand for a node, or for the constant that a node stands for. -/
inductive Provides (nodes : List (DagNode σ)) (s : Selection σ) {F : Type} :
    SDValue F .i32 → Src σ → Prop where
  | node {n : Nat} {src : Src σ} (h : s.operand n = some src) : Provides nodes s (.node n) src
  | Constant {c : Word} {n : Nat} {src : Src σ} (hn : nodes[n]? = some (.Constant c))
      (h : s.operand n = some src) : Provides nodes s (.Constant c) src

inductive Compares (nodes : List (DagNode σ)) (s : Selection σ) {F : Type} :
    CompareNode F .i32 → MachInstr σ → Prop where
  | SCMPrr {LHS RHS : SDValue F .i32} {src1 src2 : Src σ} (h1 : Provides nodes s LHS src1)
      (h2 : Provides nodes s RHS src2) : Compares nodes s (.ICMP LHS RHS) (.SCMPrr src1 src2)
  | SCMPri {LHS : SDValue F .i32} {c : Word} {src1 : Src σ} (h1 : Provides nodes s LHS src1)
      (hc : simm19 c = true) : Compares nodes s (.ICMP LHS (.Constant c)) (.SCMPri src1 c)

end Selection

def sdValue (nodes : List (DagNode σ)) (a : Nat) : SDValue Unit .i32 :=
  match constantAt nodes a with
  | some c => .Constant c
  | none => .node a

def selectKind : CmpVT → SelectKind
  | .i32 => .SELECT_CC_Int
  | .f32 => .SELECT_CC_Float

open Selection

/-- Code for node `i`. A constant or a symbol may be left out: the instructions that
use it then have it as their immediate. A select pseudo has registers only: its pattern
would take the address of a frame object too, but expanding that pseudo fails. -/
inductive SelectNode (PIC : Bool) (nodes : List (DagNode σ)) (s : Selection σ) (i : Nat) :
    DagNode σ → List (Inst (MachInstr σ)) → Selection σ → Prop where
  | foldedConstant {c : Word} : SelectNode PIC nodes s i (.Constant c) [] s
  | foldedAddress {g : σ} {imm : LdiImm σ} (h : lowerAddress PIC g = some imm) :
      SelectNode PIC nodes s i (.GlobalAddress g) [] s
  | tree {n : DagNode σ} {node : Node} {operand : Nat → Src σ} {code : List (MachInstr σ)}
      {src : Src σ} {next : Nat} (h : node ∈ n.trees nodes)
      (hoperand : ∀ l ∈ node.leaves, s.operand l = some (operand l))
      (hemit : node.emit operand s.next = (code, src, next)) :
      SelectNode PIC nodes s i n (code.map .op) (s.define i src next)
  | CopyFromReg {r : Register} :
      SelectNode PIC nodes s i (.CopyFromReg r) [.op (.COPY s.dst r)] (s.fresh i)
  | CopyToReg {r q : Register} {a : Nat} (h : s.operand a = some (.reg q)) :
      SelectNode PIC nodes s i (.CopyToReg r a) [.op (.COPY r q)] s
  | addLow {a b : Nat} {g : σ} {src : Src σ} (hg : symbolAt nodes b = some g)
      (h : s.operand a = some src) :
      SelectNode PIC nodes s i (.alu .ADD a b) [.op (.rr .ADD s.dst src (.lo16 g))] (s.fresh i)
  | addLow_left {a b : Nat} {g : σ} {src : Src σ} (hg : symbolAt nodes a = some g)
      (h : s.operand b = some src) :
      SelectNode PIC nodes s i (.alu .ADD a b) [.op (.rr .ADD s.dst src (.lo16 g))] (s.fresh i)
  | falu {op : FaluOp} {a b : Nat} {src1 src2 : Src σ} (h1 : s.operand a = some src1)
      (h2 : s.operand b = some src2) :
      SelectNode PIC nodes s i (.falu op a b) [.op (.frr op s.dst src1 src2)] (s.fresh i)
  | FP_TO_SINT {a : Nat} {src : Src σ} (h : s.operand a = some src) :
      SelectNode PIC nodes s i (.FP_TO_SINT a) [.op (.FTOIrr s.dst src)] (s.fresh i)
  | SINT_TO_FP {a : Nat} {src : Src σ} (h : s.operand a = some src) :
      SelectNode PIC nodes s i (.SINT_TO_FP a) [.op (.ITOFrr s.dst src)] (s.fresh i)
  | SINT_TO_FP_imm {a : Nat} {c : Word} (hc : constantAt nodes a = some c)
      (himm : simm19 c = true) :
      SelectNode PIC nodes s i (.SINT_TO_FP a) [.op (.ITOFri s.dst c)] (s.fresh i)
  /-- `Select` turns it into a target frame index without an instruction. -/
  | FrameIndex {fi : Int} :
      SelectNode PIC nodes s i (.FrameIndex fi) [] (s.define i (.frameIndex fi) s.next)
  | GlobalAddress {g : σ} {imm : LdiImm σ} (h : lowerAddress PIC g = some imm) :
      SelectNode PIC nodes s i (.GlobalAddress g) [.op (.LDIri s.dst imm)] (s.fresh i)
  | load {ext : LoadExtType} {addr : Nat} {src : Src σ} {instr : MachInstr σ}
      (h : s.selectAddr nodes addr = some src) (hext : ext.pattern s.dst src = some instr) :
      SelectNode PIC nodes s i (.load ext addr) [.op instr] (s.fresh i)
  | store {value addr : Nat} {src1 src2 : Src σ} (h1 : s.operand value = some src1)
      (h2 : s.selectAddr nodes addr = some src2) :
      SelectNode PIC nodes s i (.store value addr) [.op (.STORE src1 src2)] s
  | truncstore {VT : MemVT} {value addr : Nat} {src1 src2 : Src σ}
      (h1 : s.operand value = some src1) (h2 : s.selectAddr nodes addr = some src2) :
      SelectNode PIC nodes s i (.truncstore VT value addr) [.op (.storePart VT src1 src2)] s
  | SELECT_CC {VT : CmpVT} {LHS RHS TrueVal FalseVal : Nat} {CC : CondCode}
      {select : SelectCC Unit .i32 Nat} {cmp : MachInstr σ} {T F : Register}
      (h : lowerSELECT_CC (sdValue nodes LHS) (sdValue nodes RHS) TrueVal FalseVal CC = some select)
      (hcmp : Compares nodes s select.Flag cmp) (hT : s.operand select.TrueVal = some (.reg T))
      (hF : s.operand select.FalseVal = some (.reg F)) :
      SelectNode PIC nodes s i (.SELECT_CC VT LHS RHS TrueVal FalseVal CC)
        [.op cmp, .selectCC (selectKind VT) s.dst T F select.TargetCC] (s.fresh i)

inductive SelectNodes (PIC : Bool) (nodes : List (DagNode σ)) :
    Nat → Selection σ → List (Inst (MachInstr σ)) → Selection σ → Prop where
  | nil {s : Selection σ} : SelectNodes PIC nodes nodes.length s [] s
  | cons {i : Nat} {s s' s'' : Selection σ} {n : DagNode σ} {code rest : List (Inst (MachInstr σ))}
      (hn : nodes[i]? = some n) (first : SelectNode PIC nodes s i n code s')
      (tail : SelectNodes PIC nodes (i + 1) s' rest s'') :
      SelectNodes PIC nodes i s (code ++ rest) s''

inductive SelectEnd (nodes : List (DagNode σ)) (s : Selection σ) :
    DagEnd → List (Inst (MachInstr σ)) → List Terminator → Prop where
  | RET_FLAG : SelectEnd nodes s .RET_FLAG [] [.RET]
  | BR {Dest : BlockId} : SelectEnd nodes s (.BR Dest) [] [.JMPi Dest]
  | BR_CC {CC : CondCode} {LHS RHS : Nat} {Dest : BlockId} {other : Option BlockId}
      {br : BrCC Unit .i32} {cmp : MachInstr σ}
      (h : lowerBR_CC CC (sdValue nodes LHS) (sdValue nodes RHS) Dest = some br)
      (hcmp : Compares nodes s br.Flag cmp) :
      SelectEnd nodes s (.BR_CC CC LHS RHS Dest other) [.op cmp]
        (.JCCi br.Dest br.TargetCC :: (other.map Terminator.JMPi).toList)
  | next : SelectEnd nodes s .next [] []

def Selection.start (next : Nat) : Selection σ := ⟨fun _ => none, next⟩

inductive SelectBlock (PIC : Bool) (next : Nat) (b : DagBlock σ) :
    Select.MachineBasicBlock (MachInstr σ) → Prop where
  | mk {s : Selection σ} {code tail : List (Inst (MachInstr σ))} {terms : List Terminator}
      (hnodes : SelectNodes PIC b.nodes 0 (.start next) code s)
      (hlast : SelectEnd b.nodes s b.last tail terms) :
      SelectBlock PIC next b ⟨b.phis, code ++ tail, terms, b.successors⟩

/-- Every block is selected, into virtual registers from `base` on. -/
structure SelectFunction (PIC : Bool) (base : Nat) (f : DagFunction σ)
    (g : Select.MachineFunction (MachInstr σ)) : Prop where
  layout : g.layout = f.layout
  nextBlockNum : g.nextBlockNum = f.nextBlockNum
  block : ∀ b ∈ f.layout, ∃ next, base ≤ next ∧ SelectBlock PIC next (f.block b) (g.block b)

end Mandarin.Isel
