import Mandarin.Isel.Emission

/-! # Selection preserves execution

Between two nodes of a block every node selected so far has its value in the operand
that stands for it, and the registers and the memory of the function are the same on
both sides. Each node keeps this, whatever pattern is taken for it, and so every run
of the function is answered by a run of the selected one.
-/

namespace Mandarin.Isel

open Immediate Memory Simulation
open Branch (BlockId CondCodes Exit fallThrough)
open Select (State Inst Phi Target Terminator Config Event Step phiValues layoutSucc selected)

variable {σ : Type}

/-! ## Well-formed functions -/

def DagNode.registers : DagNode σ → List Register
  | CopyFromReg r | CopyToReg r _ => [r]
  | _ => []

def DagEnd.operands : DagEnd → List Nat
  | BR_CC _ LHS RHS _ _ => [LHS, RHS]
  | _ => []

def DagEnd.targets (next : Option BlockId) : DagEnd → List BlockId
  | RET_FLAG => []
  | BR Dest => [Dest]
  | BR_CC _ _ _ Dest other => Dest :: (other.or next).toList
  | .next => next.toList

/-- Operands are earlier nodes, and the registers of the function are below `base`. -/
structure DagBlock.WellFormed (base : Nat) (b : DagBlock σ) : Prop where
  operands : ∀ i (n : DagNode σ), b.nodes[i]? = some n → ∀ a ∈ n.operands, a < i
  lastOperands : ∀ a ∈ b.last.operands, a < b.nodes.length
  registers : ∀ n ∈ b.nodes, ∀ r ∈ n.registers, Below base r
  phis : ∀ phi ∈ b.phis, Below base phi.dst ∧ ∀ value ∈ phi.incoming, Below base value.1

structure DagFunction.WellFormed (base : Nat) (f : DagFunction σ) : Prop where
  nodup : f.layout.Nodup
  fresh : ∀ b ∈ f.layout, b < f.nextBlockNum
  closed : ∀ b ∈ f.layout, ∀ s ∈ (f.block b).successors, s ∈ f.layout
  edges : ∀ b ∈ f.layout, ∀ t ∈ (f.block b).last.targets (layoutSucc f.layout b),
    t ∈ (f.block b).successors
  incoming : ∀ b ∈ f.layout, ∀ phi ∈ (f.block b).phis, ∀ value ∈ phi.incoming,
    value.2 < f.nextBlockNum
  block : ∀ b ∈ f.layout, (f.block b).WellFormed base

/-- The symbols of the function lie in the first 64 KiB. -/
def DagFunction.NearSymbols (W : World σ) (f : DagFunction σ) : Prop :=
  ∀ b ∈ f.layout, ∀ g, .GlobalAddress g ∈ (f.block b).nodes → (W.symbolAddress g).toNat < 2 ^ 16

/-! ## The machine -/

/-- What a condition does on unordered operands and which block an address belongs to
is up to the machine. -/
def target (W : World σ) (unordered : CondCodes → Bool) (blockAt : Word → BlockId) :
    Target (MachInstr σ) Outcome (Mem 32) where
  exec := fun i st st' => st' = i.exec W st
  holds := fun cc flag => condHolds unordered cc flag
  blockAt := blockAt

/-- The same registers below `base` and the same memory. -/
structure SameState (base : Nat) (st : DagState) (mst : MachState) : Prop where
  regs : ∀ r, Below base r → mst.regs r = st.regs r
  mem : mst.mem = st.mem

theorem SameState.frame {base k : Nat} {st : DagState} {mst mst' : MachState}
    (h : SameState base st mst) (hle : base ≤ k) (hframe : Frame k mst mst') :
    SameState base st mst' :=
  ⟨fun r hr => (hframe.regs r (hr.mono hle)).trans (h.regs r hr), hframe.mem.trans h.mem⟩

theorem SameState.setReg {base : Nat} {st : DagState} {mst : MachState} (h : SameState base st mst)
    (r : Register) (v : Word) : SameState base (st.setReg r v) (mst.setReg r v) := by
  refine ⟨?_, h.mem⟩
  intro q hq
  show Function.update mst.regs r v q = Function.update st.regs r v q
  by_cases hqr : q = r
  · rw [hqr, Function.update_self, Function.update_self]
  · rw [Function.update_of_ne hqr, Function.update_of_ne hqr]
    exact h.regs q hq

theorem SameState.setAll {base : Nat} {st : DagState} {mst : MachState} (h : SameState base st mst)
    (values : List (Register × Word)) : SameState base (st.setAll values) (mst.setAll values) := by
  induction values generalizing st mst with
  | nil => exact h
  | cons value values ih => exact ih (h.setReg value.1 value.2)

/-! ## What has been selected -/

structure Holds (W : World σ) (base : Nat) (nodes : List (DagNode σ)) (i : Nat) (s : Selection σ)
    (vals : Nat → Word) (mst : MachState) : Prop where
  le : base ≤ s.next
  earlier : ∀ j src, s.operand j = some src → j < i
  below : ∀ j src, s.operand j = some src → src.Below s.next
  /-- What stands for a node is not written by the function. -/
  untouched : ∀ j r, s.operand j = some (.reg r) → ¬ Below base r
  value : ∀ j src, s.operand j = some src → src.eval W mst.regs = vals j
  fixed : ∀ j n, j < i → nodes[j]? = some n → n.Fixed W (vals j)

section
variable {W : World σ} {base : Nat} {nodes : List (DagNode σ)} {i : Nat} {s : Selection σ}
  {vals : Nat → Word} {mst mst' : MachState}

theorem Holds.constant (h : Holds W base nodes i s vals mst) {a : Nat} {c : Word} (ha : a < i)
    (hc : constantAt nodes a = some c) : vals a = c :=
  h.fixed a _ ha (constantAt_eq_some.mp hc)

theorem Holds.symbol (h : Holds W base nodes i s vals mst) {a : Nat} {g : σ} (ha : a < i)
    (hg : symbolAt nodes a = some g) : vals a = W.symbolAddress g :=
  h.fixed a _ ha (symbolAt_eq_some.mp hg)

theorem update_fixed (h : Holds W base nodes i s vals mst) {n : DagNode σ} {v : Word}
    (hn : nodes[i]? = some n) (hv : n.Fixed W v) :
    ∀ j m, j < i + 1 → nodes[j]? = some m → m.Fixed W (Function.update vals i v j) := by
  intro j m hj hm
  by_cases hji : j = i
  · rw [hji, hn, Option.some.injEq] at hm
    rw [hji, Function.update_self, ← hm]
    exact hv
  · rw [Function.update_of_ne hji]
    exact h.fixed j m (by omega) hm

/-- A node without a value of its own, or one that is not needed in a register. -/
theorem Holds.skip (h : Holds W base nodes i s vals mst) {n : DagNode σ} {v : Word}
    (hn : nodes[i]? = some n) (hv : n.Fixed W v)
    (hregs : ∀ r, ¬ Below base r → mst'.regs r = mst.regs r) :
    Holds W base nodes (i + 1) s (Function.update vals i v) mst' where
  le := h.le
  earlier := fun j src hj => Nat.lt_succ_of_lt (h.earlier j src hj)
  below := h.below
  untouched := h.untouched
  value := by
    intro j src hj
    rw [Function.update_of_ne (Nat.ne_of_lt (h.earlier j src hj)), ← h.value j src hj]
    cases src with
    | reg r => exact hregs r (h.untouched j r hj)
    | frameIndex fi => rfl
    | lo16 g => rfl
  fixed := update_fixed h hn hv

theorem Holds.define (h : Holds W base nodes i s vals mst) {n : DagNode σ} {v : Word}
    {src : Src σ} {next : Nat} (hn : nodes[i]? = some n) (hv : n.Fixed W v)
    (hle : s.next ≤ next) (hframe : Frame s.next mst mst') (hbelow : src.Below next)
    (hsrc : ∀ r, src = .reg r → ¬ Below base r) (hvalue : src.eval W mst'.regs = v) :
    Holds W base nodes (i + 1) (s.define i src next) (Function.update vals i v) mst' where
  le := Nat.le_trans h.le hle
  earlier := by
    intro j src' hj
    rcases Selection.define_operand hj with ⟨rfl, _⟩ | ⟨_, hj⟩
    · exact Nat.lt_succ_self j
    · exact Nat.lt_succ_of_lt (h.earlier j src' hj)
  below := by
    intro j src' hj
    rcases Selection.define_operand hj with ⟨_, rfl⟩ | ⟨_, hj⟩
    · exact hbelow
    · exact (h.below j src' hj).mono hle
  untouched := by
    intro j r hj
    rcases Selection.define_operand hj with ⟨_, hr⟩ | ⟨_, hj⟩
    · exact hsrc r hr.symm
    · exact h.untouched j r hj
  value := by
    intro j src' hj
    rcases Selection.define_operand hj with ⟨rfl, rfl⟩ | ⟨hji, hj⟩
    · rw [Function.update_self]
      exact hvalue
    · rw [Function.update_of_ne hji, ← h.value j src' hj]
      exact hframe.eval (h.below j src' hj)
  fixed := update_fixed h hn hv

theorem not_below_vreg {k : Nat} (h : base ≤ k) : ¬ Below base (.vreg k) :=
  fun hb => absurd (hb k rfl) (Nat.not_lt_of_le h)

theorem Holds.fresh (h : Holds W base nodes i s vals mst) {n : DagNode σ} {v : Word}
    (hn : nodes[i]? = some n) (hv : n.Fixed W v) (hframe : Frame s.next mst mst') :
    Holds W base nodes (i + 1) (s.fresh i) (Function.update vals i v) (mst'.setReg s.dst v) := by
  have hbelow : (Src.reg s.dst : Src σ).Below (s.next + 1) := below_vreg s.next
  apply h.define hn hv (Nat.le_succ _) (hframe.setReg (Nat.le_refl _) v) hbelow
  · intro r hr
    cases hr
    exact not_below_vreg h.le
  · exact setReg_regs ..

theorem Holds.selectAddr (h : Holds W base nodes i s vals mst) {addr : Nat} {src : Src σ}
    (haddr : addr < i) (hs : s.selectAddr nodes addr = some src) :
    src.eval W mst.regs = vals addr := by
  unfold Selection.selectAddr at hs
  split at hs
  case h_1 fi hfi =>
    cases hs
    exact (h.fixed addr _ haddr hfi).symm
  case h_2 => exact h.value addr src hs

/-! ## Comparisons -/

def env (vals : Nat → Word) : Env Unit := ⟨vals, fun _ => (), fun _ _ => .unordered⟩

theorem Holds.sdValue (h : Holds W base nodes i s vals mst) {a : Nat} (ha : a < i) :
    (sdValue nodes a).evalInt (env vals) = vals a := by
  unfold Isel.sdValue
  cases hc : constantAt nodes a with
  | none => rfl
  | some c => exact (h.constant ha hc).symm

theorem Holds.provides (h : Holds W base nodes i s vals mst) {v : SDValue Unit .i32} {src : Src σ}
    (hv : Selection.Provides nodes s v src) : src.eval W mst.regs = v.evalInt (env vals) := by
  cases hv with
  | node hs => exact h.value _ _ hs
  | Constant hn hs =>
      rw [h.value _ _ hs]
      exact h.fixed _ _ (h.earlier _ _ hs) hn

theorem Holds.compares (h : Holds W base nodes i s vals mst) {node : CompareNode Unit .i32}
    {cmp : MachInstr σ} (hcmp : Selection.Compares nodes s node cmp) :
    cmp.exec W mst = { mst with flag := node.outcome (env vals) } := by
  cases hcmp with
  | SCMPrr h1 h2 => rw [MachInstr.exec, h.provides h1, h.provides h2, CompareNode.outcome]
  | @SCMPri LHS c src1 h1 hc =>
      have hfits : scmpField.fits c := fits_of_isInt hc
      rw [MachInstr.exec, h.provides h1, fieldValue_of_fits (by decide) (by decide) hfits]
      rfl

end

/-! ## One node -/

/-- An instruction is executed or a select taken; control stays in the block. -/
def Inner {ι : Type} : Event ι → Prop
  | .exec _ | .select _ _ => True
  | .enter _ _ | .ret => False

section
variable {W : World σ} {unordered : CondCodes → Bool} {blockAt : Word → BlockId}
  {g : Select.MachineFunction (MachInstr σ)} {b : BlockId}

theorem run_code (code : List (MachInstr σ)) (rest : List (Inst (MachInstr σ))) (mst : MachState) :
    ∃ events, Run (Step (target W unordered blockAt) g) (.run b (code.map .op ++ rest) mst) events
        (.run b rest (runCode W code mst)) ∧ ∀ e ∈ events, Inner e := by
  induction code generalizing mst with
  | nil => exact ⟨[], .nil, by simp⟩
  | cons i code ih =>
      rcases ih (i.exec W mst) with ⟨events, hrun, hinner⟩
      refine ⟨.exec i :: events, .cons (.op rfl) hrun, ?_⟩
      intro e he
      cases he with
      | head => trivial
      | tail _ he => exact hinner e he

/-- The code runs to its end, and what has to hold behind it does. -/
def Answers (W : World σ) (unordered : CondCodes → Bool) (blockAt : Word → BlockId)
    (g : Select.MachineFunction (MachInstr σ)) (b : BlockId) (code : List (Inst (MachInstr σ)))
    (mst : MachState) (behind : MachState → Prop) : Prop :=
  ∀ rest, ∃ events mst', Run (Step (target W unordered blockAt) g) (.run b (code ++ rest) mst) events
    (.run b rest mst') ∧ (∀ e ∈ events, Inner e) ∧ behind mst'

theorem answers_code {code : List (MachInstr σ)} {mst : MachState} {behind : MachState → Prop}
    (h : behind (runCode W code mst)) :
    Answers W unordered blockAt g b (code.map .op) mst behind := by
  intro rest
  rcases run_code code rest mst with ⟨events, hrun, hinner⟩
  exact ⟨events, _, hrun, hinner, h⟩

theorem answers_op {i : MachInstr σ} {mst mst' : MachState} {behind : MachState → Prop}
    (hexec : i.exec W mst = mst') (h : behind mst') :
    Answers W unordered blockAt g b [.op i] mst behind := by
  have hcode : Answers W unordered blockAt g b (([i] : List (MachInstr σ)).map .op) mst behind := by
    apply answers_code
    rw [runCode_singleton, hexec]
    exact h
  exact hcode

end

section
variable {PIC : Bool} {W : World σ} {unordered : CondCodes → Bool} {blockAt : Word → BlockId}
  {g : Select.MachineFunction (MachInstr σ)} {b : BlockId} {base : Nat}
  {nodes : List (DagNode σ)} {i : Nat} {n : DagNode σ} {s s' : Selection σ} {vals : Nat → Word}
  {v : Word} {st st' : DagState} {mst : MachState}

def Behind (W : World σ) (base : Nat) (nodes : List (DagNode σ)) (i : Nat) (s : Selection σ)
    (vals : Nat → Word) (st : DagState) (mst : MachState) : Prop :=
  SameState base st mst ∧ Holds W base nodes i s vals mst

theorem answers_fresh {instr : MachInstr σ} (hholds : Holds W base nodes i s vals mst)
    (hsame : SameState base st mst) (hn : nodes[i]? = some n) (hv : n.Fixed W v)
    (hexec : instr.exec W mst = mst.setReg s.dst v) :
    Answers W unordered blockAt g b [.op instr] mst
      (Behind W base nodes (i + 1) (s.fresh i) (Function.update vals i v) st) := by
  have hframe := (Frame.refl s.next mst).setReg (Nat.le_refl _) v
  exact answers_op hexec
    ⟨hsame.frame hholds.le hframe, hholds.fresh hn hv (Frame.refl _ _)⟩

theorem answers_nil {behind : MachState → Prop} (h : behind mst) :
    Answers W unordered blockAt g b [] mst behind :=
  fun _ => ⟨[], mst, .nil, by simp, h⟩

/-- A memory operation does on both sides what `change` says. -/
theorem answers_store {instr : MachInstr σ} (change : Mem 32 → Mem 32)
    (hholds : Holds W base nodes i s vals mst) (hsame : SameState base st mst)
    (hn : nodes[i]? = some n) (hv : n.Fixed W v)
    (hexec : instr.exec W mst = { mst with mem := change mst.mem }) :
    Answers W unordered blockAt g b [.op instr] mst
      (Behind W base nodes (i + 1) s (Function.update vals i v) { st with mem := change st.mem }) := by
  refine answers_op hexec ⟨⟨hsame.regs, ?_⟩, hholds.skip hn hv fun _ _ => rfl⟩
  rw [hsame.mem]

theorem answers_tree {node : Node} {operand : Nat → Src σ} {code : List (MachInstr σ)}
    {src : Src σ} {next : Nat} (hholds : Holds W base nodes i s vals mst)
    (hsame : SameState base st mst) (hn : nodes[i]? = some n) (hops : ∀ a ∈ n.operands, a < i)
    (hstep : n.Step W vals st v st') (htree : node ∈ n.trees nodes)
    (hoperand : ∀ l ∈ node.leaves, s.operand l = some (operand l))
    (hemit : node.emit operand s.next = (code, src, next)) :
    Answers W unordered blockAt g b (code.map .op) mst
      (Behind W base nodes (i + 1) (s.define i src next) (Function.update vals i v) st') := by
  have hfixed : ∀ a ∈ n.operands, ∀ c, constantAt nodes a = some c → vals a = c :=
    fun a ha c hc => hholds.constant (hops a ha) hc
  rcases DagNode.trees_spec htree hstep hfixed with ⟨heval, hst⟩
  have hspec := @Node.emit_spec σ W operand vals node s.next mst
    (fun l hl => hholds.below l _ (hoperand l hl)) fun l hl => hholds.value l _ (hoperand l hl)
  have hle := node.emit_le operand s.next
  have hplace : ∀ r, src = .reg r → ¬ Below base r := by
    intro r hr
    have hreg : (node.emit operand s.next).2.1 = .reg r := by rw [hemit, hr]
    rcases Node.emit_place hreg with ⟨l, hl, hlr⟩ | ⟨j, hj, rfl⟩
    · have hlr' := hoperand l hl
      rw [hlr] at hlr'
      exact hholds.untouched l r hlr'
    · exact not_below_vreg (Nat.le_trans hholds.le hj)
  rw [hemit] at hspec hle
  rw [hst]
  apply answers_code
  refine ⟨hsame.frame hholds.le hspec.frame, ?_⟩
  exact hholds.define hn hstep.fixed hle hspec.frame hspec.below hplace (hspec.value.trans heval)

theorem answers_select {VT : CmpVT} {LHS RHS TrueVal FalseVal : Nat} {CC : CondCode}
    {select : SelectCC Unit .i32 Nat} {cmp : MachInstr σ} {T F : Register}
    (hholds : Holds W base nodes i s vals mst) (hsame : SameState base st mst)
    (hn : nodes[i]? = some (.SELECT_CC VT LHS RHS TrueVal FalseVal CC))
    (hops : ∀ a ∈ [LHS, RHS, TrueVal, FalseVal], a < i)
    (hlower : lowerSELECT_CC (sdValue nodes LHS) (sdValue nodes RHS) TrueVal FalseVal CC =
      some select)
    (hcmp : Selection.Compares nodes s select.Flag cmp)
    (hT : s.operand select.TrueVal = some (.reg T))
    (hF : s.operand select.FalseVal = some (.reg F)) {holds : Word → Word → Bool}
    (hholdsCC : CC.intMeaning = some holds) :
    Answers W unordered blockAt g b
      [.op cmp, .selectCC (selectKind VT) s.dst T F select.TargetCC] mst
      (Behind W base nodes (i + 1) (s.fresh i) (Function.update vals i
        (if holds (vals LHS) (vals RHS) then vals TrueVal else vals FalseVal)) st) := by
  have hL := hholds.sdValue (hops LHS (by simp))
  have hR := hholds.sdValue (hops RHS (by simp))
  rw [lowerSELECT_CC_eq, selectCondition] at hlower
  cases hcc : dagIntCCToMDCC CC with
  | none =>
      rw [hcc] at hlower
      cases hlower
  | some cc =>
      rw [hcc] at hlower
      cases hlower
      have hexec := hholds.compares hcmp
      have hflag : condHolds unordered cc
          ((compareNode (sdValue nodes LHS) (sdValue nodes RHS)).outcome (env vals)) =
            holds (vals LHS) (vals RHS) := by
        rw [← testedRelation_eq hcc hholdsCC, ← condHolds_signedCompare unordered, ← hL, ← hR]
        rfl
      generalize (compareNode (sdValue nodes LHS) (sdValue nodes RHS)).outcome (env vals) = o
        at hexec hflag
      have hpick : selected (target W unordered blockAt) { mst with flag := o } T F cc =
          if holds (vals LHS) (vals RHS) then vals TrueVal else vals FalseVal := by
        show (if condHolds unordered cc o then mst.regs T else mst.regs F) = _
        rw [hflag, ← hholds.value _ _ hT, ← hholds.value _ _ hF]
        rfl
      intro rest
      refine ⟨_, _, .cons (.op hexec.symm) (.single .select), ?_, ?_⟩
      · intro e he
        simp only [List.mem_cons, List.not_mem_nil, or_false] at he
        rcases he with rfl | rfl <;> trivial
      · rw [hpick]
        have hframe := Frame.setFlag s.next mst o
        exact ⟨hsame.frame hholds.le (hframe.setReg (Nat.le_refl _) _), hholds.fresh hn trivial hframe⟩

/-- Whatever pattern is taken for a node, its code does what the node does. -/
theorem SelectNode.answers {code : List (Inst (MachInstr σ))}
    (hsel : SelectNode PIC nodes s i n code s') (hn : nodes[i]? = some n)
    (hops : ∀ a ∈ n.operands, a < i) (hregs : ∀ r ∈ n.registers, Below base r)
    (hnear : ∀ g, .GlobalAddress g ∈ nodes → (W.symbolAddress g).toNat < 2 ^ 16)
    (hholds : Holds W base nodes i s vals mst) (hsame : SameState base st mst)
    (hstep : n.Step W vals st v st') :
    Answers W unordered blockAt g b code mst
      (Behind W base nodes (i + 1) s' (Function.update vals i v) st') := by
  have hfixed := hstep.fixed
  cases hsel with
  | foldedConstant =>
      cases hstep
      exact answers_nil ⟨hsame, hholds.skip hn hfixed fun _ _ => rfl⟩
  | foldedAddress _ =>
      cases hstep
      exact answers_nil ⟨hsame, hholds.skip hn hfixed fun _ _ => rfl⟩
  | tree htree hoperand hemit =>
      exact answers_tree hholds hsame hn hops hstep htree hoperand hemit
  | @CopyFromReg r =>
      cases hstep
      apply answers_fresh hholds hsame hn hfixed
      rw [MachInstr.exec, hsame.regs r (hregs r (List.mem_singleton.mpr rfl))]
  | @CopyToReg r q a h =>
      cases hstep
      have hr := hregs r (List.mem_singleton.mpr rfl)
      have hval : mst.regs q = vals a := hholds.value a _ h
      have hexec : (MachInstr.COPY r q : MachInstr σ).exec W mst = mst.setReg r (vals a) := by
        rw [MachInstr.exec, hval]
      refine answers_op hexec ⟨hsame.setReg r (vals a), hholds.skip hn hfixed ?_⟩
      intro q' hq'
      have hne : q' ≠ r := fun heq => hq' (heq ▸ hr)
      exact Function.update_of_ne hne ..
  | @addLow a b g src hg h =>
      cases hstep
      apply answers_fresh hholds hsame hn hfixed
      have hmem := List.mem_of_getElem? (symbolAt_eq_some.mp hg)
      rw [MachInstr.exec, hholds.value a _ h, AluOp.eval, AluOp.eval,
        hholds.symbol (hops b (by simp [DagNode.operands])) hg, Src.eval, lo16_of_near (hnear g hmem)]
  | @addLow_left a b g src hg h =>
      cases hstep
      apply answers_fresh hholds hsame hn hfixed
      have hmem := List.mem_of_getElem? (symbolAt_eq_some.mp hg)
      rw [MachInstr.exec, hholds.value b _ h, AluOp.eval, AluOp.eval,
        hholds.symbol (hops a (by simp [DagNode.operands])) hg, Src.eval, lo16_of_near (hnear g hmem),
        BitVec.add_comm]
  | @falu op a b src1 src2 h1 h2 =>
      cases hstep
      apply answers_fresh hholds hsame hn hfixed
      rw [MachInstr.exec, hholds.value a _ h1, hholds.value b _ h2]
  | @FP_TO_SINT a src h =>
      cases hstep
      apply answers_fresh hholds hsame hn hfixed
      rw [MachInstr.exec, hholds.value a _ h]
  | @SINT_TO_FP a src h =>
      cases hstep
      apply answers_fresh hholds hsame hn hfixed
      rw [MachInstr.exec, hholds.value a _ h]
  | @SINT_TO_FP_imm a c hc himm =>
      cases hstep
      apply answers_fresh hholds hsame hn hfixed
      rw [MachInstr.exec, hholds.constant (hops a (by simp [DagNode.operands])) hc]
  | FrameIndex =>
      cases hstep
      refine answers_nil ⟨hsame, hholds.define hn hfixed (Nat.le_refl _) (Frame.refl _ _) trivial ?_ rfl⟩
      intro r hr
      cases hr
  | @GlobalAddress g imm h =>
      cases hstep
      apply answers_fresh hholds hsame hn hfixed
      have hmem := hnear g (List.mem_of_getElem? hn)
      cases PIC with
      | true => cases h
      | false =>
          cases h
          rw [MachInstr.exec, LdiImm.eval, lo16_of_near hmem,
            fieldValue_of_fits (by decide) (by decide) (ldiField_of_near hmem)]
  | @load ext addr src instr h hext =>
      cases hstep with
      | load hreads =>
          apply answers_fresh hholds hsame hn hfixed
          have haddr := hholds.selectAddr (hops addr (List.mem_singleton.mpr rfl)) h
          cases ext with
          | NON_EXTLOAD =>
              cases hext
              rw [MachInstr.exec, haddr, hsame.mem, hreads]
          | ZEXTLOAD VT =>
              cases hext
              rw [MachInstr.exec, haddr, hsame.mem, hreads]
          | EXTLOAD VT => cases hext
          | SEXTLOAD VT => cases hext
  | @store value addr src1 src2 h1 h2 =>
      cases hstep
      apply answers_store (fun m => storeWord m (vals addr) (vals value)) hholds hsame hn hfixed
      rw [MachInstr.exec, hholds.value value _ h1,
        hholds.selectAddr (hops addr (by simp [DagNode.operands])) h2]
  | @truncstore VT value addr src1 src2 h1 h2 =>
      cases hstep
      apply answers_store (fun m => storePart VT m (vals addr) (vals value)) hholds hsame hn hfixed
      rw [MachInstr.exec, hholds.value value _ h1,
        hholds.selectAddr (hops addr (by simp [DagNode.operands])) h2]
  | SELECT_CC hlower hcmp hT hF =>
      cases hstep with
      | SELECT_CC hmeaning =>
          exact answers_select hholds hsame hn hops hlower hcmp hT hF hmeaning

end

end Mandarin.Isel
