import Mandarin.Isel.Preservation

/-! # What can be selected

A function can be selected exactly when there is a pattern for each of its nodes, and a
frame address is not wanted in a register: it is selected without an instruction, and
copies and select pseudos take only registers.
-/

namespace Mandarin.Isel

open Select (Inst)

variable {σ : Type} {PIC : Bool} {base : Nat} {f : DagFunction σ} {nodes : List (DagNode σ)}
  {i : Nat} {n : DagNode σ} {s s' : Selection σ}

/-! ## Patterns there are -/

def DagNode.hasValue : DagNode σ → Bool
  | CopyToReg _ _ | store _ _ | truncstore _ _ _ => false
  | _ => true

def ValueBefore (nodes : List (DagNode σ)) (i a : Nat) : Prop :=
  a < i ∧ ∃ n, nodes[a]? = some n ∧ n.hasValue = true

structure DagBlock.Ordered (b : DagBlock σ) : Prop where
  operands : ∀ i (n : DagNode σ), b.nodes[i]? = some n → ∀ a ∈ n.operands, ValueBefore b.nodes i a
  lastOperands : ∀ a ∈ b.last.operands, ValueBefore b.nodes b.nodes.length a

/-- A frame address is an operand of instructions, never in a register of its own. -/
def inRegister (nodes : List (DagNode σ)) (a : Nat) : Bool :=
  match nodes[a]? with
  | some (.FrameIndex _) => false
  | _ => true

def LoadExtType.selectable : LoadExtType → Bool
  | NON_EXTLOAD | ZEXTLOAD _ => true
  | EXTLOAD _ | SEXTLOAD _ => false

def DagNode.selectable (PIC : Bool) (nodes : List (DagNode σ)) : DagNode σ → Bool
  | SRA _ _ => false
  | GlobalAddress _ => !PIC
  | load ext _ => ext.selectable
  | CopyToReg _ a => inRegister nodes a
  | SELECT_CC _ _ _ TrueVal FalseVal CC =>
      (dagIntCCToMDCC CC).isSome && inRegister nodes TrueVal && inRegister nodes FalseVal
  | _ => true

def DagEnd.selectable : DagEnd → Bool
  | BR_CC CC _ _ _ _ => (dagIntCCToMDCC CC).isSome
  | _ => true

/-! ## What is selected has a pattern -/

def Selection.Placed (nodes : List (DagNode σ)) (s : Selection σ) : Prop :=
  ∀ j r, s.operand j = some (.reg r) → inRegister nodes j = true

theorem inRegister_of {a : Nat} (hn : nodes[a]? = some n) (h : ∀ fi, n ≠ .FrameIndex fi) :
    inRegister nodes a = true := by
  unfold inRegister
  rw [hn]
  cases n with
  | FrameIndex fi => exact absurd rfl (h fi)
  | _ => rfl

theorem Selection.Placed.define (hs : s.Placed nodes) {src : Src σ} {next : Nat}
    (h : ∀ r, src = .reg r → inRegister nodes i = true) : (s.define i src next).Placed nodes := by
  intro j r hj
  rcases Selection.define_operand hj with ⟨rfl, hr⟩ | ⟨_, hj⟩
  · exact h r hr.symm
  · exact hs j r hj

theorem Selection.Placed.fresh (hs : s.Placed nodes) (hn : nodes[i]? = some n)
    (h : ∀ fi, n ≠ .FrameIndex fi) : (s.fresh i).Placed nodes :=
  hs.define fun _ _ => inRegister_of hn h

theorem DagNode.trees_ne_frameIndex {node : Node} (h : node ∈ n.trees nodes) (fi : Int) :
    n ≠ .FrameIndex fi := by
  rintro rfl
  cases h

theorem lowerSELECT_CC_operands {LHS RHS : SDValue Unit .i32} {TrueVal FalseVal : Nat}
    {CC : CondCode} {select : SelectCC Unit .i32 Nat}
    (h : lowerSELECT_CC LHS RHS TrueVal FalseVal CC = some select) :
    (dagIntCCToMDCC CC).isSome = true ∧ select.TrueVal = TrueVal ∧ select.FalseVal = FalseVal := by
  rw [lowerSELECT_CC_eq, selectCondition] at h
  rcases Option.map_eq_some_iff.mp h with ⟨cc, hcc, hselect⟩
  rw [hcc, ← hselect]
  exact ⟨rfl, rfl, rfl⟩

theorem SelectNode.selectable {code : List (Inst (MachInstr σ))}
    (hsel : SelectNode PIC nodes s i n code s') (hn : nodes[i]? = some n) (hs : s.Placed nodes) :
    n.selectable PIC nodes = true ∧ s'.Placed nodes := by
  cases hsel with
  | foldedConstant => exact ⟨rfl, hs⟩
  | foldedAddress h =>
      unfold lowerAddress at h
      split at h
      · cases h
      · exact ⟨by simp_all [DagNode.selectable], hs⟩
  | tree htree _ _ =>
      refine ⟨?_, hs.define fun _ _ => inRegister_of hn (DagNode.trees_ne_frameIndex htree)⟩
      cases n with
      | Constant _ => rfl
      | alu _ _ _ => rfl
      | _ => cases htree
  | CopyFromReg => exact ⟨rfl, hs.fresh hn (by simp)⟩
  | CopyToReg h => exact ⟨hs _ _ h, hs⟩
  | addLow _ _ => exact ⟨rfl, hs.fresh hn (by simp)⟩
  | addLow_left _ _ => exact ⟨rfl, hs.fresh hn (by simp)⟩
  | falu _ _ => exact ⟨rfl, hs.fresh hn (by simp)⟩
  | FP_TO_SINT _ => exact ⟨rfl, hs.fresh hn (by simp)⟩
  | SINT_TO_FP _ => exact ⟨rfl, hs.fresh hn (by simp)⟩
  | SINT_TO_FP_imm _ _ => exact ⟨rfl, hs.fresh hn (by simp)⟩
  | FrameIndex => exact ⟨rfl, hs.define (by simp)⟩
  | GlobalAddress h =>
      unfold lowerAddress at h
      split at h
      · cases h
      · exact ⟨by simp_all [DagNode.selectable], hs.fresh hn (by simp)⟩
  | @load ext _ _ _ _ hext =>
      refine ⟨?_, hs.fresh hn (by simp)⟩
      cases ext with
      | NON_EXTLOAD => rfl
      | ZEXTLOAD _ => rfl
      | EXTLOAD _ => cases hext
      | SEXTLOAD _ => cases hext
  | store _ _ => exact ⟨rfl, hs⟩
  | truncstore _ _ => exact ⟨rfl, hs⟩
  | SELECT_CC h _ hT hF =>
      rcases lowerSELECT_CC_operands h with ⟨hcc, hTrue, hFalse⟩
      rw [hTrue] at hT
      rw [hFalse] at hF
      refine ⟨?_, hs.fresh hn (by simp)⟩
      rw [DagNode.selectable, hcc, hs _ _ hT, hs _ _ hF]
      rfl

theorem SelectNodes.selectable {code : List (Inst (MachInstr σ))}
    (hsel : SelectNodes PIC nodes i s code s') (hs : s.Placed nodes) :
    ∀ j m, i ≤ j → nodes[j]? = some m → m.selectable PIC nodes = true := by
  induction hsel with
  | nil =>
      intro j m hj hm
      rw [List.getElem?_eq_none hj] at hm
      cases hm
  | cons hn first _ ih =>
      rcases first.selectable hn hs with ⟨hfirst, hplaced⟩
      intro j m hj hm
      rcases Nat.eq_or_lt_of_le hj with rfl | hlt
      · rw [hn, Option.some.injEq] at hm
        rw [← hm]
        exact hfirst
      · exact ih hplaced j m hlt hm

theorem SelectEnd.selectable {last : DagEnd} {tail : List (Inst (MachInstr σ))}
    {terms : List Select.Terminator} (hsel : SelectEnd nodes s last tail terms) :
    last.selectable = true := by
  cases hsel with
  | RET_FLAG => rfl
  | BR => rfl
  | next => rfl
  | BR_CC h _ =>
      rw [lowerBR_CC_eq] at h
      rcases Option.map_eq_some_iff.mp h with ⟨cc, hcc, _⟩
      rw [DagEnd.selectable, hcc]
      rfl

/-! ## What has a pattern is selected -/

/-- Every value so far has an operand, in a register if it is not a frame address. -/
def Selection.Complete (nodes : List (DagNode σ)) (i : Nat) (s : Selection σ) : Prop :=
  ∀ a, ValueBefore nodes i a →
    ∃ src, s.operand a = some src ∧ (inRegister nodes a = true → ∃ r, src = .reg r)

theorem ValueBefore.of_succ {a : Nat} (h : ValueBefore nodes (i + 1) a) (hne : a ≠ i) :
    ValueBefore nodes i a :=
  ⟨by have := h.1; omega, h.2⟩

theorem Selection.Complete.skip (hs : s.Complete nodes i) (hn : nodes[i]? = some n)
    (hvalue : n.hasValue = false) : s.Complete nodes (i + 1) := by
  intro a ha
  apply hs a (ha.of_succ ?_)
  rintro rfl
  rcases ha.2 with ⟨m, hm, hmvalue⟩
  rw [hn, Option.some.injEq] at hm
  rw [← hm, hvalue] at hmvalue
  cases hmvalue

theorem Selection.Complete.define (hs : s.Complete nodes i) {src : Src σ} {next : Nat}
    (h : inRegister nodes i = true → ∃ r, src = .reg r) :
    (s.define i src next).Complete nodes (i + 1) := by
  intro a ha
  by_cases hai : a = i
  · subst hai
    exact ⟨src, Function.update_self .., h⟩
  · rcases hs a (ha.of_succ hai) with ⟨src', hsrc, hreg⟩
    exact ⟨src', (Function.update_of_ne hai ..).trans hsrc, hreg⟩

theorem Selection.Complete.fresh (hs : s.Complete nodes i) : (s.fresh i).Complete nodes (i + 1) :=
  hs.define fun _ => ⟨_, rfl⟩

theorem Selection.Complete.selectAddr (hs : s.Complete nodes i) {a : Nat}
    (ha : ValueBefore nodes i a) : ∃ src, s.selectAddr nodes a = some src := by
  unfold Selection.selectAddr
  split
  · exact ⟨_, rfl⟩
  · rcases hs a ha with ⟨src, hsrc, _⟩
    exact ⟨src, hsrc⟩

theorem Selection.Complete.reg (hs : s.Complete nodes i) {a : Nat} (ha : ValueBefore nodes i a)
    (hin : inRegister nodes a = true) : ∃ r, s.operand a = some (.reg r) := by
  rcases hs a ha with ⟨src, hsrc, hreg⟩
  rcases hreg hin with ⟨r, rfl⟩
  exact ⟨r, hsrc⟩

theorem Selection.Complete.compares (hs : s.Complete nodes i) {LHS RHS : Nat}
    (hL : ValueBefore nodes i LHS) (hR : ValueBefore nodes i RHS) :
    ∃ cmp, s.Compares nodes (compareNode (sdValue nodes LHS) (sdValue nodes RHS)) cmp := by
  have hprovides : ∀ a, ValueBefore nodes i a →
      ∃ src, Selection.Provides nodes s (sdValue nodes a) src := by
    intro a ha
    rcases hs a ha with ⟨src, hsrc, _⟩
    unfold sdValue
    cases hc : constantAt nodes a with
    | none => exact ⟨src, .node hsrc⟩
    | some c => exact ⟨src, .Constant (constantAt_eq_some.mp hc) hsrc⟩
  rcases hprovides LHS hL with ⟨src1, h1⟩
  rcases hprovides RHS hR with ⟨src2, h2⟩
  exact ⟨_, .SCMPrr h1 h2⟩

/-- The pattern with operands in registers; a constant in two halves. -/
theorem exists_selectNode (hs : s.Complete nodes i)
    (hops : ∀ a ∈ n.operands, ValueBefore nodes i a) (hn : nodes[i]? = some n)
    (hsel : n.selectable PIC nodes = true) :
    ∃ code s', SelectNode PIC nodes s i n code s' ∧ s'.Complete nodes (i + 1) := by
  cases n with
  | Constant c =>
      have htree : Node.rr .OR (.LDIri (LO19 c)) (.ri .SHL (.LDIri (HI13 c)) 19) ∈ constants c :=
        List.mem_append_right _ (List.mem_singleton.mpr rfl)
      refine ⟨_, _, @SelectNode.tree _ _ _ _ _ _ _ (fun _ => .frameIndex 0) _ _ _ htree ?_ rfl,
        hs.define fun _ => ⟨_, rfl⟩⟩
      intro l hl
      cases hl
  | CopyFromReg r => exact ⟨_, _, .CopyFromReg, hs.fresh⟩
  | CopyToReg r a =>
      rcases hs.reg (hops a (by simp [DagNode.operands])) hsel with ⟨q, hq⟩
      exact ⟨_, _, .CopyToReg hq, hs.skip hn rfl⟩
  | alu op a b =>
      rcases hs a (hops a (by simp [DagNode.operands])) with ⟨src1, h1, _⟩
      rcases hs b (hops b (by simp [DagNode.operands])) with ⟨src2, h2, _⟩
      have htree : Node.rr op (.reg a) (.reg b) ∈ (DagNode.alu op a b).trees nodes :=
        List.mem_append_left _ List.mem_cons_self
      refine ⟨_, _, @SelectNode.tree _ _ _ _ _ _ _ (fun l => (s.operand l).getD src1) _ _ _ htree
        ?_ rfl, hs.define fun _ => ⟨_, rfl⟩⟩
      intro l hl
      simp only [Node.leaves, List.mem_append, List.mem_singleton] at hl
      rcases hl with rfl | rfl
      · rw [h1, Option.getD_some]
      · rw [h2, Option.getD_some]
  | SRA a b => cases hsel
  | falu op a b =>
      rcases hs a (hops a (by simp [DagNode.operands])) with ⟨src1, h1, _⟩
      rcases hs b (hops b (by simp [DagNode.operands])) with ⟨src2, h2, _⟩
      exact ⟨_, _, .falu h1 h2, hs.fresh⟩
  | FP_TO_SINT a =>
      rcases hs a (hops a (by simp [DagNode.operands])) with ⟨src, h, _⟩
      exact ⟨_, _, .FP_TO_SINT h, hs.fresh⟩
  | SINT_TO_FP a =>
      rcases hs a (hops a (by simp [DagNode.operands])) with ⟨src, h, _⟩
      exact ⟨_, _, .SINT_TO_FP h, hs.fresh⟩
  | FrameIndex fi =>
      have hin : inRegister nodes i = false := by
        unfold inRegister
        rw [hn]
      refine ⟨_, _, .FrameIndex, hs.define ?_⟩
      intro h
      rw [hin] at h
      cases h
  | GlobalAddress g =>
      cases PIC with
      | true => cases hsel
      | false => exact ⟨_, _, .GlobalAddress rfl, hs.fresh⟩
  | load ext addr =>
      rcases hs.selectAddr (hops addr (by simp [DagNode.operands])) with ⟨src, h⟩
      cases ext with
      | NON_EXTLOAD => exact ⟨_, _, .load h rfl, hs.fresh⟩
      | ZEXTLOAD VT => exact ⟨_, _, .load h rfl, hs.fresh⟩
      | EXTLOAD VT => cases hsel
      | SEXTLOAD VT => cases hsel
  | store value addr =>
      rcases hs value (hops value (by simp [DagNode.operands])) with ⟨src1, h1, _⟩
      rcases hs.selectAddr (hops addr (by simp [DagNode.operands])) with ⟨src2, h2⟩
      exact ⟨_, _, .store h1 h2, hs.skip hn rfl⟩
  | truncstore VT value addr =>
      rcases hs value (hops value (by simp [DagNode.operands])) with ⟨src1, h1, _⟩
      rcases hs.selectAddr (hops addr (by simp [DagNode.operands])) with ⟨src2, h2⟩
      exact ⟨_, _, .truncstore h1 h2, hs.skip hn rfl⟩
  | SELECT_CC VT LHS RHS TrueVal FalseVal CC =>
      simp only [DagNode.selectable, Bool.and_eq_true] at hsel
      rcases hsel with ⟨⟨hcc, hinT⟩, hinF⟩
      rcases Option.isSome_iff_exists.mp hcc with ⟨cc, hcc⟩
      rcases hs.reg (hops TrueVal (by simp [DagNode.operands])) hinT with ⟨T, hT⟩
      rcases hs.reg (hops FalseVal (by simp [DagNode.operands])) hinF with ⟨F, hF⟩
      obtain ⟨cmp, hcmp⟩ := hs.compares (hops LHS (by simp [DagNode.operands]))
        (hops RHS (by simp [DagNode.operands]))
      have hlower := lowerSELECT_CC_eq (sdValue nodes LHS) (sdValue nodes RHS) TrueVal FalseVal CC
      rw [selectCondition, hcc, Option.map_some] at hlower
      exact ⟨_, _, .SELECT_CC hlower hcmp hT hF, hs.fresh⟩

theorem exists_selectNodes (hops : ∀ i (n : DagNode σ), nodes[i]? = some n →
      ∀ a ∈ n.operands, ValueBefore nodes i a)
    (hsel : ∀ n ∈ nodes, n.selectable PIC nodes = true) (k : Nat) (hk : i + k = nodes.length)
    (hs : s.Complete nodes i) :
    ∃ code s', SelectNodes PIC nodes i s code s' ∧ s'.Complete nodes nodes.length := by
  induction k generalizing i s with
  | zero =>
      rw [Nat.add_zero] at hk
      subst hk
      exact ⟨_, _, .nil, hs⟩
  | succ k ih =>
      have hi : nodes[i]? = some nodes[i] := List.getElem?_eq_getElem (by omega)
      obtain ⟨first, s₁, hfirst, hs₁⟩ :=
        exists_selectNode hs (hops i _ hi) hi (hsel _ (List.mem_of_getElem? hi))
      rcases ih (by omega) hs₁ with ⟨rest, s₂, hrest, hs₂⟩
      exact ⟨_, _, .cons hi hfirst hrest, hs₂⟩

theorem exists_selectEnd (hs : s.Complete nodes nodes.length) {last : DagEnd}
    (hops : ∀ a ∈ last.operands, ValueBefore nodes nodes.length a)
    (hsel : last.selectable = true) : ∃ tail terms, SelectEnd nodes s last tail terms := by
  cases last with
  | RET_FLAG => exact ⟨_, _, .RET_FLAG⟩
  | BR Dest => exact ⟨_, _, .BR⟩
  | next => exact ⟨_, _, .next⟩
  | BR_CC CC LHS RHS Dest other =>
      rcases Option.isSome_iff_exists.mp hsel with ⟨cc, hcc⟩
      have hlower := lowerBR_CC_eq CC (sdValue nodes LHS) (sdValue nodes RHS) Dest
      rw [hcc, Option.map_some] at hlower
      have hL := hops LHS (by simp [DagEnd.operands])
      have hR := hops RHS (by simp [DagEnd.operands])
      have hcmp : ∃ cmp, s.Compares nodes (if cc = .COND_EQ ∨ cc = .COND_NE then
          compareNode (swapConstant (sdValue nodes LHS) (sdValue nodes RHS)).1
            (swapConstant (sdValue nodes LHS) (sdValue nodes RHS)).2
          else compareNode (sdValue nodes LHS) (sdValue nodes RHS)) cmp := by
        unfold swapConstant
        split
        · split
          · exact hs.compares hR hL
          · exact hs.compares hL hR
        · exact hs.compares hL hR
      rcases hcmp with ⟨cmp, hcmp⟩
      exact ⟨_, _, .BR_CC hlower hcmp⟩

/-! ## Functions -/

def DagBlock.selectable (PIC : Bool) (b : DagBlock σ) : Bool :=
  b.nodes.all (·.selectable PIC b.nodes) && b.last.selectable

theorem SelectBlock.selectable {next : Nat} {b : DagBlock σ}
    {block : Select.MachineBasicBlock (MachInstr σ)} (h : SelectBlock PIC next b block) :
    b.selectable PIC = true := by
  cases h with
  | mk hnodes hlast =>
      rw [DagBlock.selectable, Bool.and_eq_true, List.all_eq_true]
      refine ⟨?_, hlast.selectable⟩
      intro n hn
      rcases List.mem_iff_getElem?.mp hn with ⟨j, hj⟩
      have hstart : (Selection.start next : Selection σ).Placed b.nodes := fun _ _ h => nomatch h
      exact hnodes.selectable hstart j n (Nat.zero_le j) hj

theorem exists_selectBlock {b : DagBlock σ} (hb : b.Ordered) (hsel : b.selectable PIC = true)
    (next : Nat) : ∃ block, SelectBlock PIC next b block := by
  rw [DagBlock.selectable, Bool.and_eq_true, List.all_eq_true] at hsel
  have hstart : (Selection.start next : Selection σ).Complete b.nodes 0 :=
    fun a ha => absurd ha.1 (Nat.not_lt_zero a)
  obtain ⟨code, s, hnodes, hs⟩ :=
    exists_selectNodes hb.operands hsel.1 b.nodes.length (Nat.zero_add _) hstart
  rcases exists_selectEnd hs hb.lastOperands hsel.2 with ⟨tail, terms, hlast⟩
  exact ⟨_, .mk hnodes hlast⟩

/-- A function whose operands are earlier values can be selected exactly when there is a
pattern for every node: there is none for an arithmetic shift to the right, for a load
that extends with the sign or with anything, for the address of a symbol in position
independent code and for an unsigned comparison, and a frame address can neither be
copied to a register nor selected. -/
theorem exists_selectFunction_iff (hordered : ∀ b ∈ f.layout, (f.block b).Ordered) :
    (∃ g, SelectFunction PIC base f g) ↔ ∀ b ∈ f.layout, (f.block b).selectable PIC = true := by
  constructor
  · rintro ⟨g, hg⟩ b hb
    rcases hg.block b hb with ⟨next, _, hblock⟩
    exact hblock.selectable
  · intro hsel
    have hblocks : ∀ b, ∃ block, b ∈ f.layout → SelectBlock PIC base (f.block b) block := by
      intro b
      by_cases hb : b ∈ f.layout
      · rcases exists_selectBlock (hordered b hb) (hsel b hb) base with ⟨block, hblock⟩
        exact ⟨block, fun _ => hblock⟩
      · exact ⟨⟨[], [], [], []⟩, fun h => absurd h hb⟩
    choose block hblock using hblocks
    exact ⟨⟨f.layout, block, f.nextBlockNum⟩, rfl, rfl,
      fun b hb => ⟨base, Nat.le_refl base, hblock b hb⟩⟩

/-- `v0 >> 7` -/
def shift : DagFunction Unit where
  layout := [0]
  block := fun _ => ⟨[], [.CopyFromReg (.vreg 0), .Constant 7, .SRA 0 1], .RET_FLAG, []⟩
  nextBlockNum := 1

theorem shift_ordered : ∀ b ∈ shift.layout, (shift.block b).Ordered := by
  intro b _
  have hvalue : ∀ a ∈ [0, 1], ValueBefore (shift.block b).nodes 2 a := by
    intro a ha
    simp only [List.mem_cons, List.not_mem_nil, or_false] at ha
    rcases ha with rfl | rfl
    · exact ⟨Nat.zero_lt_two, _, rfl, rfl⟩
    · exact ⟨Nat.one_lt_two, _, rfl, rfl⟩
  refine ⟨?_, fun _ ha => nomatch ha⟩
  intro i n hn a ha
  match i, hn with
  | 0, hn => cases hn; cases ha
  | 1, hn => cases hn; cases ha
  | 2, hn => cases hn; exact hvalue a ha

theorem shift_not_selected : ¬ ∃ g, SelectFunction false 2 shift g := by
  rw [exists_selectFunction_iff shift_ordered]
  decide

end Mandarin.Isel
