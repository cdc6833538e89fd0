import Mandarin.Isel.Patterns

/-! # Code for a node

Code for a node writes virtual registers that were free before it, and memory only
where the node does. What has been selected before keeps its value, and the operand
the code leaves behind holds the value of the node.
-/

namespace Mandarin.Isel

open Immediate Memory
open Branch (BlockId CondCodes)
open Select (State Inst)

variable {σ : Type}

/-! ## Free registers -/

def Below (k : Nat) (r : Register) : Prop := ∀ j, r = .vreg j → j < k

def Src.Below (k : Nat) : Src σ → Prop
  | reg r => Isel.Below k r
  | frameIndex _ | lo16 _ => True

theorem Below.mono {k l : Nat} {r : Register} (h : Below k r) (hle : k ≤ l) : Below l r :=
  fun j hj => Nat.lt_of_lt_of_le (h j hj) hle

theorem Src.Below.mono {k l : Nat} {src : Src σ} (h : src.Below k) (hle : k ≤ l) : src.Below l := by
  cases src with
  | reg r => exact Isel.Below.mono h hle
  | frameIndex fi => trivial
  | lo16 g => trivial

theorem below_vreg (k : Nat) : Below (k + 1) (.vreg k) := by
  intro j hj
  cases hj
  exact Nat.lt_succ_self k

theorem Below.ne_vreg {k l : Nat} {r : Register} (h : Below k r) (hle : k ≤ l) : r ≠ .vreg l :=
  fun heq => absurd (h l heq) (Nat.not_lt_of_le hle)

structure Frame (k : Nat) (st st' : MachState) : Prop where
  mem : st'.mem = st.mem
  regs : ∀ r, Below k r → st'.regs r = st.regs r

namespace Frame

variable {k l : Nat} {st st' st'' : MachState}

theorem refl (k : Nat) (st : MachState) : Frame k st st := ⟨rfl, fun _ _ => rfl⟩

theorem trans (h : Frame k st st') (h' : Frame k st' st'') : Frame k st st'' :=
  ⟨h'.mem.trans h.mem, fun r hr => (h'.regs r hr).trans (h.regs r hr)⟩

theorem mono (h : Frame l st st') (hle : k ≤ l) : Frame k st st' :=
  ⟨h.mem, fun r hr => h.regs r (hr.mono hle)⟩

theorem setReg (h : Frame k st st') (hle : k ≤ l) (v : Word) :
    Frame k st (st'.setReg (.vreg l) v) :=
  ⟨h.mem, fun r hr => (Function.update_of_ne (hr.ne_vreg hle) ..).trans (h.regs r hr)⟩

theorem setFlag (k : Nat) (st : MachState) (o : Outcome) : Frame k st { st with flag := o } :=
  ⟨rfl, fun _ _ => rfl⟩

theorem eval {W : World σ} {src : Src σ} (h : Frame k st st') (hsrc : src.Below k) :
    src.eval W st'.regs = src.eval W st.regs := by
  cases src with
  | reg r => exact h.regs r hsrc
  | frameIndex fi => rfl
  | lo16 g => rfl

end Frame

@[simp] theorem setReg_regs (st : MachState) (r : Register) (v : Word) : (st.setReg r v).regs r = v :=
  Function.update_self ..

/-! ## Trees -/

def runCode (W : World σ) (code : List (MachInstr σ)) (st : MachState) : MachState :=
  code.foldl (fun st i => i.exec W st) st

@[simp] theorem runCode_nil (W : World σ) (st : MachState) : runCode W [] st = st := rfl

@[simp] theorem runCode_append (W : World σ) (code code' : List (MachInstr σ)) (st : MachState) :
    runCode W (code ++ code') st = runCode W code' (runCode W code st) := List.foldl_append ..

@[simp] theorem runCode_singleton (W : World σ) (i : MachInstr σ) (st : MachState) :
    runCode W [i] st = i.exec W st := rfl

theorem Node.emit_le (operand : Nat → Src σ) (node : Node) (k : Nat) :
    k ≤ (node.emit operand k).2.2 := by
  induction node generalizing k with
  | reg n => exact Nat.le_refl k
  | LDIri src => exact Nat.le_succ k
  | rr op src1 src2 ih1 ih2 => exact Nat.le_succ_of_le (Nat.le_trans (ih1 k) (ih2 _))
  | ri op src1 src2 ih => exact Nat.le_succ_of_le (ih k)
  | NEGrr src ih => exact Nat.le_succ_of_le (ih k)
  | NOTrr src ih => exact Nat.le_succ_of_le (ih k)

/-- The value is in a new register, or where the only leaf is. -/
theorem Node.emit_place {operand : Nat → Src σ} {node : Node} {k : Nat} {r : Register}
    (h : (node.emit operand k).2.1 = .reg r) :
    (∃ l ∈ node.leaves, operand l = .reg r) ∨ ∃ j, k ≤ j ∧ r = .vreg j := by
  cases node with
  | reg n => exact .inl ⟨n, List.mem_singleton.mpr rfl, h⟩
  | LDIri src =>
      cases h
      exact .inr ⟨k, Nat.le_refl k, rfl⟩
  | rr op src1 src2 =>
      cases h
      exact .inr ⟨_, Nat.le_trans (src1.emit_le operand k) (src2.emit_le operand _), rfl⟩
  | ri op src1 src2 =>
      cases h
      exact .inr ⟨_, src1.emit_le operand k, rfl⟩
  | NEGrr src =>
      cases h
      exact .inr ⟨_, src.emit_le operand k, rfl⟩
  | NOTrr src =>
      cases h
      exact .inr ⟨_, src.emit_le operand k, rfl⟩

/-- What the code of a tree does, given values of its leaves. -/
structure Emitted (W : World σ) (k : Nat) (v : Word) (st : MachState)
    (e : List (MachInstr σ) × Src σ × Nat) : Prop where
  below : e.2.1.Below e.2.2
  frame : Frame k st (runCode W e.1 st)
  value : e.2.1.eval W (runCode W e.1 st).regs = v

theorem Emitted.snoc {W : World σ} {k : Nat} {v v' : Word} {st : MachState}
    {e : List (MachInstr σ) × Src σ × Nat} {i : MachInstr σ} (h : Emitted W k v st e)
    (hle : k ≤ e.2.2)
    (hexec : i.exec W (runCode W e.1 st) = (runCode W e.1 st).setReg (.vreg e.2.2) v') :
    Emitted W k v' st (e.1 ++ [i], .reg (.vreg e.2.2), e.2.2 + 1) := by
  refine ⟨below_vreg _, ?_, ?_⟩
  · rw [runCode_append, runCode_singleton, hexec]
    exact h.frame.setReg hle _
  · rw [runCode_append, runCode_singleton, hexec]
    exact setReg_regs _ _ _

theorem Node.emit_spec {W : World σ} {operand : Nat → Src σ} {vals : Nat → Word} (node : Node)
    {k : Nat} {st : MachState} (hbelow : ∀ l ∈ node.leaves, (operand l).Below k)
    (hvals : ∀ l ∈ node.leaves, (operand l).eval W st.regs = vals l) :
    Emitted W k (node.eval vals) st (node.emit operand k) := by
  induction node generalizing k st with
  | reg n =>
      have hmem : n ∈ (Node.reg n).leaves := List.mem_singleton.mpr rfl
      exact ⟨hbelow n hmem, .refl k st, hvals n hmem⟩
  | LDIri src =>
      exact ⟨below_vreg k, (Frame.refl k st).setReg (Nat.le_refl k) _, setReg_regs st _ _⟩
  | ri op src1 src2 ih =>
      have h1 := ih hbelow hvals
      apply h1.snoc (src1.emit_le operand k)
      rw [MachInstr.exec, h1.value, eval]
  | NEGrr src ih =>
      have h1 := ih hbelow hvals
      apply h1.snoc (src.emit_le operand k)
      rw [MachInstr.exec, h1.value, eval]
  | NOTrr src ih =>
      have h1 := ih hbelow hvals
      apply h1.snoc (src.emit_le operand k)
      rw [MachInstr.exec, h1.value, eval]
  | rr op src1 src2 ih1 ih2 =>
      have h1 := ih1 (fun l hl => hbelow l (List.mem_append_left _ hl))
        fun l hl => hvals l (List.mem_append_left _ hl)
      have hle := src1.emit_le operand k
      -- the first half leaves the leaves of the second alone
      have h2 := @ih2 (src1.emit operand k).2.2 (runCode W (src1.emit operand k).1 st)
        (fun l hl => (hbelow l (List.mem_append_right _ hl)).mono hle)
        fun l hl => (h1.frame.eval (hbelow l (List.mem_append_right _ hl))).trans
          (hvals l (List.mem_append_right _ hl))
      have hfirst := h2.frame.eval (W := W) h1.below
      refine ⟨below_vreg _, ?_, ?_⟩
      · rw [emit, runCode_append, runCode_append, runCode_singleton]
        exact (h1.frame.trans (h2.frame.mono hle)).setReg
          (Nat.le_trans hle (src2.emit_le operand _)) _
      · rw [emit, runCode_append, runCode_append, runCode_singleton]
        show (State.setReg _ _ _).regs _ = _
        rw [setReg_regs, hfirst, h1.value, h2.value, eval]

/-! ## Values of constants, symbols and frame objects -/

/-- The node has the same value in every run. -/
def DagNode.Fixed (W : World σ) (v : Word) : DagNode σ → Prop
  | Constant c => v = c
  | FrameIndex fi => v = W.frameAddress fi
  | GlobalAddress g => v = W.symbolAddress g
  | _ => True

theorem DagNode.Step.fixed {W : World σ} {vals : Nat → Word} {st st' : DagState} {n : DagNode σ}
    {v : Word} (h : n.Step W vals st v st') : n.Fixed W v := by
  cases h <;> first | rfl | trivial

theorem constantAt_eq_some {nodes : List (DagNode σ)} {a : Nat} {c : Word} :
    constantAt nodes a = some c ↔ nodes[a]? = some (.Constant c) := by
  unfold constantAt
  cases nodes[a]? with
  | none => simp
  | some n => cases n <;> simp

theorem symbolAt_eq_some {nodes : List (DagNode σ)} {a : Nat} {g : σ} :
    symbolAt nodes a = some g ↔ nodes[a]? = some (.GlobalAddress g) := by
  unfold symbolAt
  cases nodes[a]? with
  | none => simp
  | some n => cases n <;> simp

theorem DagNode.trees_spec {W : World σ} {nodes : List (DagNode σ)} {n : DagNode σ} {node : Node}
    {vals : Nat → Word} {st st' : DagState} {v : Word} (h : node ∈ n.trees nodes)
    (hstep : n.Step W vals st v st')
    (hfixed : ∀ a ∈ n.operands, ∀ c, constantAt nodes a = some c → vals a = c) :
    node.eval vals = v ∧ st' = st := by
  cases hstep with
  | Constant => exact ⟨(builds_of_mem_constants h).eval vals, rfl⟩
  | @alu op a b =>
      refine ⟨?_, rfl⟩
      rw [trees, List.cons_append, List.mem_cons, List.mem_append] at h
      rcases h with rfl | h | h
      · rfl
      · cases hb : constantAt nodes b with
        | none =>
            rw [hb] at h
            cases h
        | some c =>
            rw [hb] at h
            rw [(aluPatterns_spec (fits_reg a) h vals).1, ← hfixed b (by simp [operands]) c hb]
            rfl
      · cases ha : constantAt nodes a with
        | none =>
            rw [ha] at h
            cases h
        | some c =>
            rw [ha] at h
            rw [(leftPatterns_spec (fits_reg b) h vals).1, ← hfixed a (by simp [operands]) c ha]
            rfl
  | CopyFromReg => cases h
  | CopyToReg => cases h
  | SRA => cases h
  | falu => cases h
  | FP_TO_SINT => cases h
  | SINT_TO_FP => cases h
  | FrameIndex => cases h
  | GlobalAddress => cases h
  | load _ => cases h
  | store => cases h
  | truncstore => cases h
  | SELECT_CC _ => cases h

/-! ## Addresses of symbols -/

/-- In the first 64 KiB the lower half of an address is all of it. -/
theorem lo16_of_near {address : Word} (h : address.toNat < 2 ^ 16) : lo16 address = address := by
  apply BitVec.eq_of_toNat_eq
  rw [lo16, BitVec.toNat_and]
  show address.toNat &&& (2 ^ 16 - 1) = _
  rw [Nat.and_two_pow_sub_one_eq_mod, Nat.mod_eq_of_lt h]

theorem ldiField_of_near {address : Word} (h : address.toNat < 2 ^ 16) : ldiField.fits address := by
  show address.toNat < 2 ^ 19
  exact Nat.lt_trans h (by decide)

end Mandarin.Isel
