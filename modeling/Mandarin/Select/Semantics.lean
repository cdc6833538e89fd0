import Mandarin.Lib.Simulation
import Mandarin.Select.Function

/-! # Running a function

A configuration is a block, the instructions of it that are still to execute and
the state. At the end of the block the terminators decide, from first to last,
where control goes, always to a successor; entering a block gives all its PHIs the
values that belong to the block control comes from. Every step leaves an event.
-/

namespace Mandarin.Select

open Branch (BlockId CondCodes Exit fallThrough)
open Simulation

structure State (φ μ : Type) where
  regs : Register → Word
  flag : φ
  mem : μ

/-- What the ordinary instructions do, when a condition holds of the flag, and which
block an address belongs to. -/
structure Target (ι φ μ : Type) where
  exec : ι → State φ μ → State φ μ → Prop
  holds : CondCodes → φ → Bool
  blockAt : Word → BlockId

variable {ι φ μ : Type}

def State.setReg (st : State φ μ) (r : Register) (v : Word) : State φ μ :=
  { st with regs := Function.update st.regs r v }

/-! ## Leaving and entering blocks -/

def Terminator.transfer (T : Target ι φ μ) (st : State φ μ) (t : Terminator) (k : Exit) : Exit :=
  match t with
  | JMPi dst => .block dst
  | JCCi dst cc => if T.holds cc st.flag then .block dst else k
  | JMPr r => .block (T.blockAt (st.regs r))
  | JCCr r cc => if T.holds cc st.flag then .block (T.blockAt (st.regs r)) else k
  | RET => .ret

def exit (T : Target ι φ μ) (f : MachineFunction ι) (b : BlockId) (st : State φ μ) : Exit :=
  (f.block b).terms.foldr (fun t k => t.transfer T st k) (fallThrough (layoutSucc f.layout b))

/-- The value of a PHI for control that comes from `pred`. -/
def Phi.value (pred : BlockId) (regs : Register → Word) (phi : Phi) : Option Word :=
  (phi.incoming.find? fun value => value.2 = pred).map fun value => regs value.1

def phiValues (pred : BlockId) (regs : Register → Word) (phis : List Phi) :
    Option (List (Register × Word)) :=
  phis.mapM fun phi => (phi.value pred regs).map fun v => (phi.dst, v)

def State.setAll (st : State φ μ) (values : List (Register × Word)) : State φ μ :=
  values.foldl (fun st value => st.setReg value.1 value.2) st

/-! ## Steps -/

inductive Event (ι : Type) where
  | exec (i : ι)
  | select (dst : Register) (v : Word)
  | enter (b : BlockId) (values : List (Register × Word))
  | ret
  deriving DecidableEq, Repr

inductive Config (ι φ μ : Type) where
  | run (b : BlockId) (rest : List (Inst ι)) (st : State φ μ)
  | returned (st : State φ μ)

def Config.state : Config ι φ μ → State φ μ
  | run _ _ st => st
  | returned st => st

/-- `(Cond holds of CC_FLAG) ? T : F` -/
def selected (T : Target ι φ μ) (st : State φ μ) (t f : Register) (Cond : CondCodes) : Word :=
  if T.holds Cond st.flag then st.regs t else st.regs f

inductive Step (T : Target ι φ μ) (f : MachineFunction ι) :
    Config ι φ μ → Event ι → Config ι φ μ → Prop where
  | op {b : BlockId} {i : ι} {rest : List (Inst ι)} {st st' : State φ μ} (h : T.exec i st st') :
      Step T f (.run b (.op i :: rest) st) (.exec i) (.run b rest st')
  | select {b : BlockId} {kind : SelectKind} {dst t e : Register} {Cond : CondCodes}
      {rest : List (Inst ι)} {st : State φ μ} :
      Step T f (.run b (.selectCC kind dst t e Cond :: rest) st)
        (.select dst (selected T st t e Cond))
        (.run b rest (st.setReg dst (selected T st t e Cond)))
  -- an indirect jump to a block that is not a successor is undefined
  | enter {b b' : BlockId} {st : State φ μ} {values : List (Register × Word)}
      (hexit : exit T f b st = .block b') (hsucc : b' ∈ (f.block b).successors)
      (hphis : phiValues b st.regs (f.block b').phis = some values) :
      Step T f (.run b [] st) (.enter b' values) (.run b' (f.block b').body (st.setAll values))
  | ret {b : BlockId} {st : State φ μ} (hexit : exit T f b st = .ret) :
      Step T f (.run b [] st) .ret (.returned st)

/-- Control at the first instruction of block `b`, behind its PHIs. -/
def Config.start (f : MachineFunction ι) (b : BlockId) (st : State φ μ) : Config ι φ μ :=
  .run b (f.block b).body st

/-! ## Well-formed functions -/

/-- Blocks are laid out once, numbers from `nextBlockNum` on are unused, and successors are
blocks of the function. -/
structure WellFormed (f : MachineFunction ι) : Prop where
  nodup : f.layout.Nodup
  fresh : ∀ b ∈ f.layout, b < f.nextBlockNum
  closed : ∀ b ∈ f.layout, ∀ s ∈ (f.block b).successors, s ∈ f.layout
  incoming : ∀ b ∈ f.layout, ∀ phi ∈ (f.block b).phis, ∀ value ∈ phi.incoming,
    value.2 < f.nextBlockNum

/-! ## Layout successors -/

theorem layoutSucc_append {front back : List BlockId} {b : BlockId} (h : b ∉ front) :
    layoutSucc (front ++ b :: back) b = back.head? := by
  unfold layoutSucc
  rw [List.idxOf_append_of_notMem h, List.idxOf_cons_self, Nat.add_zero,
    List.getElem?_append_right (by omega), show front.length + 1 - front.length = 1 by omega,
    List.getElem?_cons_succ, List.head?_eq_getElem?]

/-- A block with another one behind it is followed by that one, also in a layout that
continues differently. -/
theorem layoutSucc_append_left {front back back' : List BlockId} {b c : BlockId} (hb : b ∈ front)
    : layoutSucc (front ++ c :: back) b = layoutSucc (front ++ c :: back') b := by
  unfold layoutSucc
  have hlt := List.idxOf_lt_length_of_mem hb
  rw [List.idxOf_append_of_mem hb, List.idxOf_append_of_mem hb]
  rcases Nat.lt_or_ge (front.idxOf b + 1) front.length with h | h
  · rw [List.getElem?_append_left h, List.getElem?_append_left h]
  · have heq : front.idxOf b + 1 - front.length = 0 := by omega
    rw [List.getElem?_append_right h, List.getElem?_append_right h, heq]
    rfl

/-! ## PHIs -/

/-- Rewritten PHIs that choose the same values. -/
theorem phiValues_map {pred pred' : BlockId} {regs : Register → Word} {change : Phi → Phi}
    {phis : List Phi} (h : ∀ phi ∈ phis, (change phi).dst = phi.dst ∧
      (change phi).value pred regs = phi.value pred' regs) :
    phiValues pred regs (phis.map change) = phiValues pred' regs phis := by
  induction phis with
  | nil => rfl
  | cons phi phis ih =>
      have hphi := h phi (by simp)
      have hrest := ih fun p hp => h p (by simp [hp])
      unfold phiValues at hrest ⊢
      rw [List.map_cons, List.mapM_cons, List.mapM_cons, hphi.1, hphi.2, hrest]

end Mandarin.Select
