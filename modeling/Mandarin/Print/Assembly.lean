import Mandarin.Print.Labels
import Mandarin.Select.Semantics

/-! # The printed function

Blocks are printed in layout order, each behind its label unless that is left out. The
text can be assembled exactly when no branch names a label that is left out, and then it
runs as the blocks do.
-/

namespace Mandarin.Print

open Branch (BlockId CondCodes Inst Exit fallThrough)
open Select (layoutSucc layoutSucc_append)
open Simulation

variable {ι S : Type}

/-! ## The text -/

inductive Line (ι : Type) where
  | label (b : BlockId)
  | inst (i : Inst ι)
  deriving DecidableEq, Repr

/-- A block without predecessors gets no label either. -/
def hasLabel (f : MachineFunction ι) (MBB : BlockId) : Bool :=
  !(f.preds MBB).isEmpty && !isBlockOnlyReachableByFallthrough f MBB

def printBlock (f : MachineFunction ι) (MBB : BlockId) : List (Line ι) :=
  (if hasLabel f MBB then [.label MBB] else []) ++ (f.block MBB).map .inst

def printBlocks (f : MachineFunction ι) (layout : List BlockId) : List (Line ι) :=
  layout.flatMap (printBlock f)

def printFunction (f : MachineFunction ι) : List (Line ι) := printBlocks f f.layout

/-- Every destination of a branch is a label of the text. -/
def Assembles (text : List (Line ι)) : Prop :=
  ∀ i, .inst i ∈ text → ∀ b, target i = some b → .label b ∈ text

theorem printBlocks_append (f : MachineFunction ι) (front back : List BlockId) :
    printBlocks f (front ++ back) = printBlocks f front ++ printBlocks f back :=
  List.flatMap_append

theorem label_mem_printBlock {f : MachineFunction ι} {b MBB : BlockId} :
    .label b ∈ printBlock f MBB ↔ b = MBB ∧ hasLabel f MBB = true := by
  unfold printBlock
  cases hasLabel f MBB <;> simp

theorem label_mem_printBlocks {f : MachineFunction ι} {layout : List BlockId} {b : BlockId} :
    .label b ∈ printBlocks f layout ↔ b ∈ layout ∧ hasLabel f b = true := by
  unfold printBlocks
  rw [List.mem_flatMap]
  constructor
  · rintro ⟨MBB, hMBB, hlabel⟩
    rcases label_mem_printBlock.mp hlabel with ⟨rfl, hhas⟩
    exact ⟨hMBB, hhas⟩
  · rintro ⟨hb, hhas⟩
    exact ⟨b, hb, label_mem_printBlock.mpr ⟨rfl, hhas⟩⟩

theorem inst_mem_printBlocks {f : MachineFunction ι} {layout : List BlockId} {i : Inst ι} :
    .inst i ∈ printBlocks f layout ↔ ∃ P ∈ layout, i ∈ f.block P := by
  unfold printBlocks
  rw [List.mem_flatMap]
  have hblock : ∀ P, .inst i ∈ printBlock f P ↔ i ∈ f.block P := by
    intro P
    unfold printBlock
    cases hasLabel f P <;> simp
  simp only [hblock]

/-! ## Which functions assemble -/

theorem hasLabel_of_branch {f : MachineFunction ι} (hf : Consistent f) {P MBB : BlockId}
    (hP : P ∈ f.layout) (hbranch : BranchesTo (f.block P) MBB) :
    hasLabel f MBB = true ↔ ¬ LosesLabel f MBB := by
  have hpred := hf.branch P hP MBB hbranch
  have hnonempty : (f.preds MBB).isEmpty = false := by
    cases hpreds : f.preds MBB with
    | nil =>
        rw [hpreds] at hpred
        cases hpred
    | cons _ _ => rfl
  rw [← labelSafe_iff hf, hasLabel, hnonempty]
  constructor
  · intro hhas homit
    rw [homit] at hhas
    cases hhas
  · intro hsafe
    cases homit : isBlockOnlyReachableByFallthrough f MBB with
    | false => rfl
    | true => exact absurd hbranch ((hsafe homit).2 P hP)

theorem assembles_iff_hasLabel (f : MachineFunction ι) : Assembles (printFunction f) ↔
    ∀ P ∈ f.layout, ∀ b, BranchesTo (f.block P) b → b ∈ f.layout ∧ hasLabel f b = true := by
  constructor
  · intro h P hP b hbranch
    rcases hbranch with ⟨i, hi, htarget⟩
    exact label_mem_printBlocks.mp (h i (inst_mem_printBlocks.mpr ⟨P, hP, hi⟩) b htarget)
  · intro h i hi b htarget
    rcases inst_mem_printBlocks.mp hi with ⟨P, hP, hiP⟩
    exact label_mem_printBlocks.mpr (h P hP b ⟨i, hiP, htarget⟩)

/-- The text can be assembled unless a block is lost that a branch names: the only
predecessor is the block in front of it, names it in a branch, and ends in a branch that
control can run past. -/
theorem assembles_iff {f : MachineFunction ι} (hf : Consistent f)
    (hclosed : ∀ P ∈ f.layout, ∀ b, BranchesTo (f.block P) b → b ∈ f.layout) :
    Assembles (printFunction f) ↔
      ∀ P ∈ f.layout, ∀ b, BranchesTo (f.block P) b → ¬ LosesLabel f b := by
  rw [assembles_iff_hasLabel]
  constructor
  · intro h P hP b hbranch
    exact (hasLabel_of_branch hf hP hbranch).mp (h P hP b hbranch).2
  · intro h P hP b hbranch
    exact ⟨hclosed P hP b hbranch, (hasLabel_of_branch hf hP hbranch).mpr (h P hP b hbranch)⟩

/-! ## Runs -/

/-- What instructions do that are no branches, and when a condition holds. -/
structure Machine (ι S : Type) where
  exec : ι → S → S
  holds : CondCodes → S → Bool

inductive Event (ι : Type) where
  | exec (i : ι)
  /-- Control moves on without an effect. -/
  | move
  | leave (e : Exit)
  deriving DecidableEq, Repr

def Event.visible : Event ι → Bool
  | move => false
  | exec _ | leave _ => true

inductive BlockConfig (ι S : Type) where
  | run (b : BlockId) (rest : List (Inst ι)) (st : S)
  | left (e : Exit) (st : S)

inductive BlockStep (M : Machine ι S) (f : MachineFunction ι) :
    BlockConfig ι S → Event ι → BlockConfig ι S → Prop where
  | other {b : BlockId} {i : ι} {rest : List (Inst ι)} {st : S} :
      BlockStep M f (.run b (.other i :: rest) st) (.exec i) (.run b rest (M.exec i st))
  | debugValue {b : BlockId} {i : ι} {rest : List (Inst ι)} {st : S} :
      BlockStep M f (.run b (.debugValue i :: rest) st) .move (.run b rest st)
  | JMPi {b dst : BlockId} {rest : List (Inst ι)} {st : S} :
      BlockStep M f (.run b (.JMPi dst :: rest) st) .move (.run dst (f.block dst) st)
  | taken {b dst : BlockId} {cc : CondCodes} {rest : List (Inst ι)} {st : S}
      (h : M.holds cc st = true) :
      BlockStep M f (.run b (.JCCi dst cc :: rest) st) .move (.run dst (f.block dst) st)
  | notTaken {b dst : BlockId} {cc : CondCodes} {rest : List (Inst ι)} {st : S}
      (h : M.holds cc st = false) :
      BlockStep M f (.run b (.JCCi dst cc :: rest) st) .move (.run b rest st)
  | JMPr {b : BlockId} {r : Reg} {rest : List (Inst ι)} {st : S} :
      BlockStep M f (.run b (.JMPr r :: rest) st) (.leave (.indirect r)) (.left (.indirect r) st)
  | takenReg {b : BlockId} {r : Reg} {cc : CondCodes} {rest : List (Inst ι)} {st : S}
      (h : M.holds cc st = true) :
      BlockStep M f (.run b (.JCCr r cc :: rest) st) (.leave (.indirect r)) (.left (.indirect r) st)
  | notTakenReg {b : BlockId} {r : Reg} {cc : CondCodes} {rest : List (Inst ι)} {st : S}
      (h : M.holds cc st = false) :
      BlockStep M f (.run b (.JCCr r cc :: rest) st) .move (.run b rest st)
  | RET {b : BlockId} {rest : List (Inst ι)} {st : S} :
      BlockStep M f (.run b (.RET :: rest) st) (.leave .ret) (.left .ret st)
  | next {b c : BlockId} {st : S} (h : layoutSucc f.layout b = some c) :
      BlockStep M f (.run b [] st) .move (.run c (f.block c) st)
  | fallOff {b : BlockId} {st : S} (h : layoutSucc f.layout b = none) :
      BlockStep M f (.run b [] st) (.leave .fallOff) (.left .fallOff st)

def fromLabel (b : BlockId) : List (Line ι) → Option (List (Line ι))
  | [] => none
  | .label b' :: text => if b' = b then some text else fromLabel b text
  | .inst _ :: text => fromLabel b text

inductive TextConfig (ι S : Type) where
  | run (rest : List (Line ι)) (st : S)
  | left (e : Exit) (st : S)

/-- The assembled text, line by line; a branch goes to its label. -/
inductive TextStep (M : Machine ι S) (text : List (Line ι)) :
    TextConfig ι S → Event ι → TextConfig ι S → Prop where
  | label {b : BlockId} {rest : List (Line ι)} {st : S} :
      TextStep M text (.run (.label b :: rest) st) .move (.run rest st)
  | other {i : ι} {rest : List (Line ι)} {st : S} :
      TextStep M text (.run (.inst (.other i) :: rest) st) (.exec i) (.run rest (M.exec i st))
  | debugValue {i : ι} {rest : List (Line ι)} {st : S} :
      TextStep M text (.run (.inst (.debugValue i) :: rest) st) .move (.run rest st)
  | JMPi {dst : BlockId} {rest dest : List (Line ι)} {st : S} (hdst : fromLabel dst text = some dest) :
      TextStep M text (.run (.inst (.JMPi dst) :: rest) st) .move (.run dest st)
  | taken {dst : BlockId} {cc : CondCodes} {rest dest : List (Line ι)} {st : S}
      (h : M.holds cc st = true) (hdst : fromLabel dst text = some dest) :
      TextStep M text (.run (.inst (.JCCi dst cc) :: rest) st) .move (.run dest st)
  | notTaken {dst : BlockId} {cc : CondCodes} {rest : List (Line ι)} {st : S}
      (h : M.holds cc st = false) :
      TextStep M text (.run (.inst (.JCCi dst cc) :: rest) st) .move (.run rest st)
  | JMPr {r : Reg} {rest : List (Line ι)} {st : S} :
      TextStep M text (.run (.inst (.JMPr r) :: rest) st) (.leave (.indirect r))
        (.left (.indirect r) st)
  | takenReg {r : Reg} {cc : CondCodes} {rest : List (Line ι)} {st : S}
      (h : M.holds cc st = true) :
      TextStep M text (.run (.inst (.JCCr r cc) :: rest) st) (.leave (.indirect r))
        (.left (.indirect r) st)
  | notTakenReg {r : Reg} {cc : CondCodes} {rest : List (Line ι)} {st : S}
      (h : M.holds cc st = false) :
      TextStep M text (.run (.inst (.JCCr r cc) :: rest) st) .move (.run rest st)
  | RET {rest : List (Line ι)} {st : S} :
      TextStep M text (.run (.inst .RET :: rest) st) (.leave .ret) (.left .ret st)
  | fallOff {st : S} : TextStep M text (.run [] st) (.leave .fallOff) (.left .fallOff st)

/-! ## The text runs as the blocks do -/

theorem fromLabel_append {b : BlockId} {front : List (Line ι)} (h : .label b ∉ front)
    (back : List (Line ι)) : fromLabel b (front ++ back) = fromLabel b back := by
  induction front with
  | nil => rfl
  | cons line front ih =>
      have hfront : .label b ∉ front := fun hmem => h (List.mem_cons_of_mem _ hmem)
      cases line with
      | inst i => exact ih hfront
      | label b' =>
          have hne : b' ≠ b := by
            rintro rfl
            exact h List.mem_cons_self
          rw [List.cons_append, fromLabel, if_neg hne]
          exact ih hfront

/-- Behind the label of a block are its instructions and the blocks that follow it. -/
theorem fromLabel_printFunction {f : MachineFunction ι} {b : BlockId}
    (hlabel : .label b ∈ printFunction f) : ∃ front back, f.layout = front ++ b :: back ∧
      fromLabel b (printFunction f) = some ((f.block b).map .inst ++ printBlocks f back) := by
  rcases label_mem_printBlocks.mp hlabel with ⟨hb, hhas⟩
  rcases List.eq_append_cons_of_mem hb with ⟨front, back, hlayout, hfront⟩
  refine ⟨front, back, hlayout, ?_⟩
  have hnot : .label b ∉ printBlocks f front :=
    fun hmem => hfront (label_mem_printBlocks.mp hmem).1
  have hcons : printBlocks f (b :: back) =
      .label b :: ((f.block b).map .inst ++ printBlocks f back) := by
    show printBlock f b ++ printBlocks f back = _
    unfold printBlock
    rw [if_pos hhas]
    rfl
  unfold printFunction
  rw [hlayout, printBlocks_append, fromLabel_append hnot, hcons, fromLabel, if_pos rfl]

/-- In front of the same instructions, with the blocks that follow printed behind. -/
inductive Related (f : MachineFunction ι) : BlockConfig ι S → TextConfig ι S → Prop where
  | run {front back : List BlockId} {b : BlockId} {rest : List (Inst ι)} {st : S}
      (hlayout : f.layout = front ++ b :: back) (hrest : ∀ i ∈ rest, i ∈ f.block b) :
      Related f (.run b rest st) (.run (rest.map .inst ++ printBlocks f back) st)
  | left {e : Exit} {st : S} : Related f (.left e st) (.left e st)

def Shows (e : Event ι) (events : List (Event ι)) : Prop :=
  events.filter Event.visible = [e].filter Event.visible

theorem Shows.self (e : Event ι) : Shows e [e] := rfl

theorem matches_shows {events events' : List (Event ι)} (h : Matches Shows events events') :
    events'.filter Event.visible = events.filter Event.visible := by
  induction h with
  | nil => rfl
  | @cons e es es' rest' first _ ih =>
      have hfirst : es'.filter Event.visible = [e].filter Event.visible := first
      rw [List.filter_append, hfirst, ih, ← List.filter_append, List.singleton_append]

section
variable {M : Machine ι S} {f : MachineFunction ι}

theorem related_target (hasm : Assembles (printFunction f)) {i : Inst ι} {P dst : BlockId}
    (hP : P ∈ f.layout) (hi : i ∈ f.block P) (htarget : target i = some dst) (st : S) :
    ∃ dest, fromLabel dst (printFunction f) = some dest ∧
      Related f (.run dst (f.block dst) st) (.run dest st) := by
  have hlabel := hasm i (inst_mem_printBlocks.mpr ⟨P, hP, hi⟩) dst htarget
  rcases fromLabel_printFunction hlabel with ⟨front, back, hlayout, hfrom⟩
  exact ⟨_, hfrom, .run hlayout fun _ h => h⟩

/-- The lines of a block are reached from the end of the block in front, past the label
if there is one. -/
theorem run_printBlock {front back : List BlockId} {c : BlockId}
    (hlayout : f.layout = front ++ c :: back) (st : S) :
    ∃ events c', Run (TextStep M (printFunction f)) (.run (printBlocks f (c :: back)) st) events c' ∧
      events.filter Event.visible = [] ∧ Related f (.run c (f.block c) st) c' := by
  have hblocks : printBlocks f (c :: back) = printBlock f c ++ printBlocks f back := rfl
  rw [hblocks]
  unfold printBlock
  by_cases hhas : hasLabel f c = true
  · rw [if_pos hhas]
    exact ⟨[.move], _, .single .label, rfl, .run hlayout fun _ h => h⟩
  · rw [if_neg hhas]
    exact ⟨[], _, .nil, rfl, .run hlayout fun _ h => h⟩

theorem printed_simulates (hnodup : f.layout.Nodup) (hasm : Assembles (printFunction f)) :
    Simulates (BlockStep M f) (TextStep M (printFunction f)) (Related f) Shows := by
  intro c c' e t hrel hstep
  cases hrel with
  | left => cases hstep
  | @run front back b rest st hlayout hrest =>
      have hb : b ∈ f.layout := by
        rw [hlayout]
        exact List.mem_append_right _ List.mem_cons_self
      have hfront : b ∉ front := by
        rw [hlayout] at hnodup
        exact fun hmem => (List.nodup_append.mp hnodup).2.2 b hmem b List.mem_cons_self rfl
      have hsucc : layoutSucc f.layout b = back.head? := by
        rw [hlayout]
        exact layoutSucc_append hfront
      have htail : ∀ {i : Inst ι} {is : List (Inst ι)}, (∀ j ∈ i :: is, j ∈ f.block b) →
          ∀ j ∈ is, j ∈ f.block b := fun h j hj => h j (List.mem_cons_of_mem _ hj)
      cases hstep with
      | other => exact ⟨_, _, .single .other, .self _, .run hlayout (htail hrest)⟩
      | debugValue => exact ⟨_, _, .single .debugValue, .self _, .run hlayout (htail hrest)⟩
      | JMPi =>
          obtain ⟨dest, hfrom, hdest⟩ := related_target hasm hb (hrest _ List.mem_cons_self) rfl st
          exact ⟨_, _, .single (.JMPi hfrom), .self _, hdest⟩
      | taken h =>
          obtain ⟨dest, hfrom, hdest⟩ := related_target hasm hb (hrest _ List.mem_cons_self) rfl st
          exact ⟨_, _, .single (.taken h hfrom), .self _, hdest⟩
      | notTaken h => exact ⟨_, _, .single (.notTaken h), .self _, .run hlayout (htail hrest)⟩
      | JMPr => exact ⟨_, _, .single .JMPr, .self _, .left⟩
      | takenReg h => exact ⟨_, _, .single (.takenReg h), .self _, .left⟩
      | notTakenReg h =>
          exact ⟨_, _, .single (.notTakenReg h), .self _, .run hlayout (htail hrest)⟩
      | RET => exact ⟨_, _, .single .RET, .self _, .left⟩
      | @next b c st hnext =>
          rw [hsucc] at hnext
          cases back with
          | nil => cases hnext
          | cons c' back =>
              cases hnext
              have hlayout' : f.layout = (front ++ [b]) ++ c :: back := by
                rw [hlayout, List.append_assoc, List.singleton_append]
              rcases run_printBlock hlayout' st with ⟨events, t, hrun, hnone, hrel⟩
              exact ⟨events, t, hrun, hnone, hrel⟩
      | fallOff hnext =>
          rw [hsucc] at hnext
          cases back with
          | nil => exact ⟨_, _, .single .fallOff, .self _, .left⟩
          | cons c' back => cases hnext

theorem run_printFunction {entry : BlockId} {others : List BlockId}
    (hentry : f.layout = entry :: others) (st : S) :
    ∃ events t, Run (TextStep M (printFunction f)) (.run (printFunction f) st) events t ∧
      events.filter Event.visible = [] ∧ Related f (.run entry (f.block entry) st) t := by
  have htext : printFunction f = printBlocks f (entry :: others) := by
    unfold printFunction
    rw [hentry]
  have hfirst := @run_printBlock ι S M f [] others entry hentry st
  rw [← htext] at hfirst
  exact hfirst

/-- A text that can be assembled runs as the function it was printed from: from its first
line on it executes what the function executes from its first block on, in the same
order, and leaves where the function leaves, in the same state. -/
theorem printed_preserves (hnodup : f.layout.Nodup) (hasm : Assembles (printFunction f))
    {entry : BlockId} {others : List BlockId} (hentry : f.layout = entry :: others) {st : S}
    {events : List (Event ι)} {c : BlockConfig ι S}
    (hrun : Run (BlockStep M f) (.run entry (f.block entry) st) events c) :
    ∃ events' c', Run (TextStep M (printFunction f)) (.run (printFunction f) st) events' c' ∧
      events'.filter Event.visible = events.filter Event.visible ∧
      ∀ e st', c = .left e st' → c' = .left e st' := by
  rcases run_printFunction (M := M) hentry st with ⟨first, t, hfirst, hnone, hrel⟩
  rcases (printed_simulates hnodup hasm).run hrel hrun with ⟨events', c', hrun', hmatch, hrel'⟩
  refine ⟨first ++ events', c', hfirst.append hrun', ?_, ?_⟩
  · rw [List.filter_append, hnone, List.nil_append, matches_shows hmatch]
  · rintro e st' rfl
    cases hrel'
    rfl

end

/-! ## A loop -/

/-- A block that repeats itself while a condition holds, and a return. -/
def repeatBlock : MachineFunction Unit where
  layout := [0, 1, 2]
  block := fun b =>
    if b = 1 then [.other (), .JCCi 1 .COND_EQ] else if b = 2 then [.RET] else []
  preds := fun b => if b = 1 then [0, 1] else if b = 2 then [1] else []
  isLandingPad := fun _ => false

theorem printFunction_repeatBlock : printFunction repeatBlock =
    [.label 1, .inst (.other ()), .inst (.JCCi 1 .COND_EQ), .inst .RET] := by decide

theorem assembles_repeatBlock : Assembles (printFunction repeatBlock) := by
  rw [printFunction_repeatBlock]
  intro i hi b htarget
  simp only [List.mem_cons, reduceCtorEq, Line.inst.injEq, List.not_mem_nil, false_or, or_false] at hi
  rcases hi with rfl | rfl | rfl
  · cases htarget
  · cases htarget
    exact List.mem_cons_self
  · cases htarget

/-- One turn of the loop, then the return. -/
theorem printed_preserves_repeatBlock :
    ∃ events' c', Run (TextStep (⟨fun _ n => n - 1, fun _ n => n != 0⟩ : Machine Unit Nat)
        (printFunction repeatBlock)) (.run (printFunction repeatBlock) 2) events' c' ∧
      events'.filter Event.visible = [.exec (), .exec (), .leave .ret] ∧ c' = .left .ret 0 := by
  have hrun : Run (BlockStep (⟨fun _ n => n - 1, fun _ n => n != 0⟩ : Machine Unit Nat) repeatBlock)
      (.run 0 (repeatBlock.block 0) 2) _ (.left .ret 0) :=
    .cons (.next rfl) (.cons .other (.cons (.taken rfl) (.cons .other (.cons (.notTaken rfl)
      (.cons (.next rfl) (.single .RET))))))
  obtain ⟨events', c', hrun', hevents, hleft⟩ :=
    printed_preserves (by decide) assembles_repeatBlock rfl hrun
  exact ⟨events', c', hrun', hevents, hleft _ _ rfl⟩

theorem branchesTo_conditional {B : BlockId}
    (h : BranchesTo ([.JCCi 1 .COND_EQ] : List (Inst Unit)) B) : B = 1 := by
  rcases h with ⟨i, hi, ht⟩
  rw [List.mem_singleton.mp hi] at ht
  cases ht
  rfl

theorem consistent_conditional : Consistent (twoBlocks [.JCCi 1 .COND_EQ]) :=
  consistent_twoBlocks ⟨fun _ => false, rfl⟩ fun _ => branchesTo_conditional

theorem closed_conditional : ∀ P ∈ (twoBlocks [.JCCi 1 .COND_EQ]).layout,
    ∀ b, BranchesTo ((twoBlocks [.JCCi 1 .COND_EQ]).block P) b →
      b ∈ (twoBlocks [.JCCi 1 .COND_EQ]).layout := by
  intro P _ b hbranch
  by_cases hP : P = 0
  · subst hP
    rw [branchesTo_conditional hbranch]
    decide
  · rw [show (twoBlocks [.JCCi 1 .COND_EQ]).block P = [.RET] from if_neg hP] at hbranch
    rcases hbranch with ⟨i, hi, ht⟩
    rw [List.mem_singleton.mp hi] at ht
    cases ht

/-- A jump to the next block over nothing: the only label is left out. -/
theorem not_assembles_conditional :
    ¬ Assembles (printFunction (twoBlocks [.JCCi 1 .COND_EQ])) := by
  rw [assembles_iff consistent_conditional closed_conditional]
  intro h
  have hbranch : BranchesTo ([.JCCi 1 .COND_EQ] : List (Inst Unit)) 1 :=
    ⟨.JCCi 1 .COND_EQ, List.mem_singleton.mpr rfl, rfl⟩
  exact h 0 List.mem_cons_self 1 hbranch
    ⟨rfl, 0, .JCCi 1 .COND_EQ, rfl, rfl, rfl, rfl, .inl hbranch⟩

end Mandarin.Print
