import Mandarin.Branch.Relayout
import Mandarin.Print.Assembly

/-! # Printing a function laid out anew

Blocks rebuilt for another order of layout execute what they did, and their branches go
where they went, in fewer or more steps. Printed, they run as the function did before
it was laid out anew. Their normal form decides which labels the text lacks.
-/

namespace Mandarin.Print

open Branch (BlockId CondCodes Inst Exit TerminatorsLast Inside Movable relay kept fallThrough
  transfer transferThen transferThen_cons analyzeBranch otherwise)
open Select (layoutSucc)
open Simulation

variable {ι S : Type}

/-! ## Effects and exits -/

/-- The instruction an instruction executes, if it is neither a branch nor a debug value. -/
def effect : Inst ι → Option ι
  | .other i => some i
  | _ => none

def effects (is : List (Inst ι)) : List ι := is.filterMap effect

@[simp] theorem effects_nil : effects ([] : List (Inst ι)) = [] := rfl

@[simp] theorem effects_other (i : ι) (is : List (Inst ι)) :
    effects (.other i :: is) = i :: effects is := rfl

theorem effects_skip {i : Inst ι} (h : effect i = none) (is : List (Inst ι)) :
    effects (i :: is) = effects is := List.filterMap_cons_none h

theorem effects_kept (is : List (Inst ι)) : effects (kept is) = effects is := by
  unfold effects kept
  rw [List.filterMap_filter]
  congr 1
  funext i
  cases i <;> rfl

theorem effects_of_terminator {i : Inst ι} {is : List (Inst ι)} (h : TerminatorsLast (i :: is))
    (hi : i.isTerminator = true) : effects is = [] := by
  unfold effects
  rw [List.filterMap_eq_nil_iff]
  intro j hj
  cases heffect : effect j with
  | none => rfl
  | some k =>
      cases j with
      | other k =>
          rcases List.append_of_mem hj with ⟨pre, suf, rfl⟩
          have hpre := @TerminatorsLast.before ι (i :: pre) suf (.other k) h rfl rfl
          rw [hpre i List.mem_cons_self] at hi
          cases hi
      | debugValue k => cases heffect
      | JMPi dst => cases heffect
      | JCCi dst cc => cases heffect
      | JMPr r => cases heffect
      | JCCr r cc => cases heffect
      | RET => cases heffect

theorem terminatorsLast_tail {i : Inst ι} {is : List (Inst ι)} (h : TerminatorsLast (i :: is)) :
    TerminatorsLast is := by
  rcases h with ⟨body, tail, heq, hbody, htail⟩
  cases body with
  | nil =>
      refine ⟨[], is, rfl, by simp, ?_⟩
      intro j hj
      apply htail
      rw [← List.nil_append tail, ← heq]
      exact List.mem_cons_of_mem _ hj
  | cons j body =>
      cases heq
      exact ⟨body, tail, rfl, fun k hk => hbody k (List.mem_cons_of_mem _ hk), htail⟩

/-- Where control goes from inside a block. -/
def exitFrom (M : Machine ι S) (f : MachineFunction ι) (b : BlockId) (rest : List (Inst ι)) (st : S) :
    Exit :=
  transferThen (fun cc => M.holds cc st) rest (fallThrough (layoutSucc f.layout b))

def arrive (f : MachineFunction ι) (st : S) : Exit → BlockConfig ι S
  | .block dst => .run dst (f.block dst) st
  | e => .left e st

def exitEvent : Exit → Event ι
  | .block _ => .move
  | e => .leave e

section
variable {M : Machine ι S} {f : MachineFunction ι} {b : BlockId} {rest : List (Inst ι)} {st : S}

theorem blockStep_cases {e : Event ι} {c : BlockConfig ι S} (hwell : TerminatorsLast rest)
    (hstep : BlockStep M f (.run b rest st) e c) :
    (∃ i is, rest = .other i :: is ∧ e = .exec i ∧ c = .run b is (M.exec i st)) ∨
    (∃ i is, rest = i :: is ∧ effect i = none ∧ e = .move ∧ c = .run b is st ∧
      ∀ st', (effects is = [] → st' = st) → exitFrom M f b is st' = exitFrom M f b (i :: is) st') ∨
    (effects rest = [] ∧ e = exitEvent (exitFrom M f b rest st) ∧
      c = arrive f st (exitFrom M f b rest st)) := by
  have hbranch : ∀ {i : Inst ι} {is : List (Inst ι)}, rest = i :: is → i.isTerminator = true →
      effect i = none → effects rest = [] := by
    rintro i is rfl hi heffect
    rw [effects_skip heffect]
    exact effects_of_terminator hwell hi
  cases hstep with
  | other => exact .inl ⟨_, _, rfl, rfl, rfl⟩
  | debugValue => exact .inr (.inl ⟨_, _, rfl, rfl, rfl, rfl, fun _ _ => rfl⟩)
  | JMPi => exact .inr (.inr ⟨hbranch rfl rfl rfl, rfl, rfl⟩)
  | @taken _ dst cc is _ h =>
      have hexit : exitFrom M f b (.JCCi dst cc :: is) st = .block dst := if_pos h
      rw [hexit]
      exact .inr (.inr ⟨hbranch rfl rfl rfl, rfl, rfl⟩)
  | @notTaken _ dst cc is _ h =>
      refine .inr (.inl ⟨_, _, rfl, rfl, rfl, rfl, ?_⟩)
      intro st' hst
      rw [hst (effects_of_terminator hwell rfl)]
      exact (if_neg (by simp [h])).symm
  | JMPr => exact .inr (.inr ⟨hbranch rfl rfl rfl, rfl, rfl⟩)
  | @takenReg _ r cc is _ h =>
      have hexit : exitFrom M f b (.JCCr r cc :: is) st = .indirect r := if_pos h
      rw [hexit]
      exact .inr (.inr ⟨hbranch rfl rfl rfl, rfl, rfl⟩)
  | @notTakenReg _ r cc is _ h =>
      refine .inr (.inl ⟨_, _, rfl, rfl, rfl, rfl, ?_⟩)
      intro st' hst
      rw [hst (effects_of_terminator hwell rfl)]
      exact (if_neg (by simp [h])).symm
  | RET => exact .inr (.inr ⟨hbranch rfl rfl rfl, rfl, rfl⟩)
  | @next _ c _ h =>
      have hexit : exitFrom M f b [] st = .block c := congrArg fallThrough h
      rw [hexit]
      exact .inr (.inr ⟨rfl, rfl, rfl⟩)
  | fallOff h =>
      have hexit : exitFrom M f b [] st = .fallOff := congrArg fallThrough h
      rw [hexit]
      exact .inr (.inr ⟨rfl, rfl, rfl⟩)

theorem run_to_exit (heffects : effects rest = []) :
    ∃ events, Run (BlockStep M f) (.run b rest st) events (arrive f st (exitFrom M f b rest st)) ∧
      Shows (exitEvent (exitFrom M f b rest st)) events := by
  have hskip : ∀ {i : Inst ι} {is : List (Inst ι)} {x : Exit},
      BlockStep M f (.run b (i :: is) st) .move (.run b is st) →
      (∃ events, Run (BlockStep M f) (.run b is st) events (arrive f st x) ∧
        Shows (exitEvent x) events) →
      ∃ events, Run (BlockStep M f) (.run b (i :: is) st) events (arrive f st x) ∧
        Shows (exitEvent x) events := by
    rintro i is x hstep ⟨events, hrun, hshows⟩
    exact ⟨.move :: events, .cons hstep hrun, hshows⟩
  induction rest with
  | nil =>
      cases hnext : layoutSucc f.layout b with
      | none =>
          have hexit : exitFrom M f b [] st = .fallOff := congrArg fallThrough hnext
          rw [hexit]
          exact ⟨_, .single (.fallOff hnext), .self _⟩
      | some c =>
          have hexit : exitFrom M f b [] st = .block c := congrArg fallThrough hnext
          rw [hexit]
          exact ⟨_, .single (.next hnext), .self _⟩
  | cons i is ih =>
      cases i with
      | other i => cases heffects
      | debugValue i => exact hskip .debugValue (ih heffects)
      | JMPi dst => exact ⟨_, .single .JMPi, .self _⟩
      | JMPr r => exact ⟨_, .single .JMPr, .self _⟩
      | RET => exact ⟨_, .single .RET, .self _⟩
      | JCCi dst cc =>
          cases h : M.holds cc st with
          | true =>
              have hexit : exitFrom M f b (.JCCi dst cc :: is) st = .block dst := if_pos h
              rw [hexit]
              exact ⟨_, .single (.taken h), .self _⟩
          | false =>
              have hexit : exitFrom M f b (.JCCi dst cc :: is) st = exitFrom M f b is st :=
                if_neg (by simp [h])
              rw [hexit]
              exact hskip (.notTaken h) (ih heffects)
      | JCCr r cc =>
          cases h : M.holds cc st with
          | true =>
              have hexit : exitFrom M f b (.JCCr r cc :: is) st = .indirect r := if_pos h
              rw [hexit]
              exact ⟨_, .single (.takenReg h), .self _⟩
          | false =>
              have hexit : exitFrom M f b (.JCCr r cc :: is) st = exitFrom M f b is st :=
                if_neg (by simp [h])
              rw [hexit]
              exact hskip (.notTakenReg h) (ih heffects)

theorem run_to_effect {i : ι} {is : List ι} (hwell : TerminatorsLast rest)
    (heffects : effects rest = i :: is) :
    ∃ events rest', Run (BlockStep M f) (.run b rest st) events (.run b rest' (M.exec i st)) ∧
      Shows (.exec i) events ∧ effects rest' = is ∧ TerminatorsLast rest' ∧
      ∀ st', exitFrom M f b rest' st' = exitFrom M f b rest st' := by
  induction rest with
  | nil => cases heffects
  | cons j rest ih =>
      have hterminator : j.isTerminator = true → effect j = none → False := by
        intro hj hnone
        rw [effects_skip hnone, effects_of_terminator hwell hj] at heffects
        cases heffects
      cases j with
      | other j =>
          cases heffects
          exact ⟨_, rest, .single .other, .self _, rfl, terminatorsLast_tail hwell, fun _ => rfl⟩
      | debugValue j =>
          rcases ih (terminatorsLast_tail hwell) heffects with
            ⟨events, rest', hrun, hshows, htail, hwell', hexit⟩
          exact ⟨.move :: events, rest', .cons .debugValue hrun, hshows, htail, hwell', hexit⟩
      | JMPi dst => exact (hterminator rfl rfl).elim
      | JCCi dst cc => exact (hterminator rfl rfl).elim
      | JMPr r => exact (hterminator rfl rfl).elim
      | JCCr r cc => exact (hterminator rfl rfl).elim
      | RET => exact (hterminator rfl rfl).elim

end

/-! ## The function laid out anew -/

/-- The blocks of `f` rebuilt for the layout of `f'`. -/
structure Relaid (f f' : MachineFunction ι) : Prop where
  inside : Inside f.layout f.block
  movable : ∀ b ∈ f.layout, Movable (layoutSucc f.layout b) (layoutSucc f'.layout b) (f.block b)
  blocks : ∀ b ∈ f.layout,
    relay (layoutSucc f.layout b) (layoutSucc f'.layout b) (f.block b) = some (f'.block b)

section
variable {M : Machine ι S} {f f' : MachineFunction ι}

theorem Relaid.spec (h : Relaid f f') {b : BlockId} (hb : b ∈ f.layout) :
    effects (f'.block b) = effects (f.block b) ∧ TerminatorsLast (f'.block b) ∧
      ∀ st, exitFrom M f' b (f'.block b) st = exitFrom M f b (f.block b) st := by
  have hwell := h.inside.wellFormed b hb
  have hinside := h.inside.noFallOff b hb
  obtain ⟨block', hrelay, hkept, htransfer⟩ :=
    Branch.relay_spec hwell hinside (h.movable b hb)
  rw [h.blocks b hb, Option.some.injEq] at hrelay
  subst hrelay
  refine ⟨?_, Branch.relay_terminatorsLast hwell hinside (h.blocks b hb), fun st => htransfer _⟩
  rw [← effects_kept, hkept, effects_kept]

/-- In the same block with the same effects ahead, and on the way to the same exit. While
there are effects ahead, the exit is not decided. -/
inductive Aligned (M : Machine ι S) (f f' : MachineFunction ι) :
    BlockConfig ι S → BlockConfig ι S → Prop where
  | run {b : BlockId} {rest rest' : List (Inst ι)} {st : S} (hb : b ∈ f.layout)
      (heffects : effects rest' = effects rest) (hwell : TerminatorsLast rest)
      (hwell' : TerminatorsLast rest')
      (hexit : ∀ st', (effects rest = [] → st' = st) →
        exitFrom M f b rest st' = exitFrom M f b (f.block b) st' ∧
          exitFrom M f' b rest' st' = exitFrom M f' b (f'.block b) st') :
      Aligned M f f' (.run b rest st) (.run b rest' st)
  | left {e : Exit} {st : S} : Aligned M f f' (.left e st) (.left e st)

theorem Relaid.aligned (h : Relaid f f') {b : BlockId} (hb : b ∈ f.layout) (st : S) :
    Aligned M f f' (.run b (f.block b) st) (.run b (f'.block b) st) := by
  obtain ⟨heffects, hwell', _⟩ := h.spec (M := M) hb
  exact .run hb heffects (h.inside.wellFormed b hb) hwell' fun _ _ => ⟨rfl, rfl⟩

theorem relaid_simulates (h : Relaid f f') :
    Simulates (BlockStep M f) (BlockStep M f') (Aligned M f f') Shows := by
  intro c c' e t haligned hstep
  cases haligned with
  | left => cases hstep
  | @run b rest rest' st hb heffects hwell hwell' hexit =>
      rcases blockStep_cases hwell hstep with ⟨i, is, rfl, rfl, rfl⟩ | ⟨i, is, rfl, hi, rfl, rfl, hsame⟩ |
        ⟨hnone, rfl, rfl⟩
      · rcases @run_to_effect ι S M f' b rest' st i (effects is) hwell' heffects with
          ⟨events, rest'', hrun, hshows, htail, hwell'', hexit''⟩
        refine ⟨events, _, hrun, hshows, .run hb htail (terminatorsLast_tail hwell) hwell'' ?_⟩
        intro st' _
        have hexit' := hexit st' (by simp)
        rw [hexit'']
        exact hexit'
      · refine ⟨[], _, .nil, rfl, .run hb ?_ (terminatorsLast_tail hwell) hwell' ?_⟩
        · rw [heffects, effects_skip hi]
        · intro st' hst
          rw [hsame st' hst]
          exact hexit st' (by rwa [effects_skip hi])
      · obtain ⟨hfrom, hfrom'⟩ := hexit st fun _ => rfl
        obtain ⟨_, _, hsame⟩ := h.spec (M := M) hb
        rcases @run_to_exit ι S M f' b rest' st (heffects.trans hnone) with
          ⟨events, hrun, hshows⟩
        rw [hfrom', hsame] at hrun hshows
        rw [hfrom]
        refine ⟨events, _, hrun, hshows, ?_⟩
        cases hx : exitFrom M f b (f.block b) st with
        | block dst => exact h.aligned (h.inside.closed b hb _ dst hx) st
        | indirect r => exact .left
        | ret => exact .left
        | fallOff => exact .left

/-- A function printed behind its new layout runs as it did in the old one: from its first
line on the text executes the same instructions in the same order, and leaves where the
function leaves, in the same state. -/
theorem relaid_printed_preserves (h : Relaid f f') (hnodup : f'.layout.Nodup)
    (hasm : Assembles (printFunction f')) {entry : BlockId} {others : List BlockId}
    (hentry : f'.layout = entry :: others) (hmem : entry ∈ f.layout) {st : S}
    {events : List (Event ι)} {c : BlockConfig ι S}
    (hrun : Run (BlockStep M f) (.run entry (f.block entry) st) events c) :
    ∃ events' c', Run (TextStep M (printFunction f')) (.run (printFunction f') st) events' c' ∧
      events'.filter Event.visible = events.filter Event.visible ∧
      ∀ e st', c = .left e st' → c' = .left e st' := by
  rcases (relaid_simulates h).run (h.aligned hmem st) hrun with ⟨mid, d, hmid, hmatch, haligned⟩
  rcases run_printFunction (M := M) hentry st with ⟨first, t, hfirst, hnone, hrel⟩
  rcases (printed_simulates hnodup hasm).run hrel hmid with ⟨rest, c', hrest, hmatch', hrel'⟩
  refine ⟨first ++ rest, c', hfirst.append hrest, ?_, ?_⟩
  · rw [List.filter_append, hnone, List.nil_append, matches_shows hmatch', matches_shows hmatch]
  · rintro e st' rfl
    cases haligned
    cases hrel'
    rfl

end

/-! ## A block moved behind the others -/

def diamond : MachineFunction Unit where
  layout := [0, 1, 2]
  block := Branch.diamond
  preds := fun b => if b = 1 then [0] else if b = 2 then [0, 1] else []
  isLandingPad := fun _ => false

def movedDiamond : MachineFunction Unit where
  layout := [0, 2, 1]
  block := fun b =>
    if b = 0 then [.JCCi 2 .COND_EQ, .JMPi 1] else if b = 1 then [.JMPi 2] else [.RET]
  preds := diamond.preds
  isLandingPad := fun _ => false

theorem relaid_diamond : Relaid diamond movedDiamond where
  inside := Branch.diamond_inside
  movable := Branch.diamond_movable
  blocks := by
    intro b hb
    obtain ⟨h0, h1, h2⟩ := Branch.relay_diamond
    simp only [diamond, List.mem_cons, List.not_mem_nil, or_false] at hb
    rcases hb with rfl | rfl | rfl
    · exact h0
    · exact h1
    · exact h2

theorem printFunction_movedDiamond : printFunction movedDiamond =
    [.inst (.JCCi 2 .COND_EQ), .inst (.JMPi 1), .label 2, .inst .RET, .label 1, .inst (.JMPi 2)] := by
  decide

theorem assembles_movedDiamond : Assembles (printFunction movedDiamond) := by
  rw [printFunction_movedDiamond]
  intro i hi b htarget
  simp only [List.mem_cons, reduceCtorEq, Line.inst.injEq, List.not_mem_nil, false_or, or_false] at hi
  rcases hi with rfl | rfl | rfl | rfl
  · cases htarget
    decide
  · cases htarget
    decide
  · cases htarget
  · cases htarget
    decide

/-- With the condition false, the text passes the moved block on its way to the return. -/
theorem relaid_printed_preserves_diamond :
    ∃ events' c', Run (TextStep (⟨fun _ n => n, fun _ _ => false⟩ : Machine Unit Nat)
        (printFunction movedDiamond)) (.run (printFunction movedDiamond) 5) events' c' ∧
      events'.filter Event.visible = [.leave .ret] ∧ c' = .left .ret 5 := by
  have hrun : Run (BlockStep (⟨fun _ n => n, fun _ _ => false⟩ : Machine Unit Nat) diamond)
      (.run 0 (diamond.block 0) 5) _ (.left .ret 5) :=
    .cons (.notTaken rfl) (.cons (.next rfl) (.cons .JMPi (.single .RET)))
  obtain ⟨events', c', hrun', hevents, hleft⟩ := relaid_printed_preserves relaid_diamond
    (by decide) assembles_movedDiamond rfl (by decide) hrun
  exact ⟨events', c', hrun', hevents, hleft _ _ rfl⟩

/-! ## The labels of the text -/

/-- The block is understood as a conditional branch that goes to `b` either way. -/
structure SameWays (next : Option BlockId) (block : List (Inst ι)) (b : BlockId) : Prop where
  understood : (analyzeBranch next true block).failed = false
  conditional : (analyzeBranch next true block).Cond ≠ []
  taken : (analyzeBranch next true block).TBB = some b
  notTaken : otherwise next (analyzeBranch next true block) = some b

/-- A block the analysis does not understand ends in a branch control cannot run past. -/
def FailsAtBarrier (next : Option BlockId) (block : List (Inst ι)) : Prop :=
  (analyzeBranch next true block).failed = true →
    (lastTerminator (analyzeBranch next true block).block).any isBarrier = true

theorem lastTerminator_append_cons {B : List (Inst ι)} {i : Inst ι} (hi : i.isTerminator = true) :
    lastTerminator (B ++ [i]) = some i := by
  unfold lastTerminator
  rw [List.reverse_append, List.reverse_singleton, List.singleton_append, List.find?_cons_of_pos hi]

theorem lastTerminator_of_none {B : List (Inst ι)} (hB : ∀ i ∈ B, i.isTerminator = false) :
    lastTerminator B = none := by
  unfold lastTerminator
  rw [List.find?_eq_none]
  intro i hi
  simp [hB i (List.mem_reverse.mp hi)]

theorem not_branchesTo_of_not_terminator {B : List (Inst ι)} (hB : ∀ i ∈ B, i.isTerminator = false)
    {i : Inst ι} (hi : i ∈ B) {b : BlockId} (htarget : target i = some b) : False := by
  have hterminator := isTerminator_of_target htarget
  rw [hB i hi] at hterminator
  cases hterminator

section
variable {f f' : MachineFunction ι}

/-- In front of `b` the label of `b` is lost: the block branches there or to another place, and
ends in a branch control can run past. -/
def Loses (block : List (Inst ι)) (b : BlockId) : Prop :=
  ∃ t, lastTerminator block = some t ∧ isBarrier t = false ∧
    (BranchesTo block b ∨ ∃ i ∈ block, isBarrier i = true)

theorem not_loses_of_last {block : List (Inst ι)} {i : Inst ι}
    (hlast : lastTerminator block = some i) (hi : isBarrier i = true) (b : BlockId) :
    ¬ Loses block b := by
  rintro ⟨t, ht, hbarrier, _⟩
  rw [hlast, Option.some.injEq] at ht
  rw [← ht, hi] at hbarrier
  cases hbarrier

theorem loses_conditional_iff {B : List (Inst ι)} (hB : ∀ i ∈ B, i.isTerminator = false)
    (T : BlockId) (cc : CondCodes) (b : BlockId) : Loses (B ++ [.JCCi T cc]) b ↔ T = b := by
  constructor
  · rintro ⟨t, _, _, hbranch | ⟨i, hi, hbarrier⟩⟩
    · rcases hbranch with ⟨i, hi, htarget⟩
      rcases List.mem_append.mp hi with hi | hi
      · exact (not_branchesTo_of_not_terminator hB hi htarget).elim
      · rw [List.mem_singleton.mp hi] at htarget
        exact Option.some.inj htarget
    · rcases List.mem_append.mp hi with hi | hi
      · rw [isBarrier_of_not_terminator (hB i hi)] at hbarrier
        cases hbarrier
      · rw [List.mem_singleton.mp hi] at hbarrier
        cases hbarrier
  · rintro rfl
    exact ⟨_, lastTerminator_append_cons rfl, rfl, .inl ⟨.JCCi T cc, by simp, rfl⟩⟩

/-- A rebuilt block loses the label of the block behind it exactly when it was a conditional
branch that goes there either way. -/
theorem Relaid.loses_iff (h : Relaid f f') {P b : BlockId} (hP : P ∈ f.layout)
    (hbarrier : FailsAtBarrier (layoutSucc f.layout P) (f.block P))
    (hsucc : layoutSucc f'.layout P = some b) :
    Loses (f'.block P) b ↔ SameWays (layoutSucc f.layout P) (f.block P) b := by
  have hwell := h.inside.wellFormed P hP
  have hinside := h.inside.noFallOff P hP
  have hrelay := h.blocks P hP
  rw [hsucc] at hrelay
  cases hfail : (analyzeBranch (layoutSucc f.layout P) true (f.block P)).failed with
  | true =>
      have hlast := hbarrier hfail
      unfold relay at hrelay
      simp only [hfail, ↓reduceIte, Option.some.injEq] at hrelay
      rw [hrelay] at hlast
      rcases Option.any_eq_true_iff_get _ _ |>.mp hlast with ⟨hsome, hget⟩
      constructor
      · intro hloses
        exact absurd hloses (not_loses_of_last (Option.some_get hsome).symm hget b)
      · intro hsame
        rw [hsame.understood] at hfail
        cases hfail
  | false =>
      obtain ⟨B, hB, hends⟩ := Branch.relay_ends hwell hinside hrelay hfail
      generalize f'.block P = block' at hends
      cases hends with
      | jump T hCond =>
          have hnot : ¬ Loses (B ++ if some b = some T then [] else [.JMPi T]) b := by
            by_cases hT : some b = some T
            · rw [if_pos hT, List.append_nil]
              rintro ⟨t, hlast, _⟩
              rw [lastTerminator_of_none hB] at hlast
              cases hlast
            · rw [if_neg hT]
              exact not_loses_of_last (lastTerminator_append_cons rfl) rfl b
          exact iff_of_false hnot fun hsame => hsame.conditional hCond
      | conditional cc T F hCond hTBB hFBB =>
          by_cases hF : some b = some F
          · rw [if_pos hF, loses_conditional_iff hB]
            constructor
            · rintro rfl
              exact ⟨hfail, by simp [hCond], hTBB, hFBB.trans hF.symm⟩
            · intro hsame
              rw [hsame.taken, Option.some.injEq] at hTBB
              exact hTBB.symm
          · have hnot : ¬ Loses (B ++ .JCCi T cc :: if some b = some F then [] else [.JMPi F]) b := by
              rw [if_neg hF, ← List.singleton_append, ← List.append_assoc]
              exact not_loses_of_last (lastTerminator_append_cons rfl) rfl b
            exact iff_of_false hnot fun hsame => hF (hsame.notTaken.symm.trans hFBB)

theorem Relaid.branchesTo (h : Relaid f f') {P b : BlockId} (hP : P ∈ f.layout)
    (hways : SameWays (layoutSucc f.layout P) (f.block P) b) : BranchesTo (f'.block P) b := by
  obtain ⟨B, _, hends⟩ := Branch.relay_ends (h.inside.wellFormed P hP) (h.inside.noFallOff P hP)
    (h.blocks P hP) hways.understood
  generalize f'.block P = block' at hends
  cases hends with
  | jump T hCond => exact absurd hCond hways.conditional
  | conditional cc T F hCond hTBB hFBB =>
      rw [hways.taken] at hTBB
      exact ⟨.JCCi T cc, by simp, hTBB.symm⟩

/-- The text of a function laid out anew can be assembled unless a conditional branch goes
either way to a block that follows it now and has no other predecessor. -/
theorem relaid_assembles_iff (h : Relaid f f') (hf : Consistent f')
    (hsame : ∀ b, b ∈ f'.layout ↔ b ∈ f.layout)
    (hclosed : ∀ P ∈ f'.layout, ∀ b, BranchesTo (f'.block P) b → b ∈ f'.layout)
    (hbarrier : ∀ P ∈ f.layout, FailsAtBarrier (layoutSucc f.layout P) (f.block P)) :
    Assembles (printFunction f') ↔
      ∀ P ∈ f.layout, ∀ b, layoutSucc f'.layout P = some b → f'.preds b = [P] →
        f'.isLandingPad b = false → ¬ SameWays (layoutSucc f.layout P) (f.block P) b := by
  rw [assembles_iff_hasLabel]
  constructor
  · intro hall P hP b hsucc hpreds hpad hways
    obtain ⟨t, hlast, hnot, hbad⟩ := (h.loses_iff hP (hbarrier P hP) hsucc).mpr hways
    have hbranch := h.branchesTo hP hways
    have hlabel := (hall P ((hsame P).mpr hP) b hbranch).2
    exact (hasLabel_of_branch hf ((hsame P).mpr hP) hbranch).mp hlabel
      ⟨hpad, P, t, hpreds, hsucc, hlast, hnot, hbad⟩
  · intro hnone P hP b hbranch
    refine ⟨hclosed P hP b hbranch, (hasLabel_of_branch hf hP hbranch).mpr ?_⟩
    rintro ⟨hpad, Pred, t, hpreds, hsucc, hlast, hnot, hbad⟩
    have hPred : Pred ∈ f.layout := (hsame Pred).mp (hf.pred b Pred (by simp [hpreds])).1
    exact hnone Pred hPred b hsucc hpreds hpad
      ((h.loses_iff hPred (hbarrier Pred hPred) hsucc).mp ⟨t, hlast, hnot, hbad⟩)

end

/-! ## A branch to one block either way -/

/-- The block that returns lies in front of the one that goes to it either way. -/
def returnInFront : MachineFunction Unit :=
  { twoBlocks [.JCCi 1 .COND_EQ, .JMPi 1] with layout := [1, 0] }

theorem analyzeBranch_bothWays :
    analyzeBranch none true [(.JCCi 1 .COND_EQ : Inst Unit), .JMPi 1] =
      ⟨[.JCCi 1 .COND_EQ, .JMPi 1], some 1, some 1, [.COND_EQ], false⟩ :=
  (Branch.scan_again rfl).trans ((Branch.scan_again rfl).trans (Branch.scan_done rfl))

theorem analyzeBranch_return (next : Option BlockId) :
    analyzeBranch next true [(.RET : Inst Unit)] = ⟨[.RET], none, none, [], true⟩ :=
  Branch.scan_done rfl

theorem transfer_bothWays (holds : CondCodes → Bool) (next : Option BlockId) :
    transfer holds next [(.JCCi 1 .COND_EQ : Inst Unit), .JMPi 1] = .block 1 := by
  show (if holds .COND_EQ then Exit.block 1 else .block 1) = _
  exact ite_self _

theorem inside_returnInFront : Inside returnInFront.layout returnInFront.block where
  wellFormed := by
    intro b hb
    apply Branch.terminatorsLast_of_branches
    simp only [returnInFront, List.mem_cons, List.not_mem_nil, or_false] at hb
    rcases hb with rfl | rfl <;> decide
  closed := by
    intro b hb holds c h
    simp only [returnInFront, List.mem_cons, List.not_mem_nil, or_false] at hb
    rcases hb with rfl | rfl
    · cases h
    · have h' := (transfer_bothWays holds none).symm.trans h
      cases h'
      decide
  noFallOff := by
    intro b hb holds h
    simp only [returnInFront, List.mem_cons, List.not_mem_nil, or_false] at hb
    rcases hb with rfl | rfl
    · cases h
    · cases (transfer_bothWays holds none).symm.trans h

/-- With the return behind it, the block no longer needs its jump. -/
theorem relaid_returnInFront : Relaid returnInFront (twoBlocks [.JCCi 1 .COND_EQ]) where
  inside := inside_returnInFront
  movable := by
    intro b hb hfailed
    simp only [returnInFront, List.mem_cons, List.not_mem_nil, or_false] at hb
    rcases hb with rfl | rfl
    · refine .inr ?_
      have hblock : (analyzeBranch (some 0) true [(.RET : Inst Unit)]).block = [.RET] := by
        rw [analyzeBranch_return]
      intro holds next next'
      exact hblock ▸ rfl
    · have hfailed' : (analyzeBranch none true [(.JCCi 1 .COND_EQ : Inst Unit), .JMPi 1]).failed =
        true := hfailed
      rw [analyzeBranch_bothWays] at hfailed'
      cases hfailed'
  blocks := by
    intro b hb
    simp only [returnInFront, List.mem_cons, List.not_mem_nil, or_false] at hb
    rcases hb with rfl | rfl
    · show relay (some 0) none [.RET] = some [.RET]
      unfold relay
      simp only [analyzeBranch_return]
      rfl
    · show relay none (some 1) [.JCCi 1 .COND_EQ, .JMPi 1] = some [.JCCi 1 .COND_EQ]
      have hremove : Branch.removeBranch [(.JCCi 1 .COND_EQ : Inst Unit), .JMPi 1] = ([], 2) := by
        rw [Branch.removeBranch_eq]
        rfl
      have hjump := @Branch.analyzeBranch_jump_block Unit (some 1) [.JCCi 1 .COND_EQ] (by simp) 1
      unfold relay
      simp only [analyzeBranch_bothWays, hremove]
      exact congrArg some hjump

theorem relaid_assembles_conditional :
    Relaid returnInFront (twoBlocks [.JCCi 1 .COND_EQ]) ∧
      ¬ Assembles (printFunction (twoBlocks [.JCCi 1 .COND_EQ])) := by
  have hbarrier : ∀ P ∈ returnInFront.layout,
      FailsAtBarrier (layoutSucc returnInFront.layout P) (returnInFront.block P) := by
    intro P hP
    simp only [returnInFront, List.mem_cons, List.not_mem_nil, or_false] at hP
    rcases hP with rfl | rfl
    · show FailsAtBarrier (some 0) [.RET]
      unfold FailsAtBarrier
      rw [analyzeBranch_return]
      decide
    · show FailsAtBarrier none [.JCCi 1 .COND_EQ, .JMPi 1]
      unfold FailsAtBarrier
      simp [analyzeBranch_bothWays]
  have hways : SameWays none [(.JCCi 1 .COND_EQ : Inst Unit), .JMPi 1] 1 :=
    ⟨by rw [analyzeBranch_bothWays], by simp [analyzeBranch_bothWays],
      by rw [analyzeBranch_bothWays], by rw [analyzeBranch_bothWays]; rfl⟩
  have hsame : ∀ b, b ∈ (twoBlocks [.JCCi 1 .COND_EQ]).layout ↔ b ∈ returnInFront.layout := by
    intro b
    simp only [twoBlocks, returnInFront, List.mem_cons, List.not_mem_nil, or_false]
    exact or_comm
  refine ⟨relaid_returnInFront, ?_⟩
  rw [relaid_assembles_iff relaid_returnInFront consistent_conditional hsame closed_conditional
    hbarrier]
  intro hnone
  exact hnone 0 (by decide) 1 rfl rfl rfl hways

end Mandarin.Print
