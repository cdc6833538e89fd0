import Mandarin.Select.Pseudos

/-! # Expanding selects preserves execution

Behind one expansion control is in the same place as before, or in the sink if it
is behind the select. The select is matched by entering the sink, past the copy
block if the condition does not hold. Any number of expansions composes.
-/

namespace Mandarin.Select

open Branch (BlockId CondCodes Exit fallThrough)
open Simulation

variable {ι φ μ : Type} {T : Target ι φ μ} {f g : MachineFunction ι} {BB : BlockId}
  {kind : SelectKind} {dst t e : Register} {CC : CondCodes} {pre post : List (Inst ι)}

/-! ## Corresponding configurations and events -/

/-- Where control is when the select `mid` of `BB` is expanded and `post` follows it. -/
inductive Related (f : MachineFunction ι) (BB : BlockId) (mid : Inst ι) (post : List (Inst ι)) :
    Config ι φ μ → Config ι φ μ → Prop where
  | other {b : BlockId} {rest : List (Inst ι)} {st : State φ μ} (hb : b ∈ f.layout) (hne : b ≠ BB) :
      Related f BB mid post (.run b rest st) (.run b rest st)
  | before {rest : List (Inst ι)} {st : State φ μ} :
      Related f BB mid post (.run BB (rest ++ mid :: post) st) (.run BB rest st)
  | behind {rest : List (Inst ι)} {st : State φ μ} :
      Related f BB mid post (.run BB rest st) (.run (f.nextBlockNum + 1) rest st)
  | returned {st : State φ μ} : Related f BB mid post (.returned st) (.returned st)

/-- A select of a register that is not `pending` becomes the entry of a block with a
number from `n` on whose PHI gives the register the value, perhaps past an empty block.
Every other event stays. -/
inductive EventMatch (n : BlockId) (pending : Register → Prop) : Event ι → List (Event ι) → Prop where
  | same {event : Event ι} (h : event.Pending pending) : EventMatch n pending event [event]
  | taken {dst : Register} {v : Word} {sinkMBB : BlockId} (hsink : n ≤ sinkMBB) :
      EventMatch n pending (.select dst v) [.enter sinkMBB [(dst, v)]]
  | copied {dst : Register} {v : Word} {copy0MBB sinkMBB : BlockId} (hcopy : n ≤ copy0MBB)
      (hsink : n ≤ sinkMBB) :
      EventMatch n pending (.select dst v) [.enter copy0MBB [], .enter sinkMBB [(dst, v)]]

/-- As long as it is open which pseudos are expanded, every register may be pending. -/
abbrev AnyMatch (n : BlockId) : Event ι → List (Event ι) → Prop := EventMatch n fun _ => True

theorem AnyMatch.self (n : BlockId) (event : Event ι) : AnyMatch n event [event] := by
  apply EventMatch.same
  cases event <;> trivial

theorem AnyMatch.mono {n n' : BlockId} (hle : n ≤ n') {event : Event ι} {events : List (Event ι)}
    (h : AnyMatch n' event events) : AnyMatch n event events := by
  cases h with
  | same h => exact .same h
  | taken hsink => exact .taken (Nat.le_trans hle hsink)
  | copied hcopy hsink => exact .copied (Nat.le_trans hle hcopy) (Nat.le_trans hle hsink)

theorem AnyMatch.enter_inv {n : BlockId} {b : BlockId} {values : List (Register × Word)}
    {events : List (Event ι)} (h : AnyMatch n (.enter b values) events) :
    events = [.enter b values] := by
  cases h
  rfl

theorem AnyMatch.comp {n n' : BlockId} (hle : n ≤ n') {event : Event ι}
    {events events' : List (Event ι)} (h : AnyMatch n event events)
    (h' : Matches (AnyMatch n') events events') : AnyMatch n event events' := by
  cases h with
  | same => exact h'.single_inv.mono hle
  | taken hsink =>
      rw [h'.single_inv.enter_inv]
      exact .taken hsink
  | copied hcopy hsink =>
      rcases h'.cons_inv with ⟨first, rest, rfl, hfirst, hrest⟩
      rw [hfirst.enter_inv, hrest.single_inv.enter_inv]
      exact .copied hcopy hsink

/-- What is still selected tells which selects stayed. -/
theorem AnyMatch.restrict {n : BlockId} {pending : Register → Prop} {event : Event ι}
    {events : List (Event ι)} (h : AnyMatch n event events)
    (hpending : ∀ e ∈ events, e.Pending pending) : EventMatch n pending event events := by
  cases h with
  | same => exact .same (hpending event List.mem_cons_self)
  | taken hsink => exact .taken hsink
  | copied hcopy hsink => exact .copied hcopy hsink

/-! ## One expansion -/

section
variable (hf : WellFormed f) (h : Expansion f g BB kind dst t e CC pre post)
include h

theorem Expansion.related_start {b : BlockId} (hb : b ∈ f.layout)
    (hfresh : ∀ b ∈ f.layout, b < f.nextBlockNum) (st : State φ μ) :
    Related f BB (.selectCC kind dst t e CC) post (.start f b st) (.start g b st) := by
  unfold Config.start
  by_cases hBB : b = BB
  · rw [hBB, h.body, h.thisMBB]
    exact .before
  · rw [h.other b hBB (hfresh b hb)]
    exact .other hb hBB

include hf

/-- Entering a block of `f` is entering it in `g`, from the block that now ends the
code of the one control comes from. -/
theorem Expansion.enter {b c b' : BlockId} {st : State φ μ} {values : List (Register × Word)}
    (hfrom : (b ∈ f.layout ∧ b ≠ BB ∧ c = b) ∨ (b = BB ∧ c = f.nextBlockNum + 1))
    (hexit : exit T f b st = .block b') (hsucc : b' ∈ (f.block b).successors)
    (hphis : phiValues b st.regs (f.block b').phis = some values) :
    Step T g (.run c [] st) (.enter b' values) (.start g b' (st.setAll values)) ∧
      Related f BB (.selectCC kind dst t e CC) post (.start f b' (st.setAll values))
        (.start g b' (st.setAll values)) := by
  rcases hfrom with ⟨hb, hne, rfl⟩ | ⟨rfl, rfl⟩
  · have hb' := hf.closed c hb b' hsucc
    have hsucc' : b' ∈ (g.block c).successors := by rwa [h.other c hne (hf.fresh c hb)]
    rw [← h.exit_other hf hb hne] at hexit
    rw [← h.phiValues_other hf hb hne hb'] at hphis
    exact ⟨.enter hexit hsucc' hphis, h.related_start hb' hf.fresh _⟩
  · have hsucc' : b' ∈ (g.block (f.nextBlockNum + 1)).successors := by rwa [h.sinkMBB]
    rw [← h.exit_sinkMBB hf] at hexit
    rw [← h.phiValues_sinkMBB hf hsucc] at hphis
    exact ⟨.enter hexit hsucc' hphis, h.related_start (hf.closed b h.mem b' hsucc) hf.fresh _⟩

/-- The PHI of the sink tells the jump from the fall-through. -/
theorem Expansion.phiValues_sink (regs : Register → Word) :
    phiValues BB regs (g.block (f.nextBlockNum + 1)).phis = some [(dst, regs t)] ∧
    phiValues f.nextBlockNum regs (g.block (f.nextBlockNum + 1)).phis = some [(dst, regs e)] := by
  have hne : f.nextBlockNum ≠ BB := Nat.ne_of_gt (hf.fresh BB h.mem)
  rw [h.sinkMBB]
  constructor
  · simp [phiValues, Phi.value, hne]
  · simp [phiValues, Phi.value]

/-- The select: from the end of the expanded block to the front of the sink. -/
theorem Expansion.run_select (st : State φ μ) :
    ∃ events, Run (Step T g) (.run BB [] st) events
        (.run (f.nextBlockNum + 1) post (st.setReg dst (selected T st t e CC))) ∧
      AnyMatch f.nextBlockNum (.select dst (selected T st t e CC)) events := by
  have hexit : exit T g BB st = _ := h.exit_thisMBB st
  have hphis := h.phiValues_sink hf st.regs
  have hbody : (g.block (f.nextBlockNum + 1)).body = post := by rw [h.sinkMBB]
  unfold selected
  by_cases hcc : T.holds CC st.flag = true
  · rw [if_pos hcc] at hexit
    have hsink := Step.enter hexit (by simp [h.thisMBB]) hphis.1
    rw [hbody] at hsink
    rw [if_pos hcc]
    exact ⟨_, .single hsink, .taken (Nat.le_succ _)⟩
  · rw [if_neg hcc] at hexit
    have hcopy : Step T g (.run BB [] st) (.enter f.nextBlockNum []) (.run f.nextBlockNum [] st) := by
      have henter := @Step.enter _ _ _ T g BB f.nextBlockNum st [] hexit (by simp [h.thisMBB])
        (by rw [h.copy0MBB]; rfl)
      rw [h.copy0MBB] at henter
      exact henter
    have hexit' : exit T g f.nextBlockNum st = _ := h.exit_copy0MBB hf st
    have hsink := Step.enter hexit' (by simp [h.copy0MBB]) hphis.2
    rw [hbody] at hsink
    rw [if_neg hcc]
    exact ⟨_, .cons hcopy (.single hsink), .copied (Nat.le_refl _) (Nat.le_succ _)⟩

theorem Expansion.simulates : Simulates (Step T f) (Step T g)
    (Related f BB (.selectCC kind dst t e CC) post) (AnyMatch f.nextBlockNum) := by
  intro c c' event d hrel hstep
  have hsame : AnyMatch f.nextBlockNum event [event] := .self _ event
  cases hrel with
  | other hb hne =>
      cases hstep with
      | op hi => exact ⟨_, _, .single (.op hi), hsame, .other hb hne⟩
      | select => exact ⟨_, _, .single .select, hsame, .other hb hne⟩
      | enter hexit hsucc hphis =>
          have henter := h.enter hf (.inl ⟨hb, hne, rfl⟩) hexit hsucc hphis
          exact ⟨_, _, .single henter.1, hsame, henter.2⟩
      | ret hexit =>
          rw [← h.exit_other hf hb hne] at hexit
          exact ⟨_, _, .single (.ret hexit), hsame, .returned⟩
  | @before rest st =>
      cases rest with
      | nil =>
          cases hstep with
          | select =>
              rcases h.run_select hf st with ⟨events, hrun, hmatch⟩
              exact ⟨events, _, hrun, hmatch, .behind⟩
      | cons i rest =>
          cases hstep with
          | op hi => exact ⟨_, _, .single (.op hi), hsame, .before⟩
          | select => exact ⟨_, _, .single .select, hsame, .before⟩
  | behind =>
      cases hstep with
      | op hi => exact ⟨_, _, .single (.op hi), hsame, .behind⟩
      | select => exact ⟨_, _, .single .select, hsame, .behind⟩
      | enter hexit hsucc hphis =>
          have henter := h.enter hf (.inr ⟨rfl, rfl⟩) hexit hsucc hphis
          exact ⟨_, _, .single henter.1, hsame, henter.2⟩
      | ret hexit =>
          rw [← h.exit_sinkMBB hf] at hexit
          exact ⟨_, _, .single (.ret hexit), hsame, .returned⟩
  | returned => cases hstep

end

/-! ## Any number of expansions -/

/-- `g` is `f` after `k` expansions, one after another. -/
inductive ExpandedIn (f : MachineFunction ι) : Nat → MachineFunction ι → Prop where
  | refl : ExpandedIn f 0 f
  | emit {k : Nat} {g g' : MachineFunction ι} {BB sinkMBB : BlockId} {MI : Nat}
      (prior : ExpandedIn f k g) (hBB : BB ∈ g.layout)
      (hemit : EmitInstrWithCustomInserter g BB MI = some (g', sinkMBB)) : ExpandedIn f (k + 1) g'

def Expanded (f g : MachineFunction ι) : Prop := ∃ k, ExpandedIn f k g

/-- `g` runs as `f` does; `tail b` is the block that now ends the code of `b`. -/
structure Preserves (T : Target ι φ μ) (f g : MachineFunction ι)
    (R : Config ι φ μ → Config ι φ μ → Prop) (tail : BlockId → BlockId) : Prop where
  simulates : Simulates (Step T f) (Step T g) R (AnyMatch f.nextBlockNum)
  start : ∀ b ∈ f.layout, ∀ st, R (.start f b st) (.start g b st)
  state : ∀ c c', R c c' → c'.state = c.state
  atEnd : ∀ b st c', R (.run b [] st) c' → c' = .run (tail b) [] st
  mem : ∀ b ∈ f.layout, b ∈ g.layout
  tail_mem : ∀ b ∈ f.layout, tail b ∈ g.layout
  fallThrough : ∀ b ∈ f.layout, layoutSucc g.layout (tail b) = layoutSucc f.layout b
  nextBlockNum : f.nextBlockNum ≤ g.nextBlockNum

theorem Preserves.refl (T : Target ι φ μ) (f : MachineFunction ι) : Preserves T f f Eq id where
  simulates := .refl fun event => .self _ event
  start := fun _ _ _ => rfl
  state := fun _ _ h => h ▸ rfl
  atEnd := fun _ _ _ h => h.symm
  mem := fun _ h => h
  tail_mem := fun _ h => h
  fallThrough := fun _ _ => rfl
  nextBlockNum := Nat.le_refl _

theorem Preserves.trans {g' : MachineFunction ι} {R R' : Config ι φ μ → Config ι φ μ → Prop}
    {tail tail' : BlockId → BlockId} (h : Preserves T f g R tail) (h' : Preserves T g g' R' tail') :
    Preserves T f g' (Relation.Comp R R') (tail' ∘ tail) where
  simulates := by
    apply (h.simulates.comp h'.simulates).mono
    rintro event events' ⟨events, hevents, hmatch⟩
    exact hevents.comp h.nextBlockNum hmatch
  start := fun b hb st => ⟨_, h.start b hb st, h'.start b (h.mem b hb) st⟩
  state := by
    rintro c c'' ⟨c', hc, hc'⟩
    rw [h'.state c' c'' hc', h.state c c' hc]
  atEnd := by
    rintro b st c'' ⟨c', hc, hc'⟩
    rw [h.atEnd b st c' hc] at hc'
    exact h'.atEnd (tail b) st c'' hc'
  mem := fun b hb => h'.mem b (h.mem b hb)
  tail_mem := fun b hb => h'.tail_mem _ (h.tail_mem b hb)
  fallThrough := by
    intro b hb
    rw [Function.comp_apply, h'.fallThrough _ (h.tail_mem b hb), h.fallThrough b hb]
  nextBlockNum := Nat.le_trans h.nextBlockNum h'.nextBlockNum

theorem Expansion.preserves (hf : WellFormed f) (h : Expansion f g BB kind dst t e CC pre post) :
    Preserves T f g (Related f BB (.selectCC kind dst t e CC) post)
      (fun b => if b = BB then f.nextBlockNum + 1 else b) where
  simulates := h.simulates hf
  start := fun b hb st => h.related_start hb hf.fresh st
  state := by
    intro c c' hrel
    cases hrel <;> rfl
  atEnd := by
    intro b st c' hrel
    generalize hc : Config.run b [] st = c at hrel
    cases hrel with
    | other hb hne =>
        cases hc
        rw [if_neg hne]
    | before =>
        injection hc with _ hnil
        exact absurd hnil.symm (List.append_ne_nil_of_right_ne_nil _ (List.cons_ne_nil _ _))
    | behind =>
        cases hc
        rw [if_pos rfl]
    | returned => cases hc
  mem := fun b hb => (h.mem_layout b).mpr (.inl hb)
  tail_mem := by
    intro b hb
    by_cases hBB : b = BB
    · rw [if_pos hBB]
      exact (h.mem_layout _).mpr (.inr (.inr rfl))
    · rw [if_neg hBB]
      exact (h.mem_layout b).mpr (.inl hb)
  fallThrough := by
    intro b hb
    by_cases hBB : b = BB
    · rw [if_pos hBB, hBB]
      exact h.layoutSucc_sinkMBB hf
    · rw [if_neg hBB]
      exact h.layoutSucc_other hf hb hBB
  nextBlockNum := by
    rw [h.nextBlockNum]
    exact Nat.le_add_right _ _

theorem WellFormed.expansion (hf : WellFormed f) (hBB : BB ∈ f.layout) {MI : Nat}
    {sinkMBB : BlockId} (h : EmitInstrWithCustomInserter f BB MI = some (g, sinkMBB)) :
    ∃ kind dst t e CC pre post, Expansion f g BB kind dst t e CC pre post := by
  have hsuccs : ∀ s ∈ (f.block BB).successors, s < f.nextBlockNum :=
    fun s hs => hf.fresh s (hf.closed BB hBB s hs)
  rcases (emit_expansion hBB hf.fresh hsuccs h).2 with ⟨kind, dst, t, e, CC, hexp⟩
  exact ⟨kind, dst, t, e, CC, _, _, hexp⟩

theorem ExpandedIn.wellFormed (hf : WellFormed f) {k : Nat} (h : ExpandedIn f k g) :
    WellFormed g := by
  induction h with
  | refl => exact hf
  | emit _ hBB hemit ih =>
      rcases ih.expansion hBB hemit with ⟨kind, dst, t, e, CC, pre, post, hexp⟩
      exact hexp.wellFormed ih

/-- Every expansion takes the register of one pseudo away. -/
theorem ExpandedIn.selectDsts (hf : WellFormed f) {k : Nat} (h : ExpandedIn f k g) :
    ∃ expanded : List Register, expanded.length = k ∧
      f.selectDsts.Perm (expanded ++ g.selectDsts) := by
  induction h with
  | refl => exact ⟨[], rfl, .refl _⟩
  | emit prior hBB hemit ih =>
      have hg := prior.wellFormed hf
      rcases hg.expansion hBB hemit with ⟨kind, dst, t, e, CC, pre, post, hexp⟩
      rcases ih with ⟨expanded, hlength, hperm⟩
      refine ⟨dst :: expanded, congrArg (· + 1) hlength, hperm.trans ?_⟩
      exact ((hexp.selectDsts hg).append_left expanded).trans List.perm_middle

theorem ExpandedIn.preserves (T : Target ι φ μ) (hf : WellFormed f) {k : Nat}
    (h : ExpandedIn f k g) : ∃ R tail, Preserves T f g R tail := by
  induction h with
  | refl => exact ⟨Eq, id, .refl T f⟩
  | emit prior hBB hemit ih =>
      have hg := prior.wellFormed hf
      rcases ih with ⟨R, tail, hpreserves⟩
      rcases hg.expansion hBB hemit with ⟨kind, dst, t, e, CC, pre, post, hexp⟩
      exact ⟨_, _, hpreserves.trans (hexp.preserves hg)⟩

/-- `k` expansions take `k` pseudos away, and every run of a well-formed function is
matched by a run of the expanded one: the same instructions with the same effects in
the same order, the same blocks entered with the same PHI values, and each select of
a pseudo that is gone by the entry of a sink whose PHI gives the register the same
value. Falling through leads where it led before. -/
theorem expansion_preserves (T : Target ι φ μ) (hf : WellFormed f) {k : Nat}
    (h : ExpandedIn f k g) :
    (∃ expanded : List Register, expanded.length = k ∧
      f.selectDsts.Perm (expanded ++ g.selectDsts)) ∧
    ∃ tail : BlockId → BlockId,
      (∀ b ∈ f.layout, layoutSucc g.layout (tail b) = layoutSucc f.layout b) ∧
      ∀ b ∈ f.layout, ∀ (st : State φ μ) (events : List (Event ι)) (c : Config ι φ μ),
        Run (Step T f) (.start f b st) events c →
        ∃ events' c', Run (Step T g) (.start g b st) events' c' ∧
          Matches (EventMatch f.nextBlockNum (· ∈ g.selectDsts)) events events' ∧
          c'.state = c.state ∧ ∀ b' st', c = .run b' [] st' → c' = .run (tail b') [] st' := by
  refine ⟨h.selectDsts hf, ?_⟩
  rcases h.preserves T hf with ⟨R, tail, hpreserves⟩
  refine ⟨tail, hpreserves.fallThrough, ?_⟩
  intro b hb st events c hrun
  rcases hpreserves.simulates.run (hpreserves.start b hb st) hrun with
    ⟨events', c', hrun', hmatch, hrel⟩
  have hpending := run_pending (h.wellFormed hf)
    (Config.pending_start (hpreserves.mem b hb) st) hrun'
  have hmatch' : Matches (EventMatch f.nextBlockNum (· ∈ g.selectDsts)) events events' :=
    (hmatch.and hpending).mono fun _ _ hany => hany.1.restrict hany.2
  refine ⟨events', c', hrun', hmatch', hpreserves.state c c' hrel, ?_⟩
  rintro b' st' rfl
  exact hpreserves.atEnd b' st' c' hrel

/-- A loop of one block with a PHI and a select. -/
def selfLoop : MachineFunction Unit where
  layout := [0, 1]
  block := fun b =>
    if b = 1 then
      { phis := [⟨.vreg 0, [(.vreg 2, 0), (.vreg 1, 1)]⟩]
        body := [.selectCC .SELECT_CC_Int (.vreg 1) (.vreg 0) (.vreg 3) .COND_EQ]
        terms := [.JMPi 1]
        successors := [1] }
    else ⟨[], [], [], [1]⟩
  nextBlockNum := 2

def flagTarget : Target Unit Bool Unit where
  exec := fun _ st st' => st' = st
  holds := fun _ flag => flag
  blockAt := fun address => address.toNat

theorem selfLoop_wellFormed : WellFormed selfLoop where
  nodup := by decide
  fresh := by decide
  closed := by decide
  incoming := by decide

/-- Registers of five, but seven in the one for a condition that does not hold. -/
def selfLoopState : State Bool Unit := ⟨fun r => if r = .vreg 3 then 7 else 5, false, ()⟩

theorem Run.enter_inv {b b' : BlockId} {st : State φ μ} {event : Event ι} {events : List (Event ι)}
    {c : Config ι φ μ} (hexit : exit T f b st = .block b')
    (h : Run (Step T f) (.run b [] st) (event :: events) c) : ∃ values, event = .enter b' values ∧
      phiValues b st.regs (f.block b').phis = some values ∧
      Run (Step T f) (.start f b' (st.setAll values)) events c := by
  cases h with
  | cons first rest =>
      cases first with
      | enter hexit' _ hphis =>
          rw [hexit, Exit.block.injEq] at hexit'
          subst hexit'
          exact ⟨_, rfl, hphis, rest⟩
      | ret hexit' =>
          rw [hexit] at hexit'
          cases hexit'

/-- One turn of the loop, the condition not holding: the copy block and then the sink
are entered, whose PHI gives the register the value of the select. -/
theorem expansion_preserves_selfLoop :
    ∃ g, EmitInstrWithCustomInserter selfLoop 1 0 = some (g, 3) ∧ g.selectDsts = [] ∧
      ∃ c', Run (Step flagTarget g) (.start g 1 selfLoopState)
        [.enter 2 [], .enter 3 [(.vreg 1, 7)], .enter 1 [(.vreg 0, 7)]] c' := by
  refine ⟨_, rfl, rfl, ?_⟩
  have hexpanded := @ExpandedIn.emit Unit selfLoop 0 selfLoop _ 1 3 0 .refl (by decide) rfl
  rcases expansion_preserves flagTarget selfLoop_wellFormed hexpanded with ⟨_, tail, _, hruns⟩
  have hrun := hruns 1 (by decide) selfLoopState [.select (.vreg 1) 7, .enter 1 [(.vreg 0, 7)]] _
    (.cons .select (.single (.enter rfl (by decide) rfl)))
  rcases hrun with ⟨events', c', hrun', hmatch, _⟩
  rcases hmatch.cons_inv with ⟨first, rest, rfl, hselect, hrest⟩
  have hlast : rest = [.enter 1 [(.vreg 0, 7)]] := by
    cases hrest.single_inv
    rfl
  subst hlast
  cases hselect with
  | same h => cases h
  | taken _ =>
      rcases Run.enter_inv rfl hrun' with ⟨values, hevent, hphis, _⟩
      cases hevent
      cases hphis
  | copied _ _ =>
      rcases Run.enter_inv rfl hrun' with ⟨values, hevent, _, hnext⟩
      cases hevent
      rcases Run.enter_inv rfl hnext with ⟨values, hevent, _, _⟩
      cases hevent
      exact ⟨c', hrun'⟩

end Mandarin.Select
