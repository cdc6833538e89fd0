import Mandarin.Isel.Selection
import Mandarin.Select.Progress

/-! # Selected functions

A run of a function is answered block by block: the code of the nodes, the comparison
of the end if it has one, and then the terminators, which go where the end goes. The
select pseudos that are left are expanded afterwards, so both simulations compose to
one of the function by code without pseudos.
-/

namespace Mandarin.Isel

open Memory Simulation
open Branch (BlockId CondCodes Exit fallThrough)
open Select (State Inst Phi Terminator Config Event Step AnyMatch Expanded ExpandedIn exit
  EmitInstrWithCustomInserter phiValues layoutSucc run_pending)

variable {σ : Type} {PIC : Bool} {W : World σ} {unordered : CondCodes → Bool}
  {blockAt : Word → BlockId} {base : Nat} {f : DagFunction σ}
  {g : Select.MachineFunction (MachInstr σ)}

/-! ## The end of a block -/

def leave (T : Select.Target (MachInstr σ) Outcome (Mem 32)) (terms : List Terminator)
    (next : Option BlockId) (mst : MachState) : Exit :=
  terms.foldr (fun t k => t.transfer T mst k) (fallThrough next)

/-- The comparison sets the flag so that the terminators go where the end goes. -/
theorem SelectEnd.answers {nodes : List (DagNode σ)} {s : Selection σ} {last : DagEnd}
    {tail : List (Inst (MachInstr σ))} {terms : List Terminator} {b : BlockId} {vals : Nat → Word}
    {st : DagState} {mst : MachState} {next : Option BlockId} {e : Exit}
    (hsel : SelectEnd nodes s last tail terms) (hops : ∀ a ∈ last.operands, a < nodes.length)
    (h : Behind W base nodes nodes.length s vals st mst) (hexit : last.Exits vals next e) :
    Answers W unordered blockAt g b tail mst fun mst' =>
      SameState base st mst' ∧ leave (target W unordered blockAt) terms next mst' = e := by
  rcases h with ⟨hsame, hholds⟩
  cases hsel with
  | RET_FLAG =>
      cases hexit
      exact answers_nil ⟨hsame, rfl⟩
  | BR =>
      cases hexit
      exact answers_nil ⟨hsame, rfl⟩
  | next =>
      cases hexit
      exact answers_nil ⟨hsame, rfl⟩
  | @BR_CC CC LHS RHS Dest other br cmp hlower hcmp =>
      cases hexit with
      | @BR_CC _ _ _ _ _ holds hmeaning =>
          have hL := hholds.sdValue (hops LHS (by simp [DagEnd.operands]))
          have hR := hholds.sdValue (hops RHS (by simp [DagEnd.operands]))
          have hexec := hholds.compares hcmp
          have htaken := lowerBR_CC_taken hlower unordered (env vals)
          rw [lowerBR_CC_eq] at hlower
          rcases Option.map_eq_some_iff.mp hlower with ⟨cc, hcc, hbr⟩
          have hDest : br.Dest = Dest := by rw [← hbr]
          have hTargetCC : br.TargetCC = cc := by rw [← hbr]
          -- the flag decides as the comparison of the end would
          have hflag : condHolds unordered br.TargetCC (br.Flag.outcome (env vals)) =
              holds (vals LHS) (vals RHS) := by
            refine htaken.trans ?_
            rw [hTargetCC, ← testedRelation_eq hcc hmeaning, ← condHolds_signedCompare unordered, ← hL,
              ← hR]
            rfl
          generalize br.Flag.outcome (env vals) = o at hexec hflag
          apply answers_op hexec
          refine ⟨⟨hsame.regs, hsame.mem⟩, ?_⟩
          show (if condHolds unordered br.TargetCC o then Exit.block br.Dest else
            leave (target W unordered blockAt) (other.map Terminator.JMPi).toList next _) = _
          rw [hflag, hDest]
          cases other with
          | none => rfl
          | some _ => rfl

theorem mem_of_fallThrough {n : Option BlockId} {b : BlockId} (h : fallThrough n = .block b) :
    b ∈ n.toList := by
  cases n with
  | none => cases h
  | some c =>
      cases h
      exact List.mem_singleton.mpr rfl

theorem DagEnd.Exits.mem_targets {vals : Nat → Word} {next : Option BlockId} {last : DagEnd}
    {b : BlockId} (h : last.Exits vals next (.block b)) : b ∈ last.targets next := by
  generalize he : Exit.block b = e at h
  cases h with
  | RET_FLAG => cases he
  | BR =>
      cases he
      exact List.mem_singleton.mpr rfl
  | next => exact mem_of_fallThrough he.symm
  | BR_CC _ =>
      split at he
      · cases he
        exact List.mem_cons_self
      · exact List.mem_cons_of_mem _ (mem_of_fallThrough he.symm)

/-! ## PHIs -/

theorem phiValues_congr {pred : BlockId} {regs regs' : Register → Word} {phis : List Phi}
    (h : ∀ phi ∈ phis, ∀ value ∈ phi.incoming, regs' value.1 = regs value.1) :
    phiValues pred regs' phis = phiValues pred regs phis := by
  have hvalue : ∀ phi ∈ phis, phi.value pred regs' = phi.value pred regs := by
    intro phi hphi
    unfold Phi.value
    cases hfind : phi.incoming.find? fun value => value.2 = pred with
    | none => rfl
    | some value => rw [Option.map_some, Option.map_some, h phi hphi value (List.mem_of_find?_eq_some hfind)]
  induction phis with
  | nil => rfl
  | cons phi phis ih =>
      have hrest := ih (fun p hp => h p (List.mem_cons_of_mem _ hp))
        fun p hp => hvalue p (List.mem_cons_of_mem _ hp)
      unfold phiValues at hrest ⊢
      rw [List.mapM_cons, List.mapM_cons, hrest, hvalue phi List.mem_cons_self]

/-! ## Corresponding configurations -/

/-- Between two nodes the machine has the code of the remaining ones to execute. -/
inductive Related (W : World σ) (PIC : Bool) (base : Nat) (f : DagFunction σ)
    (g : Select.MachineFunction (MachInstr σ)) :
    DagConfig → Config (MachInstr σ) Outcome (Mem 32) → Prop where
  | run {b : BlockId} {i : Nat} {vals : Nat → Word} {st : DagState} {mst : MachState}
      {s s' : Selection σ} {code tail : List (Inst (MachInstr σ))} (hb : b ∈ f.layout)
      (hnodes : SelectNodes PIC (f.block b).nodes i s code s')
      (hlast : SelectEnd (f.block b).nodes s' (f.block b).last tail (g.block b).terms)
      (h : Behind W base (f.block b).nodes i s vals st mst) :
      Related W PIC base f g (.run b i vals st) (.run b (code ++ tail) mst)
  | returned {st : DagState} {mst : MachState} (h : SameState base st mst) :
      Related W PIC base f g (.returned st) (.returned mst)

theorem Related.state {c : DagConfig} {c' : Config (MachInstr σ) Outcome (Mem 32)}
    (h : Related W PIC base f g c c') : SameState base c.state c'.state := by
  cases h with
  | run _ _ _ h => exact h.1
  | returned h => exact h

/-- A node becomes code, and the ways out of a block stay what they are, behind the
comparison they need; `P` says what code may do. -/
inductive DagMatch {ι : Type} (P : Event ι → Prop) : DagEvent → List (Event ι) → Prop where
  | node {i : Nat} {events : List (Event ι)} (h : ∀ e ∈ events, P e) : DagMatch P (.node i) events
  | enter {b : BlockId} {values : List (Register × Word)} {events : List (Event ι)}
      (h : ∀ e ∈ events, P e) : DagMatch P (.enter b values) (events ++ [.enter b values])
  | ret {events : List (Event ι)} (h : ∀ e ∈ events, P e) : DagMatch P .ret (events ++ [.ret])

theorem related_start (hg : SelectFunction PIC base f g) {b : BlockId} (hb : b ∈ f.layout)
    {vals : Nat → Word} {st : DagState} {mst : MachState} (hsame : SameState base st mst) :
    Related W PIC base f g (.run b 0 vals st) (.start g b mst) := by
  rcases hg.block b hb with ⟨next, hle, hblock⟩
  unfold Config.start
  generalize hgb : g.block b = block at hblock ⊢
  cases hblock with
  | mk hnodes hlast =>
      apply Related.run hb hnodes (by rw [hgb]; exact hlast)
      refine ⟨hsame, hle, ?_, ?_, ?_, ?_, ?_⟩
      · intro j src hj
        cases hj
      · intro j src hj
        cases hj
      · intro j r hj
        cases hj
      · intro j src hj
        cases hj
      · intro j n hj
        exact absurd hj (Nat.not_lt_zero j)

theorem phis_selected (hg : SelectFunction PIC base f g) {b : BlockId} (hb : b ∈ f.layout) :
    (g.block b).phis = (f.block b).phis ∧ (g.block b).successors = (f.block b).successors := by
  rcases hg.block b hb with ⟨next, _, hblock⟩
  generalize g.block b = block at hblock
  cases hblock
  exact ⟨rfl, rfl⟩

theorem selection_simulates (hf : f.WellFormed base) (hnear : f.NearSymbols W)
    (hg : SelectFunction PIC base f g) :
    Simulates (DagStep W f) (Step (target W unordered blockAt) g) (Related W PIC base f g)
      (DagMatch Inner) := by
  intro c c' e t hrel hstep
  cases hrel with
  | returned _ => cases hstep
  | @run b i vals st mst s s' code tail hb hnodes hlast h =>
      have hwf := hf.block b hb
      cases hstep with
      | node hn hnode =>
          cases hnodes with
          | nil => simp at hn
          | @cons _ _ s₁ _ n first rest hn' hfirst htail =>
              rw [hn, Option.some.injEq] at hn'
              subst hn'
              have hanswers : Answers W unordered blockAt g b first mst _ :=
                hfirst.answers hn (hwf.operands i _ hn) (hwf.registers _ (List.mem_of_getElem? hn))
                  (hnear b hb) h.2 h.1 hnode
              rcases hanswers (rest ++ tail) with ⟨events, mst', hrun, hinner, hbehind⟩
              rw [List.append_assoc]
              exact ⟨events, _, hrun, .node hinner, .run hb htail hlast hbehind⟩
      | @enter _ b' _ vals' _ values hexit hphis =>
          cases hnodes with
          | cons hn _ _ => simp at hn
          | nil =>
              have hsucc : b' ∈ (f.block b).successors := hf.edges b hb b' hexit.mem_targets
              have hb' : b' ∈ f.layout := hf.closed b hb b' hsucc
              rw [← (phis_selected hg hb).2] at hsucc
              have hanswers : Answers W unordered blockAt g b tail mst _ :=
                hlast.answers hwf.lastOperands h hexit
              rcases hanswers [] with ⟨events, mst', hrun, hinner, hsame, hleave⟩
              have hvalues : phiValues b mst'.regs (g.block b').phis = some values := by
                rw [(phis_selected hg hb').1, ← hphis]
                exact phiValues_congr fun phi hphi value hvalue =>
                  hsame.regs value.1 ((hf.block b' hb').phis phi hphi |>.2 value hvalue)
              rw [List.append_nil] at hrun
              have hleave' : exit (target W unordered blockAt) g b mst' = .block b' := by
                unfold exit
                rw [hg.layout]
                exact hleave
              exact ⟨events ++ [.enter b' values], _, hrun.append (.single (.enter hleave' hsucc hvalues)),
                .enter hinner, related_start hg hb' (hsame.setAll values)⟩
      | ret hexit =>
          cases hnodes with
          | cons hn _ _ => simp at hn
          | nil =>
              have hanswers : Answers W unordered blockAt g b tail mst _ :=
                hlast.answers hwf.lastOperands h hexit
              rcases hanswers [] with ⟨events, mst', hrun, hinner, hsame, hleave⟩
              rw [List.append_nil] at hrun
              have hleave' : exit (target W unordered blockAt) g b mst' = .ret := by
                unfold exit
                rw [hg.layout]
                exact hleave
              exact ⟨events ++ [.ret], _, hrun.append (.single (.ret hleave')), .ret hinner,
                .returned hsame⟩

/-- Whatever patterns are taken, every run of a function is matched by a run of the code
selected for it: each node by instructions and selects, and each way out of a block by
the same way out with the same PHI values, perhaps behind a comparison. Memory and the
registers of the function are the same after it. -/
theorem selection_preserves (hf : f.WellFormed base) (hnear : f.NearSymbols W)
    (hg : SelectFunction PIC base f g) {b : BlockId} (hb : b ∈ f.layout) {vals : Nat → Word}
    {st : DagState} {mst : MachState} (hsame : SameState base st mst) {events : List DagEvent}
    {c : DagConfig} (hrun : Run (DagStep W f) (.run b 0 vals st) events c) :
    ∃ events' c', Run (Step (target W unordered blockAt) g) (.start g b mst) events' c' ∧
      Matches (DagMatch Inner) events events' ∧ SameState base c.state c'.state := by
  obtain ⟨events', c', hrun', hmatch, hrel⟩ :=
    (selection_simulates hf hnear hg).run (related_start hg hb hsame) hrun
  exact ⟨events', c', hrun', hmatch, hrel.state⟩

/-- `v1 = v0 > 7 ? v0 : 7` -/
def clamp : DagFunction Unit where
  layout := [0]
  block := fun _ =>
    { phis := []
      nodes := [.CopyFromReg (.vreg 0), .Constant 7, .SELECT_CC .i32 0 1 0 1 .SETGT,
        .CopyToReg (.vreg 1) 2]
      last := .RET_FLAG
      successors := [] }
  nextBlockNum := 1

def clampSelected : Select.MachineFunction (MachInstr Unit) where
  layout := [0]
  block := fun _ =>
    { phis := []
      body := [.op (.COPY (.vreg 2) (.vreg 0)), .op (.LDIri (.vreg 3) (.imm 7)),
        .op (.SCMPri (.reg (.vreg 2)) 7),
        .selectCC .SELECT_CC_Int (.vreg 4) (.vreg 2) (.vreg 3) .COND_GR,
        .op (.COPY (.vreg 1) (.vreg 4))]
      terms := [.RET]
      successors := [] }
  nextBlockNum := 1

def zeroWorld : World Unit := ⟨fun _ _ _ => 0, fun _ => 0, fun _ => 0, fun _ => 0, fun _ => 0⟩

theorem clamp_wellFormed : clamp.WellFormed 2 where
  nodup := by decide
  fresh := by decide
  closed := by decide
  edges := fun _ _ _ ht => nomatch ht
  incoming := by decide
  block := by
    intro b _
    refine ⟨?_, fun _ ha => (nomatch ha), ?_, fun _ hphi => (nomatch hphi)⟩
    · intro i n hn a ha
      match i, hn with
      | 0, hn => cases hn; cases ha
      | 1, hn => cases hn; cases ha
      | 2, hn =>
          cases hn
          simp only [DagNode.operands, List.mem_cons, List.not_mem_nil, or_false] at ha
          omega
      | 3, hn =>
          cases hn
          cases List.mem_singleton.mp ha
          decide
    · intro n hn r hr k hk
      simp only [clamp, List.mem_cons, List.not_mem_nil, or_false] at hn
      rcases hn with rfl | rfl | rfl | rfl
      · cases List.mem_singleton.mp hr
        cases hk
        decide
      · cases hr
      · cases hr
      · cases List.mem_singleton.mp hr
        cases hk
        decide

theorem clamp_nodes : ∃ s, SelectNodes false (clamp.block 0).nodes 0 (.start 2)
    (clampSelected.block 0).body s := by
  let nodes := (clamp.block 0).nodes
  let s₁ : Selection Unit := (Selection.start 2).fresh 0
  let s₂ : Selection Unit := s₁.define 1 (.reg (.vreg 3)) 4
  have h0 : SelectNode false nodes (.start 2) 0 (.CopyFromReg (.vreg 0)) _ s₁ := .CopyFromReg
  have hconstant : Node.LDIri 7 ∈ constants 7 := by decide
  have h1 : SelectNode false nodes s₁ 1 (.Constant 7) _ s₂ :=
    @SelectNode.tree _ _ _ _ _ _ (.LDIri 7) (fun _ => .lo16 ()) _ _ _ hconstant
      (by simp [Node.leaves]) rfl
  have hcmp : s₂.Compares nodes (.ICMP (F := Unit) (.node 0) (.Constant 7))
      (.SCMPri (.reg (.vreg 2)) 7) := .SCMPri (.node rfl) (by decide)
  have h2 : SelectNode false nodes s₂ 2 (.SELECT_CC .i32 0 1 0 1 .SETGT) _ (s₂.fresh 2) :=
    .SELECT_CC rfl hcmp rfl rfl
  have h3 : SelectNode false nodes (s₂.fresh 2) 3 (.CopyToReg (.vreg 1) 2) _ (s₂.fresh 2) :=
    .CopyToReg rfl
  exact ⟨_, .cons rfl h0 (.cons rfl h1 (.cons rfl h2 (.cons rfl h3 .nil)))⟩

theorem clamp_selected : SelectFunction false 2 clamp clampSelected where
  layout := rfl
  nextBlockNum := rfl
  block := by
    intro b _
    rcases clamp_nodes with ⟨s, hnodes⟩
    exact ⟨2, Nat.le_refl 2, .mk hnodes .RET_FLAG⟩

theorem clamp_run (st : DagState) (vals : Nat → Word) (hregs : st.regs (.vreg 0) = 9) :
    ∃ c, Run (DagStep zeroWorld clamp) (.run 0 0 vals st)
      [.node 0, .node 1, .node 2, .node 3, .ret] c ∧ c.state.regs (.vreg 1) = 9 := by
  refine ⟨_, .cons (.node rfl .CopyFromReg) (.cons (.node rfl .Constant) (.cons
    (.node rfl (.SELECT_CC rfl)) (.cons (.node (v := 0) rfl .CopyToReg) (.single (.ret .RET_FLAG))))), ?_⟩
  show (if (7 : Word).slt (st.regs (.vreg 0)) then st.regs (.vreg 0) else 7) = 9
  rw [hregs]
  decide

theorem selection_preserves_clamp :
    ∃ events' c', Run (Step (target zeroWorld (fun _ => false) fun _ => 0) clampSelected)
        (.start clampSelected 0 ⟨fun _ => 9, .unordered, fun _ => 0⟩) events' c' ∧
      Matches (DagMatch Inner) [.node 0, .node 1, .node 2, .node 3, .ret] events' ∧
      c'.state.regs (.vreg 1) = 9 := by
  rcases clamp_run ⟨fun _ => 9, (), fun _ => 0⟩ (fun _ => 0) rfl with ⟨c, hrun, hvalue⟩
  have hsame : SameState 2 ⟨fun _ => 9, (), fun _ => 0⟩ ⟨fun _ => 9, .unordered, fun _ => 0⟩ :=
    ⟨fun _ _ => rfl, rfl⟩
  obtain ⟨events', c', hrun', hmatch, hstate⟩ := selection_preserves clamp_wellFormed
    (by simp [DagFunction.NearSymbols, clamp]) clamp_selected (by decide) hsame hrun
  have hbelow : Below 2 (.vreg 1) := by
    intro k hk
    cases hk
    decide
  exact ⟨events', c', hrun', hmatch, (hstate.regs (.vreg 1) hbelow).trans hvalue⟩

/-! ## Selects expanded -/

theorem SelectFunction.wellFormed (hf : f.WellFormed base) (hg : SelectFunction PIC base f g) :
    Select.WellFormed g where
  nodup := hg.layout ▸ hf.nodup
  fresh := by
    rw [hg.layout, hg.nextBlockNum]
    exact hf.fresh
  closed := by
    intro b hb s hs
    rw [hg.layout] at hb ⊢
    rw [(phis_selected hg hb).2] at hs
    exact hf.closed b hb s hs
  incoming := by
    intro b hb phi hphi value hvalue
    rw [hg.layout] at hb
    rw [hg.nextBlockNum]
    rw [(phis_selected hg hb).1] at hphi
    exact hf.incoming b hb phi hphi value hvalue

/-- Part of a block: blocks with a number from `n` on are parts of the one they come from. -/
def Within {ι : Type} (n : BlockId) : Event ι → Prop
  | .exec _ | .select _ _ => True
  | .enter b _ => n ≤ b
  | .ret => False

theorem AnyMatch.within {ι : Type} {n : BlockId} {e : Event ι} {events : List (Event ι)}
    (he : Inner e) (h : AnyMatch n e events) : ∀ e' ∈ events, Within n e' := by
  cases h with
  | same =>
      cases e with
      | exec _ => simp [Within]
      | select _ _ => simp [Within]
      | enter _ _ => cases he
      | ret => cases he
  | taken hsink => simpa [Within] using hsink
  | copied hcopy hsink => simp [Within, hcopy, hsink]

theorem AnyMatch.ret_inv {ι : Type} {n : BlockId} {events : List (Event ι)}
    (h : AnyMatch n .ret events) : events = [.ret] := by
  cases h
  rfl

theorem DagMatch.expand {ι : Type} {n : BlockId} {e : DagEvent} {events events' : List (Event ι)}
    (h : DagMatch Inner e events) (h' : Matches (AnyMatch n) events events') :
    DagMatch (Within n) e events' := by
  cases h with
  | node hinner => exact .node (h'.forall_mem (fun _ _ => AnyMatch.within) hinner)
  | enter hinner =>
      rcases h'.append_inv with ⟨first, last, rfl, hfirst, hlast⟩
      rw [hlast.single_inv.enter_inv]
      exact .enter (hfirst.forall_mem (fun _ _ => AnyMatch.within) hinner)
  | ret hinner =>
      rcases h'.append_inv with ⟨first, last, rfl, hfirst, hlast⟩
      rw [AnyMatch.ret_inv hlast.single_inv]
      exact .ret (hfirst.forall_mem (fun _ _ => AnyMatch.within) hinner)

theorem DagMatch.strengthen {ι : Type} {P Q : Event ι → Prop} {e : DagEvent}
    {events : List (Event ι)} (h : DagMatch P e events) (hQ : ∀ e' ∈ events, P e' → Q e') :
    DagMatch Q e events := by
  cases h with
  | node hP => exact .node fun e' he' => hQ e' he' (hP e' he')
  | enter hP => exact .enter fun e' he' => hQ e' (List.mem_append_left _ he') (hP e' he')
  | ret hP => exact .ret fun e' he' => hQ e' (List.mem_append_left _ he') (hP e' he')

/-- An instruction, or the entry of a part of the same block. -/
def Straight {ι : Type} (n : BlockId) : Event ι → Prop
  | .exec _ => True
  | .enter b _ => n ≤ b
  | .select _ _ | .ret => False

theorem matches_straight {ι : Type} {n : BlockId} {events : List DagEvent}
    {events' : List (Event ι)} (h : Matches (DagMatch (Within n)) events events')
    (hplain : ∀ e ∈ events', e.Pending (· ∈ ([] : List Register))) :
    Matches (DagMatch (Straight n)) events events' := by
  apply (h.and hplain).mono
  intro e events h
  apply h.1.strengthen
  intro e' he' hwithin
  have hselect := h.2 e' he'
  cases e' with
  | exec _ => trivial
  | select _ _ => cases hselect
  | enter _ _ => exact hwithin
  | ret => exact hwithin

/-- The whole way from nodes to code without pseudos: every run of a function is matched
by a run of the code that is left when selects are expanded, in any order and until none
is left. A node becomes instructions and perhaps the entry of new blocks, and the ways
out of a block stay what they are. -/
theorem compile_preserves (hf : f.WellFormed base) (hnear : f.NearSymbols W)
    (hg : SelectFunction PIC base f g) {g' : Select.MachineFunction (MachInstr σ)}
    (hexpanded : Expanded g g') (hnone : g'.selects = 0) {b : BlockId} (hb : b ∈ f.layout)
    {vals : Nat → Word} {st : DagState} {mst : MachState} (hsame : SameState base st mst)
    {events : List DagEvent} {c : DagConfig}
    (hrun : Run (DagStep W f) (.run b 0 vals st) events c) :
    ∃ events' c', Run (Step (target W unordered blockAt) g') (.start g' b mst) events' c' ∧
      Matches (DagMatch (Straight f.nextBlockNum)) events events' ∧
      SameState base c.state c'.state := by
  rcases hexpanded with ⟨k, hexpanded⟩
  have hwf := hg.wellFormed hf
  rcases hexpanded.preserves (target W unordered blockAt) hwf with ⟨R, tail, hpreserves⟩
  have hb' : b ∈ g.layout := hg.layout ▸ hb
  obtain ⟨events', c', hrun', hmatch, c₁, hrel, hR⟩ :=
    ((selection_simulates hf hnear hg).comp hpreserves.simulates).run
      ⟨_, related_start hg hb hsame, hpreserves.start b hb' mst⟩ hrun
  have hwithin : Matches (DagMatch (Within f.nextBlockNum)) events events' := by
    apply hmatch.mono
    rintro e es' ⟨es, hdag, hes⟩
    rw [hg.nextBlockNum] at hes
    exact hdag.expand hes
  have hplain := run_pending (hexpanded.wellFormed hwf)
    (Config.pending_start (hpreserves.mem b hb') mst) hrun'
  rw [List.length_eq_zero_iff.mp hnone] at hplain
  refine ⟨events', c', hrun', matches_straight hwithin hplain, ?_⟩
  rw [hpreserves.state c₁ c' hR]
  exact hrel.state

theorem compile_preserves_clamp :
    ∃ g', EmitInstrWithCustomInserter clampSelected 0 3 = some (g', 2) ∧
      ∃ events' c', Run (Step (target zeroWorld (fun _ => false) fun _ => 0) g')
          (.start g' 0 ⟨fun _ => 9, .unordered, fun _ => 0⟩) events' c' ∧
        Matches (DagMatch (Straight 1)) [.node 0, .node 1, .node 2, .node 3, .ret] events' ∧
        c'.state.regs (.vreg 1) = 9 := by
  refine ⟨_, rfl, ?_⟩
  have hexpanded := @ExpandedIn.emit (MachInstr Unit) clampSelected 0 clampSelected _ 0 2 3 .refl
    List.mem_cons_self rfl
  rcases clamp_run ⟨fun _ => 9, (), fun _ => 0⟩ (fun _ => 0) rfl with ⟨c, hrun, hvalue⟩
  have hsame : SameState 2 ⟨fun _ => 9, (), fun _ => 0⟩ ⟨fun _ => 9, .unordered, fun _ => 0⟩ :=
    ⟨fun _ _ => rfl, rfl⟩
  obtain ⟨events', c', hrun', hmatch, hstate⟩ := compile_preserves clamp_wellFormed
    (by simp [DagFunction.NearSymbols, clamp]) clamp_selected ⟨1, hexpanded⟩ rfl (by decide) hsame hrun
  have hbelow : Below 2 (.vreg 1) := by
    intro k hk
    cases hk
    decide
  exact ⟨events', c', hrun', hmatch, (hstate.regs (.vreg 1) hbelow).trans hvalue⟩

end Mandarin.Isel
