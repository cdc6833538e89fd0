import Mandarin.CallConv.CallNodes
import Mandarin.CallConv.RoundTrip

/-! # A call in any schedule

The nodes of a call are run in the order of a schedule, other nodes of the block in
between. These may do anything to the machine but change the stack pointer and the
memory the arguments occupy. Between the start of the call sequence and the glued run
the caller's memory operations all run, once each, and the run has no gap into which a
copied argument or a result could get lost.
-/

namespace Mandarin.CallConv

open Memory Schedule

/-! ## Running the nodes -/

/-- The machine, the virtual register the stack pointer is copied to, and the values
the results of the call have been copied to. -/
structure NodeState where
  regs : RegFile
  mem : Mem 32
  stackPtr : Word
  inVals : List (List Word)

/-- What the operands of a call mean, and what the callee does. -/
structure NodeMachine (α : Type) where
  memOp : Word → MemOp α → Update 32
  copy : RegFile → Reg × ArgNode α → RegFile
  callee : RegFile → Mem 32 → RegFile × Mem 32

variable {α : Type}

/-- The pseudos around a call leave the machine alone. -/
def NodeOp.exec (M : NodeMachine α) : NodeOp α → NodeState → NodeState
  | entryToken, s | callSeqStart _, s | tokenFactor, s | callSeqEnd _, s | ret _, s => s
  | copyStackPtr, s => { s with stackPtr := s.regs 30 }
  | memOp op, s => { s with mem := (M.memOp s.stackPtr op).run s.mem }
  | copyToReg r arg, s => { s with regs := M.copy s.regs (r, arg) }
  | call _, s =>
      { s with regs := (M.callee s.regs s.mem).1, mem := (M.callee s.regs s.mem).2 }
  | copyFromReg r _, s => { s with inVals := s.inVals ++ [readReg s.regs r] }

/-- A node of the call does what it is for, another node of the block what it likes. -/
def nodeStep (M : NodeMachine α) (d : CallDag α) (other : Nat → NodeState → NodeState) (k : Nat)
    (s : NodeState) : NodeState :=
  match d.nodes[k]? with
  | some node => node.op.exec M s
  | none => other k s

/-- Other nodes leave the stack pointer, its copy and the memory of `P` alone. -/
structure Keeps (P : Word → Prop) (other : Nat → NodeState → NodeState) : Prop where
  sp : ∀ k s, (other k s).regs 30 = s.regs 30
  stackPtr : ∀ k s, (other k s).stackPtr = s.stackPtr
  mem : ∀ k s a, P a → (other k s).mem a = s.mem a

/-! ## The memory operations -/

variable {call : LoweredCall α} {results : List (Reg × MVT)} {M : NodeMachine α}
  {other : Nat → NodeState → NodeState} {P : Word → Prop} {sp : Word}

def storeAt (call : LoweredCall α) (k : Nat) : Option (MemOp α) :=
  if k < 3 then none else call.memOps[k - 3]?

theorem storeAt_add (call : LoweredCall α) (i : Nat) : storeAt call (3 + i) = call.memOps[i]? := by
  rw [storeAt, if_neg (by omega), Nat.add_sub_cancel_left]

theorem storeAt_eq_some {k : Nat} {op : MemOp α} (h : storeAt call k = some op) :
    ∃ i, k = 3 + i ∧ call.memOps[i]? = some op := by
  unfold storeAt at h
  split at h
  · cases h
  · exact ⟨k - 3, by omega, h⟩

theorem stores_perm {ks : List Nat} (hnodup : ks.Nodup)
    (hall : ∀ i < call.memOps.length, 3 + i ∈ ks) :
    (ks.filterMap (storeAt call)).Perm call.memOps := by
  have hids : (ks.filter fun k => (storeAt call k).isSome).Perm
      (List.range' 3 call.memOps.length) := by
    rw [List.perm_ext_iff_of_nodup (hnodup.filter _) List.nodup_range']
    intro k
    rw [List.mem_filter, List.mem_range'_1, Option.isSome_iff_exists]
    constructor
    · rintro ⟨_, op, hop⟩
      rcases storeAt_eq_some hop with ⟨i, rfl, hi⟩
      have hlt := (List.getElem?_eq_some_iff.mp hi).1
      omega
    · intro hk
      obtain ⟨i, rfl⟩ : ∃ i, k = 3 + i := ⟨k - 3, by omega⟩
      rw [storeAt_add]
      exact ⟨hall i (by omega), _, List.getElem?_eq_getElem (by omega)⟩
  have hops : (List.range' 3 call.memOps.length).filterMap (storeAt call) = call.memOps := by
    have hmap : (List.range' 3 call.memOps.length).map (storeAt call) = call.memOps.map some := by
      apply List.ext_getElem
      · simp
      · intro i hi _
        rw [List.length_map, List.length_range'] at hi
        rw [List.getElem_map, List.getElem_range', Nat.one_mul, storeAt_add, List.getElem_map,
          List.getElem?_eq_getElem hi]
    calc (List.range' 3 call.memOps.length).filterMap (storeAt call)
        = ((List.range' 3 call.memOps.length).map (storeAt call)).filterMap id := by
          rw [List.filterMap_map]
          rfl
      _ = call.memOps := by
          rw [hmap, List.filterMap_map]
          exact List.filterMap_some
  have hfilter : ks.filterMap (storeAt call) =
      (ks.filter fun k => (storeAt call k).isSome).filterMap (storeAt call) := by
    rw [List.filterMap_filter]
    congr 1
    funext k
    cases storeAt call k <;> rfl
  rw [hfilter, ← hops]
  exact hids.filterMap _

/-- What a node between the start of the call sequence and the run does: it copies the
stack pointer, runs a memory operation, or is the token factor or none of the call's. -/
inductive BetweenStep (call : LoweredCall α) (M : NodeMachine α)
    (other : Nat → NodeState → NodeState) (k : Nat) (step : NodeState → NodeState) : Prop where
  | stackPtr (hk : k = 2) (h : ∀ s, step s = { s with stackPtr := s.regs 30 })
  | store (op : MemOp α) (hop : storeAt call k = some op)
      (h : ∀ s, step s = { s with mem := (M.memOp s.stackPtr op).run s.mem })
  | token (hop : storeAt call k = none) (h : ∀ s, step s = s)
  | other (hop : storeAt call k = none) (h : ∀ s, step s = other k s)

theorem nodeStep_side {k : Nat} (hlo : 2 ≤ k) (hhi : k < firstGlued call) :
    BetweenStep call M other k (nodeStep M (lowerCallNodes call results) other k) := by
  have hne : call.memOps ≠ [] := by
    intro hnil
    have := (firstGlued_of_nil hnil).1
    omega
  rcases sideDag_of_ne_nil hne with ⟨hfirst, _, hptr, hops, htoken⟩
  have hstep : ∀ node, (sideDag call).nodes[k]? = some node → ∀ s,
      nodeStep M (lowerCallNodes call results) other k s = node.op.exec M s := by
    intro node hnode s
    simp only [nodeStep, nodes_side hhi, hnode]
  rcases Nat.lt_or_ge k 3 with hk | hk
  · have hk2 : k = 2 := by omega
    subst hk2
    exact .stackPtr rfl (hstep _ hptr)
  · obtain ⟨i, rfl⟩ : ∃ i, k = 3 + i := ⟨k - 3, by omega⟩
    rcases Nat.lt_or_ge i call.memOps.length with hi | hi
    · have hop := List.getElem?_eq_getElem hi
      exact .store _ (by rw [storeAt_add, hop]) (hstep _ (hops i _ hop))
    · have hlast : i = call.memOps.length := by omega
      refine .token (by rw [storeAt_add]; exact List.getElem?_eq_none hi) ?_
      rw [← hlast] at htoken
      exact hstep _ htoken

theorem nodeStep_stackPtr (h : call.memOps ≠ []) (s : NodeState) :
    nodeStep M (lowerCallNodes call results) other 2 s = { s with stackPtr := s.regs 30 } := by
  rcases sideDag_of_ne_nil h with ⟨hfirst, _, hptr, _⟩
  simp only [nodeStep, nodes_side (show 2 < firstGlued call by omega), hptr]
  rfl

theorem nodeStep_between {before between behind order : List Nat}
    (hshape : CallShape call results order before between behind) {k : Nat} (hk : k ∈ between) :
    BetweenStep call M other k (nodeStep M (lowerCallNodes call results) other k) := by
  rcases Nat.lt_or_ge k (lowerCallNodes call results).nodes.length with hlt | hge
  · rcases hshape.side k hk hlt with ⟨hlo, hhi⟩
    exact nodeStep_side hlo hhi
  · have hnone := List.getElem?_eq_none hge
    refine .other ?_ fun s => by simp only [nodeStep, hnone]
    rw [length_lowerCallNodes] at hge
    by_cases hnil : call.memOps = []
    · simp [storeAt, hnil]
    · have hfirst := (sideDag_of_ne_nil hnil).1
      obtain ⟨i, rfl⟩ : ∃ i, k = 3 + i := ⟨k - 3, by omega⟩
      rw [storeAt_add]
      exact List.getElem?_eq_none (by omega)

section
variable {k : Nat} {step : NodeState → NodeState} (h : BetweenStep call M other k step)
include h

theorem BetweenStep.keeps_sp (hother : Keeps P other) (s : NodeState) : (step s).regs 30 = s.regs 30 := by
  cases h with
  | stackPtr _ heq => rw [heq]
  | store op _ heq => rw [heq]
  | token _ heq => rw [heq]
  | other _ heq => rw [heq, hother.sp]

theorem BetweenStep.keeps_ptr (hother : Keeps P other) {s : NodeState} (hs : s.regs 30 = sp)
    (hptr : s.stackPtr = sp) : (step s).stackPtr = sp := by
  cases h with
  | stackPtr _ heq => rw [heq, hs]
  | store op _ heq => rw [heq, hptr]
  | token _ heq => rw [heq, hptr]
  | other _ heq => rw [heq, hother.stackPtr, hptr]

theorem BetweenStep.run {op : MemOp α} (hop : storeAt call k = some op) (s : NodeState) :
    (step s).mem = (M.memOp s.stackPtr op).run s.mem := by
  cases h with
  | stackPtr hk _ => rw [hk] at hop; cases hop
  | store op' hop' heq =>
      rw [hop] at hop'
      cases hop'
      rw [heq]
  | token hnone _ => rw [hop] at hnone; cases hnone
  | other hnone _ => rw [hop] at hnone; cases hnone

theorem BetweenStep.keep (hother : Keeps P other) (hop : storeAt call k = none) (s : NodeState)
    {a : Word} (ha : P a) : (step s).mem a = s.mem a := by
  cases h with
  | stackPtr _ heq => rw [heq]
  | store op' hop' _ => rw [hop] at hop'; cases hop'
  | token _ heq => rw [heq]
  | other _ heq => rw [heq, hother.mem k s a ha]

end

/-- The memory operations write and read nothing but the memory of `P`. -/
structure Confined (P : Word → Prop) (us : List (Update 32)) : Prop where
  writes : ∀ u ∈ us, ∀ a, u.region.Contains a → P a
  reads : ∀ u ∈ us, ∀ m m' : Mem 32, (∀ a, P a → m a = m' a) →
    ∀ i < u.region.size, u.data m i = u.data m' i

theorem exec_quiet {step : Nat → NodeState → NodeState} {ks : List Nat} (hother : Keeps P other)
    (hks : ∀ k ∈ ks, BetweenStep call M other k (step k) ∧ storeAt call k = none) (s : NodeState) :
    (∀ a, P a → (exec step ks s).mem a = s.mem a) ∧ (exec step ks s).regs 30 = s.regs 30 := by
  apply @exec_inv _ _ step (fun t => (∀ a, P a → t.mem a = s.mem a) ∧ t.regs 30 = s.regs 30)
  · rintro k hk t ⟨hmem, hsp⟩
    rcases hks k hk with ⟨hstep, hnone⟩
    refine ⟨fun a ha => ?_, ?_⟩
    · rw [hstep.keep hother hnone t ha, hmem a ha]
    · rw [hstep.keeps_sp hother t, hsp]
  · exact ⟨fun _ _ => rfl, rfl⟩

/-- Behind the copy of the stack pointer the memory operations run among the others. -/
theorem interleaved_stores {step : Nat → NodeState → NodeState} {ks : List Nat}
    (hother : Keeps P other) (hconf : Confined P (call.memOps.map (M.memOp sp)))
    (hks : ∀ k ∈ ks, BetweenStep call M other k (step k)) :
    Interleaved P (fun s => s.regs 30 = sp ∧ s.stackPtr = sp) NodeState.mem step
      (fun k => (storeAt call k).map (M.memOp sp)) ks where
  inv := fun k hk s hs =>
    ⟨((hks k hk).keeps_sp hother s).trans hs.1, (hks k hk).keeps_ptr hother hs.1 hs.2⟩
  run := by
    intro k hk s u hs hu
    rcases Option.map_eq_some_iff.mp hu with ⟨op, hop, rfl⟩
    rw [(hks k hk).run hop, hs.2]
  keep := fun k hk s _ hnone a ha =>
    (hks k hk).keep hother (Option.map_eq_none_iff.mp hnone) s ha
  writes := by
    intro k _ u hu
    rcases Option.map_eq_some_iff.mp hu with ⟨op, hop, rfl⟩
    rcases storeAt_eq_some hop with ⟨i, _, hi⟩
    exact hconf.writes _ (List.mem_map_of_mem (List.mem_of_getElem? hi))
  reads := by
    intro k _ u hu
    rcases Option.map_eq_some_iff.mp hu with ⟨op, hop, rfl⟩
    rcases storeAt_eq_some hop with ⟨i, _, hi⟩
    exact hconf.reads _ (List.mem_map_of_mem (List.mem_of_getElem? hi))

/-- Up to the run, the memory of `P` is what the call's memory operations make of it in
some order, and the stack pointer is where it was. -/
theorem CallShape.exec_between {before between behind order : List Nat}
    (hshape : CallShape call results order before between behind) (hnodup : between.Nodup)
    (hother : Keeps P other) (hconf : Confined P (call.memOps.map (M.memOp sp))) {s : NodeState}
    (hs : s.regs 30 = sp) :
    ∃ (ops : List (MemOp α)) (m : Mem 32), ops.Perm call.memOps ∧ (∀ a, P a → m a = s.mem a) ∧
      (exec (nodeStep M (lowerCallNodes call results) other) between s).mem =
        runAll (ops.map (M.memOp sp)) m ∧
      (exec (nodeStep M (lowerCallNodes call results) other) between s).regs 30 = sp := by
  have hsteps := fun k hk => @nodeStep_between α call results M other _ _ _ _ hshape k hk
  by_cases hnil : call.memOps = []
  · obtain ⟨hmem, hsp⟩ := exec_quiet hother
      (fun k hk => ⟨hsteps k hk, by simp [storeAt, hnil]⟩) s
    exact ⟨[], _, by rw [hnil], hmem, rfl, hsp.trans hs⟩
  · rcases hshape.stores hnil with ⟨front, back, rfl, hall⟩
    have hnodup' := List.nodup_append.mp hnodup
    have hfront : ∀ k ∈ front, storeAt call k = none := by
      intro k hk
      cases hop : storeAt call k with
      | none => rfl
      | some op =>
          rcases storeAt_eq_some hop with ⟨i, rfl, hi⟩
          have hback := hall i (List.getElem?_eq_some_iff.mp hi).1
          exact absurd rfl (hnodup'.2.2 _ hk _ (List.mem_cons_of_mem 2 hback))
    obtain ⟨hmem, hsp⟩ := exec_quiet hother
      (fun k hk => ⟨hsteps k (List.mem_append_left _ hk), hfront k hk⟩) s
    rw [exec_append, exec_cons]
    generalize exec (nodeStep M (lowerCallNodes call results) other) front s = t at hmem hsp ⊢
    rw [nodeStep_stackPtr hnil]
    have hback := @interleaved_stores α call M other P sp _ back hother hconf
      fun k hk => hsteps k (by simp [hk])
    have hstart : t.regs 30 = sp := hsp.trans hs
    rcases hback.updates (s := { t with stackPtr := t.regs 30 }) ⟨hstart, hstart⟩ with ⟨m, hm, hrun⟩
    have hend := exec_inv hback.inv (s := { t with stackPtr := t.regs 30 }) ⟨hstart, hstart⟩
    refine ⟨back.filterMap (storeAt call), m,
      stores_perm (List.nodup_cons.mp hnodup'.2.1).2 hall, fun a ha => ?_, ?_, hend.1⟩
    · rw [hm a ha, hmem a ha]
    · rw [hrun, List.map_filterMap]

/-! ## The run -/

theorem exec_range' {ops : List (NodeOp α)} {d : CallDag α} {b : Nat}
    (h : ∀ i op, ops[i]? = some op → ∃ node, d.nodes[b + i]? = some node ∧ node.op = op)
    (s : NodeState) :
    exec (nodeStep M d other) (List.range' b ops.length) s =
      ops.foldl (fun s op => op.exec M s) s := by
  induction ops generalizing b s with
  | nil => rfl
  | cons op ops ih =>
      rcases h 0 op rfl with ⟨node, hnode, hop⟩
      have hstep : nodeStep M d other b s = op.exec M s := by
        rw [Nat.add_zero] at hnode
        simp only [nodeStep, hnode, hop]
      rw [List.length_cons, List.range'_succ, exec_cons, hstep, List.foldl_cons]
      apply ih
      intro i op' hop'
      rw [Nat.add_assoc, Nat.add_comm 1 i]
      exact h (i + 1) op' hop'

theorem lowerCallNodes_op {i : Nat} {op : NodeOp α} (hop : (gluedOps call results)[i]? = some op) :
    ∃ node, (lowerCallNodes call results).nodes[firstGlued call + i]? = some node ∧
      node.op = op := by
  refine ⟨_, lowerCallNodes_glued hop, ?_⟩
  cases i with
  | zero => rfl
  | succ i => rfl

def regCopies (call : LoweredCall α) : List Nat :=
  List.range' (firstGlued call) call.regsToPass.length

theorem foldl_copyToReg (ps : List (Reg × ArgNode α)) (s : NodeState) :
    (ps.map fun p => NodeOp.copyToReg p.1 p.2).foldl (fun s op => op.exec M s) s =
      { s with regs := ps.foldl M.copy s.regs } := by
  induction ps generalizing s with
  | nil => rfl
  | cons p ps ih => exact ih _

theorem foldl_copyFromReg (ps : List (Reg × MVT)) (s : NodeState) :
    (ps.map fun p => (NodeOp.copyFromReg p.1 p.2 : NodeOp α)).foldl (fun s op => op.exec M s) s =
      { s with inVals := s.inVals ++ ps.map fun p => readReg s.regs p.1 } := by
  induction ps generalizing s with
  | nil =>
      show s = { s with inVals := s.inVals ++ [] }
      rw [List.append_nil]
  | cons p ps ih =>
      rw [List.map_cons, List.foldl_cons, ih, List.map_cons]
      show NodeState.mk _ _ _ ((s.inVals ++ [readReg s.regs p.1]) ++ _) = _
      rw [List.append_assoc]
      rfl

theorem exec_regCopies (s : NodeState) :
    exec (nodeStep M (lowerCallNodes call results) other) (regCopies call) s =
      { s with regs := call.regsToPass.foldl M.copy s.regs } := by
  rw [← foldl_copyToReg, regCopies,
    ← @List.length_map _ _ call.regsToPass fun p => NodeOp.copyToReg p.1 p.2]
  apply exec_range'
  intro i op hop
  apply lowerCallNodes_op
  rw [gluedOps, List.getElem?_append_left (List.getElem?_eq_some_iff.mp hop).1, hop]

theorem exec_gluedRun_eq (s : NodeState) :
    exec (nodeStep M (lowerCallNodes call results) other) (gluedRun call results) s =
      { s with
        regs := (M.callee (call.regsToPass.foldl M.copy s.regs) s.mem).1
        mem := (M.callee (call.regsToPass.foldl M.copy s.regs) s.mem).2
        inVals := s.inVals ++ results.map fun p =>
          readReg (M.callee (call.regsToPass.foldl M.copy s.regs) s.mem).1 p.1 } := by
  rw [gluedRun, exec_range' fun i op => lowerCallNodes_op, gluedOps, List.foldl_append,
    foldl_copyToReg, List.foldl_cons, List.foldl_cons, foldl_copyFromReg]
  rfl

/-- Behind the call the results are what it left in their registers. -/
theorem exec_gluedRun (s : NodeState) :
    (exec (nodeStep M (lowerCallNodes call results) other) (gluedRun call results) s).inVals =
      s.inVals ++ results.map fun p =>
        readReg (M.callee (call.regsToPass.foldl M.copy s.regs) s.mem).1 p.1 := by
  rw [exec_gluedRun_eq]

end Mandarin.CallConv
