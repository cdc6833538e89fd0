import Mandarin.CallConv.CallSite
import Mandarin.CallConv.Returns
import Mandarin.Lib.Schedule

/-! # The nodes of a call

`LowerCall`, `LowerCallResult` and `LowerReturn` build nodes and order them with two variables:
`Chain`, the last node with a side effect, and `InFlag`, the node the next one is
glued to. The stores hang side by side on the start of the call sequence, below one
token factor; the register copies, the call, the end of the call sequence and the
copies of the results are glued into one run, and so are the copies of the return values
and the return. A schedule of the block may put other nodes anywhere but into a run.
-/

namespace Mandarin.CallConv

open Schedule

/-! ## Building the nodes -/

inductive NodeOp (α : Type) where
  | entryToken
  | callSeqStart (numBytes : Word)
  | copyStackPtr
  | memOp (op : MemOp α)
  | tokenFactor
  | copyToReg (r : Reg) (arg : ArgNode α)
  | call (uses : List Reg)
  | callSeqEnd (numBytes : Word)
  | copyFromReg (r : Reg) (VT : MVT)
  | ret (uses : List Reg)

/-- A node with the numbers of the nodes it takes its chain, its values and its glue
from. -/
structure SDNode (α : Type) where
  op : NodeOp α
  chain : List Nat
  operands : List Nat
  glue : Option Nat

/-- The nodes built so far, by number, and the variables `Chain` and `InFlag`. -/
structure CallDag (α : Type) where
  nodes : List (SDNode α)
  Chain : Nat
  InFlag : Option Nat

namespace CallDag

variable {α : Type}

def entry : CallDag α := ⟨[⟨.entryToken, [], [], none⟩], 0, none⟩

def getCALLSEQ_START (d : CallDag α) (numBytes : Word) : CallDag α :=
  { d with
    nodes := d.nodes ++ [⟨.callSeqStart numBytes, [d.Chain], [], none⟩]
    Chain := d.nodes.length }

/-- The stores and copies of the walk over the locations, all on the same chain, and
the token factor that joins them. -/
def getMemOps (d : CallDag α) (ops : List (MemOp α)) : CallDag α :=
  match ops with
  | [] => d
  | _ =>
      let stackPtr := d.nodes.length
      { d with
        nodes := d.nodes ++ ⟨.copyStackPtr, [d.Chain], [], none⟩ ::
          (ops.map fun op => ⟨.memOp op, [d.Chain], [stackPtr], none⟩) ++
          [⟨.tokenFactor, List.range' (stackPtr + 1) ops.length, [], none⟩]
        Chain := stackPtr + 1 + ops.length }

/-- A node on `Chain` glued to `InFlag`, which becomes both. -/
def getGlued (d : CallDag α) (op : NodeOp α) : CallDag α :=
  { nodes := d.nodes ++ [⟨op, [d.Chain], [], d.InFlag⟩]
    Chain := d.nodes.length
    InFlag := some d.nodes.length }

end CallDag

def lowerCallNodes {α : Type} (call : LoweredCall α) (results : List (Reg × MVT)) : CallDag α :=
  let d := (CallDag.entry.getCALLSEQ_START call.numBytes).getMemOps call.memOps
  let d := call.regsToPass.foldl (fun d p => d.getGlued (.copyToReg p.1 p.2)) d
  let d := d.getGlued (.call (call.regsToPass.map Prod.fst))
  let d := d.getGlued (.callSeqEnd call.numBytes)
  results.foldl (fun d p => d.getGlued (.copyFromReg p.1 p.2)) d

def lowerReturnNodes {α : Type} (copies : List (Reg × α)) : CallDag α :=
  let d := copies.foldl (fun d p => d.getGlued (.copyToReg p.1 (.value p.2))) CallDag.entry
  d.getGlued (.ret (copies.map Prod.fst))

/-! ## The glued run -/

variable {α : Type}

def gluedOps (call : LoweredCall α) (results : List (Reg × MVT)) : List (NodeOp α) :=
  call.regsToPass.map (fun p => .copyToReg p.1 p.2) ++
    .call (call.regsToPass.map Prod.fst) :: .callSeqEnd call.numBytes ::
      results.map fun p => .copyFromReg p.1 p.2

/-- The nodes in front of the run. -/
def sideDag (call : LoweredCall α) : CallDag α :=
  (CallDag.entry.getCALLSEQ_START call.numBytes).getMemOps call.memOps

theorem lowerCallNodes_eq (call : LoweredCall α) (results : List (Reg × MVT)) :
    lowerCallNodes call results = (gluedOps call results).foldl CallDag.getGlued (sideDag call) := by
  rw [gluedOps, List.foldl_append, List.foldl_cons, List.foldl_cons, List.foldl_map,
    List.foldl_map]
  rfl

theorem length_nodes_getGlued (ops : List (NodeOp α)) (d : CallDag α) :
    (ops.foldl CallDag.getGlued d).nodes.length = d.nodes.length + ops.length := by
  induction ops generalizing d with
  | nil => rfl
  | cons op ops ih =>
      rw [List.foldl_cons, ih, List.length_cons]
      show (d.nodes ++ [_]).length + _ = _
      rw [List.length_append, List.length_singleton]
      omega

theorem nodes_getGlued_of_lt (ops : List (NodeOp α)) {d : CallDag α} {k : Nat}
    (hk : k < d.nodes.length) :
    (ops.foldl CallDag.getGlued d).nodes[k]? = d.nodes[k]? := by
  induction ops generalizing d with
  | nil => rfl
  | cons op ops ih =>
      have hlt : k < (d.getGlued op).nodes.length := by
        show k < (d.nodes ++ [_]).length
        rw [List.length_append]
        omega
      rw [List.foldl_cons, ih hlt]
      exact List.getElem?_append_left hk

/-- The node at `i` of a run built on `d`: the first one takes the chain and the flag
of `d`, every other one its predecessor as both. -/
def CallDag.gluedNode (d : CallDag α) (op : NodeOp α) : Nat → SDNode α
  | 0 => ⟨op, [d.Chain], [], d.InFlag⟩
  | i + 1 => ⟨op, [d.nodes.length + i], [], some (d.nodes.length + i)⟩

theorem nodes_getGlued {ops : List (NodeOp α)} {d : CallDag α} {i : Nat} {op : NodeOp α}
    (hop : ops[i]? = some op) :
    (ops.foldl CallDag.getGlued d).nodes[d.nodes.length + i]? = some (d.gluedNode op i) := by
  induction ops generalizing d i with
  | nil => cases hop
  | cons first ops ih =>
      have hlen : (d.getGlued first).nodes.length = d.nodes.length + 1 := by
        show (d.nodes ++ [_]).length = _
        rw [List.length_append, List.length_singleton]
      rw [List.foldl_cons]
      cases i with
      | zero =>
          cases hop
          rw [nodes_getGlued_of_lt ops (by omega)]
          exact List.getElem?_concat_length
      | succ i =>
          rw [List.getElem?_cons_succ] at hop
          have hnode := @ih (d.getGlued first) i hop
          rw [hlen, show d.nodes.length + 1 + i = d.nodes.length + (i + 1) by omega] at hnode
          rw [hnode]
          cases i with
          | zero => rfl
          | succ i =>
              rw [CallDag.gluedNode, CallDag.gluedNode, hlen,
                show d.nodes.length + 1 + i = d.nodes.length + (i + 1) by omega]

/-! ## Glued nodes in a schedule -/

/-- The graph of a block has these nodes, with the edges they were built with. Nothing
is said about its other nodes. -/
def HasNodes (G : Graph Nat) (d : CallDag α) : Prop :=
  ∀ k node, d.nodes[k]? = some node → G.preds k = node.chain ++ node.operands ∧ G.glue k = node.glue

/-- Nodes glued onto `d` stand together, behind the chain they were glued to. -/
theorem glued_order {G : Graph Nat} {d : CallDag α} {ops : List (NodeOp α)} {order : List Nat}
    (hG : HasNodes G (ops.foldl CallDag.getGlued d)) (hs : Scheduled G order) (hne : ops ≠ [])
    (hall : ∀ k < (ops.foldl CallDag.getGlued d).nodes.length, k ∈ order) :
    ∃ before behind, order = before ++ List.range' d.nodes.length ops.length ++ behind ∧
      d.Chain ∈ before := by
  have hglue : (List.range' d.nodes.length ops.length).IsChain fun p n => G.glue n = some p := by
    rw [List.isChain_iff_getElem]
    intro i hi
    rw [List.length_range'] at hi
    have hnode := nodes_getGlued (d := d) (List.getElem?_eq_getElem hi)
    simp only [List.getElem_range', Nat.one_mul]
    exact (hG _ _ hnode).2
  have hmem : ∀ k ∈ List.range' d.nodes.length ops.length, k ∈ order := by
    intro k hk
    rw [List.mem_range'_1] at hk
    apply hall
    rw [length_nodes_getGlued]
    exact hk.2
  rcases List.exists_cons_of_ne_nil hne with ⟨op, rest, rfl⟩
  rw [List.length_cons, List.range'_succ] at hglue hmem ⊢
  rcases hs.glued_run hglue hmem with ⟨before, behind, horder⟩
  refine ⟨before, behind, horder, ?_⟩
  have hfirst := (hG _ _ (nodes_getGlued (d := d) (i := 0) rfl)).1
  apply hs.after before (List.range' (d.nodes.length + 1) rest.length ++ behind) d.nodes.length
  · simpa using horder
  · rw [Nat.add_zero] at hfirst
    rw [hfirst]
    simp [CallDag.gluedNode]

/-! ## Schedules of a block with a call -/

def firstGlued (call : LoweredCall α) : Nat := (sideDag call).nodes.length

def gluedRun (call : LoweredCall α) (results : List (Reg × MVT)) : List Nat :=
  List.range' (firstGlued call) (gluedOps call results).length

variable {call : LoweredCall α} {results : List (Reg × MVT)}

theorem length_gluedOps_pos : 0 < (gluedOps call results).length := by
  rw [gluedOps, List.length_append, List.length_cons]
  omega

theorem nodes_side {k : Nat} (hk : k < firstGlued call) :
    (lowerCallNodes call results).nodes[k]? = (sideDag call).nodes[k]? := by
  rw [lowerCallNodes_eq, nodes_getGlued_of_lt _ hk]

theorem length_lowerCallNodes :
    (lowerCallNodes call results).nodes.length = firstGlued call + (gluedOps call results).length := by
  rw [lowerCallNodes_eq, length_nodes_getGlued]
  rfl

theorem firstGlued_of_nil (h : call.memOps = []) :
    firstGlued call = 2 ∧ (sideDag call).Chain = 1 := by
  simp only [firstGlued, sideDag, h]
  exact ⟨rfl, rfl⟩

theorem sideDag_of_ne_nil (h : call.memOps ≠ []) :
    firstGlued call = 4 + call.memOps.length ∧ (sideDag call).Chain = 3 + call.memOps.length ∧
      (sideDag call).nodes[2]? = some ⟨.copyStackPtr, [1], [], none⟩ ∧
      (∀ i op, call.memOps[i]? = some op →
        (sideDag call).nodes[3 + i]? = some ⟨.memOp op, [1], [2], none⟩) ∧
      (sideDag call).nodes[3 + call.memOps.length]? =
        some ⟨.tokenFactor, List.range' 3 call.memOps.length, [], none⟩ := by
  have hdag : (sideDag call).nodes =
      [⟨.entryToken, [], [], none⟩, ⟨.callSeqStart call.numBytes, [0], [], none⟩,
        ⟨.copyStackPtr, [1], [], none⟩] ++ (call.memOps.map fun op => ⟨.memOp op, [1], [2], none⟩) ++
          [⟨.tokenFactor, List.range' 3 call.memOps.length, [], none⟩] ∧
      (sideDag call).Chain = 3 + call.memOps.length := by
    unfold sideDag
    cases hops : call.memOps with
    | nil => exact absurd hops h
    | cons op ops => exact ⟨rfl, rfl⟩
  rcases hdag with ⟨hnodes, hchain⟩
  rw [firstGlued, hnodes]
  refine ⟨?_, hchain, rfl, ?_, ?_⟩
  · rw [List.length_append, List.length_append, List.length_map]
    show 3 + _ + 1 = _
    omega
  · intro i op hop
    have hi := (List.getElem?_eq_some_iff.mp hop).1
    rw [List.append_assoc, List.getElem?_append_right (Nat.le_add_right 3 i), List.length_cons,
      List.length_cons, List.length_cons, List.length_nil, Nat.add_sub_cancel_left,
      List.getElem?_append_left (by rw [List.length_map]; exact hi), List.getElem?_map, hop]
    rfl
  · rw [List.getElem?_append_right (by simp; omega)]
    simp [show 3 + call.memOps.length - (call.memOps.length + 1 + 1 + 1) = 0 by omega]

theorem node_start : (lowerCallNodes call results).nodes[1]? =
    some ⟨.callSeqStart call.numBytes, [0], [], none⟩ := by
  rw [nodes_side]
  · unfold sideDag
    cases call.memOps with
    | nil => rfl
    | cons op ops => rfl
  · rcases List.eq_nil_or_concat call.memOps with hnil | ⟨ops, op, hops⟩
    · have := (firstGlued_of_nil hnil).1
      omega
    · have := (@sideDag_of_ne_nil _ call (by simp [hops])).1
      omega

theorem lowerCallNodes_glued {i : Nat} {op : NodeOp α} (hop : (gluedOps call results)[i]? = some op) :
    (lowerCallNodes call results).nodes[firstGlued call + i]? =
      some ((sideDag call).gluedNode op i) := by
  rw [lowerCallNodes_eq]
  exact nodes_getGlued hop

/-- What every schedule of the block looks like around the call: the glued run without
a gap, in front of it the start of the call sequence, and between the two every store
of an argument behind the copy of the stack pointer. -/
structure CallShape (call : LoweredCall α) (results : List (Reg × MVT))
    (order before between behind : List Nat) : Prop where
  order_eq : order = before ++ 1 :: between ++ (gluedRun call results ++ behind)
  side : ∀ k ∈ between, k < (lowerCallNodes call results).nodes.length →
    2 ≤ k ∧ k < firstGlued call
  stores : call.memOps ≠ [] → ∃ front back, between = front ++ 2 :: back ∧
    ∀ i < call.memOps.length, 3 + i ∈ back

theorem preds_side {G : Graph Nat} (hG : HasNodes G (lowerCallNodes call results)) {k : Nat}
    {node : SDNode α} (hk : k < firstGlued call) (hnode : (sideDag call).nodes[k]? = some node) :
    G.preds k = node.chain ++ node.operands := by
  rw [← nodes_side hk] at hnode
  exact (hG k node hnode).1

theorem side_mem {G : Graph Nat} (hG : HasNodes G (lowerCallNodes call results))
    {pre : List Nat} (hpre : Scheduled G pre) (hchain : (sideDag call).Chain ∈ pre) :
    1 ∈ pre ∧ (call.memOps ≠ [] → 2 ∈ pre ∧ ∀ i < call.memOps.length, 3 + i ∈ pre) := by
  by_cases hnil : call.memOps = []
  · rw [(firstGlued_of_nil hnil).2] at hchain
    exact ⟨hchain, fun h => absurd hnil h⟩
  · rcases sideDag_of_ne_nil hnil with ⟨hfirst, hlast, hptr, hops, htoken⟩
    rw [hlast] at hchain
    have hstore : ∀ i < call.memOps.length, 3 + i ∈ pre := by
      intro i hi
      apply hpre.pred_mem hchain
      rw [preds_side hG (by omega) htoken, List.append_nil, List.mem_range'_1]
      omega
    have hpos := List.length_pos_of_ne_nil hnil
    have hop := hops 0 _ (List.getElem?_eq_getElem hpos)
    have hpreds := preds_side hG (by omega) hop
    exact ⟨hpre.pred_mem (hstore 0 hpos) (by rw [hpreds]; simp),
      fun _ => ⟨hpre.pred_mem (hstore 0 hpos) (by rw [hpreds]; simp), hstore⟩⟩

theorem exists_callShape {G : Graph Nat} (hG : HasNodes G (lowerCallNodes call results))
    {order : List Nat} (hs : Scheduled G order)
    (hall : ∀ k < (lowerCallNodes call results).nodes.length, k ∈ order) :
    ∃ before between behind, CallShape call results order before between behind := by
  rw [lowerCallNodes_eq] at hG hall
  have hne : gluedOps call results ≠ [] := List.ne_nil_of_length_pos length_gluedOps_pos
  rcases glued_order hG hs hne hall with ⟨pre, behind, horder, hchain⟩
  rw [← lowerCallNodes_eq] at hG
  rw [List.append_assoc] at horder
  subst horder
  have hpre := hs.front
  rcases side_mem hG hpre hchain with ⟨hstart, hstores⟩
  rcases List.append_of_mem hstart with ⟨before, between, rfl⟩
  have hzero : 0 ∈ before := by
    apply hpre.after before between 1 0 rfl
    rw [(hG 1 _ node_start).1]
    simp
  refine ⟨before, between, behind, rfl, ?_, ?_⟩
  · intro k hk hlt
    have hnodup := hs.nodup
    rw [List.nodup_append] at hnodup
    rcases hnodup with ⟨hnodup, _, hrest⟩
    rw [List.nodup_append] at hnodup
    rcases hnodup with ⟨_, hcons, hfresh⟩
    have hk0 : k ≠ 0 := fun h => hfresh 0 hzero k (by simp [hk]) h.symm
    have hk1 : k ≠ 1 := fun h => (List.nodup_cons.mp hcons).1 (h ▸ hk)
    refine ⟨by omega, Nat.lt_of_not_le fun hle => ?_⟩
    apply hrest k (by simp [hk]) k _ rfl
    rw [length_lowerCallNodes] at hlt
    rw [List.mem_append, List.mem_range'_1]
    exact Or.inl ⟨hle, hlt⟩
  · intro hne
    rcases hstores hne with ⟨hptr, hops⟩
    rcases sideDag_of_ne_nil hne with ⟨hfirst, _, hptrNode, hopNodes, _⟩
    have htwo := hpre.mem_behind hptr (by rw [preds_side hG (by omega) hptrNode]; simp)
    rcases List.append_of_mem htwo with ⟨front, back, rfl⟩
    refine ⟨front, back, rfl, ?_⟩
    intro i hi
    have hpre' : Scheduled G ((before ++ 1 :: front) ++ 2 :: back) := by simpa using hpre
    apply hpre'.mem_behind (by simpa using hops i hi)
    rw [preds_side hG (by omega) (hopNodes i _ (List.getElem?_eq_getElem hi))]
    simp

/-! ## A block with nothing else -/

def CallDag.graph (d : CallDag α) : Graph Nat :=
  ⟨fun k => match d.nodes[k]? with
    | some node => node.chain ++ node.operands
    | none => [],
  fun k => d.nodes[k]?.bind (·.glue)⟩

theorem CallDag.hasNodes_graph (d : CallDag α) : HasNodes d.graph d := by
  intro k node hnode
  simp [CallDag.graph, hnode]

/-- Nodes only refer to nodes built before them, and by glue to the last one. -/
structure WellBuilt (d : CallDag α) : Prop where
  chain : d.Chain < d.nodes.length
  flag : ∀ g, d.InFlag = some g → g + 1 = d.nodes.length
  back : ∀ k node, d.nodes[k]? = some node →
    (∀ p ∈ node.chain ++ node.operands, p < k) ∧ ∀ g, node.glue = some g → g + 1 = k

theorem WellBuilt.getGlued {d : CallDag α} (h : WellBuilt d) (op : NodeOp α) :
    WellBuilt (d.getGlued op) where
  chain := by simp [CallDag.getGlued]
  flag := by simp [CallDag.getGlued]
  back := by
    intro k node hnode
    rcases Nat.lt_trichotomy k d.nodes.length with hk | rfl | hk
    · exact h.back k node (by rw [← hnode]; exact (List.getElem?_append_left hk).symm)
    · have hnew : (d.getGlued op).nodes[d.nodes.length]? = some ⟨op, [d.Chain], [], d.InFlag⟩ :=
        List.getElem?_concat_length
      rw [hnew] at hnode
      cases hnode
      exact ⟨by simpa using h.chain, h.flag⟩
    · have hlt := (List.getElem?_eq_some_iff.mp hnode).1
      simp only [CallDag.getGlued, List.length_append, List.length_singleton] at hlt
      omega

theorem wellBuilt_sideDag (call : LoweredCall α) : WellBuilt (sideDag call) := by
  have hfront : (sideDag call).InFlag = none ∧
      (sideDag call).nodes[0]? = some ⟨.entryToken, [], [], none⟩ ∧
      (sideDag call).nodes[1]? = some ⟨.callSeqStart call.numBytes, [0], [], none⟩ := by
    unfold sideDag
    cases call.memOps with
    | nil => exact ⟨rfl, rfl, rfl⟩
    | cons op ops => exact ⟨rfl, rfl, rfl⟩
  rcases hfront with ⟨hflag, hentry, hstart⟩
  have hsmall : ∀ k node, k < 2 → (sideDag call).nodes[k]? = some node →
      (∀ p ∈ node.chain ++ node.operands, p < k) ∧ ∀ g, node.glue = some g → g + 1 = k := by
    intro k node hk hnode
    rcases Nat.lt_or_ge k 1 with h1 | h1
    · obtain rfl : k = 0 := by omega
      rw [hentry] at hnode
      cases hnode
      simp
    · obtain rfl : k = 1 := by omega
      rw [hstart] at hnode
      cases hnode
      simp
  by_cases hnil : call.memOps = []
  · rcases firstGlued_of_nil hnil with ⟨hlen, hchain⟩
    refine ⟨?_, by simp [hflag], ?_⟩
    · show (sideDag call).Chain < firstGlued call
      omega
    · intro k node hnode
      have hk : k < firstGlued call := (List.getElem?_eq_some_iff.mp hnode).1
      exact hsmall k node (by omega) hnode
  · rcases sideDag_of_ne_nil hnil with ⟨hlen, hchain, hptr, hops, htoken⟩
    refine ⟨?_, by simp [hflag], ?_⟩
    · show (sideDag call).Chain < firstGlued call
      omega
    · intro k node hnode
      have hk : k < firstGlued call := (List.getElem?_eq_some_iff.mp hnode).1
      rcases Nat.lt_or_ge k 2 with hlo | hlo
      · exact hsmall k node hlo hnode
      · obtain ⟨i, rfl⟩ : ∃ i, k = 2 + i := ⟨k - 2, by omega⟩
        cases i with
        | zero =>
            rw [Nat.add_zero, hptr] at hnode
            cases hnode
            simp
        | succ i =>
            rw [show 2 + (i + 1) = 3 + i by omega] at hnode ⊢
            rcases Nat.lt_or_ge i call.memOps.length with hi | hi
            · rw [hops i _ (List.getElem?_eq_getElem hi)] at hnode
              cases hnode
              simp
              omega
            · obtain rfl : i = call.memOps.length := by omega
              rw [htoken] at hnode
              cases hnode
              simp

theorem WellBuilt.foldl_getGlued {d : CallDag α} (h : WellBuilt d) (ops : List (NodeOp α)) :
    WellBuilt (ops.foldl CallDag.getGlued d) := by
  induction ops generalizing d with
  | nil => exact h
  | cons op ops ih => exact ih (h.getGlued op)

theorem wellBuilt_lowerCallNodes (call : LoweredCall α) (results : List (Reg × MVT)) :
    WellBuilt (lowerCallNodes call results) := by
  rw [lowerCallNodes_eq]
  exact (wellBuilt_sideDag call).foldl_getGlued _

theorem WellBuilt.scheduled {d : CallDag α} (h : WellBuilt d) :
    Scheduled d.graph (List.range d.nodes.length) := by
  apply scheduled_range
  intro k hk
  have hnode := List.getElem?_eq_getElem hk
  rcases d.hasNodes_graph k _ hnode with ⟨hpreds, hglue⟩
  rw [hpreds, hglue]
  exact h.back k _ hnode

end Mandarin.CallConv
