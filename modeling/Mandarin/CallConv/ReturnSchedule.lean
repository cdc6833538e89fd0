import Mandarin.CallConv.CallSchedule
import Mandarin.CallConv.VarArgs

/-! # A return in any schedule

The copies of the return values and the return itself are one run, so no schedule puts
anything between a copy and the return. Whatever the rest of the block does, the values
are in their registers when control goes back.
-/

namespace Mandarin.CallConv

open Memory Schedule

/-- Values of several words are copied to registers lane by lane. -/
def returnMachine : NodeMachine (List Word) :=
  ⟨MemOp.fill, fun regs p => writeReg regs p.1 p.2.words, fun regs mem => (regs, mem)⟩

def returnOps {α : Type} (copies : List (Reg × α)) : List (NodeOp α) :=
  (copies.map fun p => (p.1, ArgNode.value p.2)).map (fun p => .copyToReg p.1 p.2) ++
    [.ret (copies.map Prod.fst)]

def returnRun {α : Type} (copies : List (Reg × α)) : List Nat :=
  List.range' 1 (returnOps copies).length

theorem lowerReturnNodes_eq {α : Type} (copies : List (Reg × α)) :
    lowerReturnNodes copies = (returnOps copies).foldl CallDag.getGlued .entry := by
  rw [returnOps, List.foldl_append, List.foldl_map, List.foldl_map]
  rfl

theorem exec_returnRun (copies : List (Reg × List Word)) (other : Nat → NodeState → NodeState)
    (s : NodeState) :
    exec (nodeStep returnMachine (lowerReturnNodes copies) other) (returnRun copies) s =
      { s with regs := copyOut copies s.regs } := by
  have hop : ∀ i op, (returnOps copies)[i]? = some op →
      ∃ node, (lowerReturnNodes copies).nodes[1 + i]? = some node ∧ node.op = op := by
    intro i op hop
    rw [lowerReturnNodes_eq]
    refine ⟨_, nodes_getGlued (d := CallDag.entry) hop, ?_⟩
    cases i with
    | zero => rfl
    | succ i => rfl
  rw [returnRun, exec_range' hop, returnOps, List.foldl_append, foldl_copyToReg, List.foldl_map]
  rfl

/-- A return in any schedule of its block: nothing stands between the copies and the
return, and there the caller's registers for values of these types hold the values. -/
theorem return_scheduled {outs ins : List ArgT} (htypes : outs.map (·.VT) = ins.map (·.VT))
    (hlanes : ((ins.map (·.VT)).map numLanes).sum ≤ 4) {outVals : List (List Word)}
    (hlen : outVals.map List.length = (ins.map (·.VT)).map numLanes) :
    ∃ copies reads, lowerReturn outs outVals = some copies ∧ lowerCallResult ins = some reads ∧
      ∀ (G : Graph Nat) (order : List Nat), HasNodes G (lowerReturnNodes copies) →
        Scheduled G order → (∀ k < (lowerReturnNodes copies).nodes.length, k ∈ order) →
        ∃ before behind, order = before ++ returnRun copies ++ behind ∧
          ∀ other (s : NodeState),
            let step := nodeStep returnMachine (lowerReturnNodes copies) other
            let exit := exec step (before ++ returnRun copies) s
            exit.mem = (exec step before s).mem ∧
            reads.map (fun p => readReg exit.regs p.1) = outVals := by
  rcases returnsBack_of_sum_le hlanes outs ins htypes rfl with ⟨_, _, _, _, _, _, _, hback⟩
  rcases hback outVals (fun _ => 0) hlen with ⟨copies, reads, hcopies, hreads, _, _⟩
  refine ⟨copies, reads, hcopies, hreads, ?_⟩
  intro G order hG hs hall
  rw [lowerReturnNodes_eq] at hG hall
  have hne : returnOps copies ≠ [] := by simp [returnOps]
  rcases glued_order hG hs hne hall with ⟨before, behind, horder, _⟩
  refine ⟨before, behind, horder, ?_⟩
  intro other s step exit
  have hexit : exit = { exec step before s with
      regs := copyOut copies (exec step before s).regs } := by
    show exec step (before ++ returnRun copies) s = _
    rw [exec_append, exec_returnRun]
  rw [hexit]
  refine ⟨rfl, ?_⟩
  obtain ⟨copies', reads', hcopies', hreads', _, hread⟩ :=
    hback outVals (exec step before s).regs hlen
  rw [hcopies, Option.some.injEq] at hcopies'
  rw [hreads, Option.some.injEq] at hreads'
  subst hcopies' hreads'
  exact hread

theorem wellBuilt_lowerReturnNodes {α : Type} (copies : List (Reg × α)) :
    WellBuilt (lowerReturnNodes copies) := by
  rw [lowerReturnNodes_eq]
  apply WellBuilt.foldl_getGlued
  refine ⟨Nat.one_pos, by simp [CallDag.entry], ?_⟩
  intro k node hnode
  obtain rfl : k = 0 := Nat.lt_one_iff.mp (List.getElem?_eq_some_iff.mp hnode).1
  cases hnode
  simp

/-- A pair and a word, returned in the order in which the nodes are built. -/
theorem return_scheduled_example :
    ∃ copies reads before, lowerReturn [entryOf .v2i32, entryOf .i32] [[1, 2], [3]] = some copies ∧
      lowerCallResult [entryOf .v2i32, entryOf .i32] = some reads ∧
      reads.map (fun p => readReg (exec (nodeStep returnMachine (lowerReturnNodes copies)
        fun _ s => s) (before ++ returnRun copies) ⟨fun _ => 0, fun _ => 0, 0, []⟩).regs p.1) =
        [[1, 2], [3]] := by
  obtain ⟨copies, reads, hcopies, hreads, hschedule⟩ :=
    @return_scheduled [entryOf .v2i32, entryOf .i32] [entryOf .v2i32, entryOf .i32] rfl (by decide)
      [[1, 2], [3]] rfl
  obtain ⟨before, _, _, hrun⟩ := hschedule _ _ (lowerReturnNodes copies).hasNodes_graph
    (wellBuilt_lowerReturnNodes copies).scheduled fun k hk => List.mem_range.mpr hk
  rcases hrun (fun _ s => s) ⟨fun _ => 0, fun _ => 0, 0, []⟩ with ⟨_, hread⟩
  exact ⟨copies, reads, before, hcopies, hreads, hread⟩

end Mandarin.CallConv
