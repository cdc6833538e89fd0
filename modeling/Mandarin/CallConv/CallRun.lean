import Mandarin.CallConv.CallSchedule

/-! # A whole call

With the arguments of a call and the values of its return put in: in every schedule of
the block the callee is entered with each argument in place, and the caller reads the
values the callee returned.
-/

namespace Mandarin.CallConv

open Memory Layout Schedule

/-! ## What the memory operations touch -/

/-- The outgoing stack area and the aggregates passed by value. -/
def ArgMemory (args : List CallArg) (sp a : Word) : Prop :=
  (sp.toNat ≤ a.toNat ∧ a.toNat < sp.toNat + stackSize (callArgs args)) ∨
    ∃ b, CallArg.byVal b ∈ args ∧ ∃ i < b.size.toNat, a = b.src + BitVec.ofNat 32 i

variable {args : List CallArg} {sp : Word}

theorem argMemory_source {p : ArgT × Word} (hp : p ∈ callEntries 0 args)
    (hb : p.1.flags.isByVal = true) {i : Nat} (hi : i < p.1.flags.byValSize.toNat) :
    ArgMemory args sp (p.2 + BitVec.ofNat 32 i) := by
  rcases (mem_callEntries hp).2.2 hb with ⟨b, hmem, hflags, hsrc⟩
  rw [hflags] at hi
  exact Or.inr ⟨b, hmem, i, hi, by rw [hsrc]⟩

theorem Passable.confined (h : Passable args sp) {ts : List (Transfer Word)}
    (ht : Transfers (callEntries 0 args) (CallConv.callSlots args) ts) :
    Confined (ArgMemory args sp) ((ts.filterMap Transfer.mem?).map (MemOp.update sp)) where
  writes := by
    intro u hu a ha
    have hfits := h.fits
    have hbounds := (ht.fills h.callSlots).bounds hu
    rw [stop_callSlots h.count] at hbounds
    rw [Region.contains_iff (by omega)] at ha
    exact Or.inl (by omega)
  reads := by
    intro u hu m m' hsame i hi
    rcases ht.mem_ops h.callSlots hu with ⟨k, p, x, op, hp, hx, hop, rfl⟩
    apply h.callSlots.reads hp hx hop hi
    intro hb hi'
    exact hsame _ (argMemory_source (List.mem_of_getElem? hp) hb hi')

theorem Received.congr {regs : RegFile} {mem m m' : Mem 32} {a : ArgT} {v : Word} {x : InVal}
    (h : Received regs mem m a v x) (hsame : a.flags.isByVal = true →
      ∀ i < a.flags.byValSize.toNat, m (v + BitVec.ofNat 32 i) = m' (v + BitVec.ofNat 32 i)) :
    Received regs mem m' a v x := by
  unfold Received at h ⊢
  by_cases hb : a.flags.isByVal = true
  · rw [if_pos hb] at h ⊢
    rcases h with ⟨p, hp, hbytes⟩
    exact ⟨p, hp, fun i hi => (hbytes i hi).trans (hsame hb i hi)⟩
  · rw [if_neg hb] at h ⊢
    exact h

/-- The callee is entered behind the memory operations, in some order, and the copies to
registers. -/
theorem Passable.exec_entry (h : Passable args sp) {ts : List (Transfer Word)} {numBytes : Word}
    (ht : Transfers (callEntries 0 args) (CallConv.callSlots args) ts)
    {reads : List (Reg × MVT)} {order before between behind : List Nat}
    (hshape : CallShape ⟨numBytes, ts.filterMap Transfer.mem?, ts.filterMap Transfer.reg?⟩ reads order
      before between behind) (hnodup : order.Nodup) {other : Nat → NodeState → NodeState}
    (hother : Keeps (ArgMemory args sp) other) (callee : RegFile → Mem 32 → RegFile × Mem 32)
    {s : NodeState} (hsp : s.regs 30 = sp) :
    let call : LoweredCall Word :=
      ⟨numBytes, ts.filterMap Transfer.mem?, ts.filterMap Transfer.reg?⟩
    let step := nodeStep ⟨MemOp.update, copyToReg, callee⟩ (lowerCallNodes call reads) other
    ∃ (ops : List (MemOp Word)) (m : Mem 32), ops.Perm call.memOps ∧
      (∀ a, ArgMemory args sp a → m a = s.mem a) ∧
      (exec step between s).mem = runAll (ops.map (MemOp.update sp)) m ∧
      (exec step between s).regs 30 = sp ∧
      exec step (between ++ regCopies call) s = { exec step between s with
        regs := copyToRegs call.regsToPass (exec step between s).regs } := by
  intro call step
  have hbetween : between.Nodup := by
    rw [hshape.order_eq] at hnodup
    exact (List.nodup_cons.mp (List.nodup_append.mp (List.nodup_append.mp hnodup).1).2.1).2
  obtain ⟨ops, m, hops, hm, hmem, hsp'⟩ := hshape.exec_between hbetween hother
    (M := ⟨MemOp.update, copyToReg, callee⟩) (h.confined ht) hsp
  refine ⟨ops, m, hops, hm, hmem, hsp', ?_⟩
  rw [exec_append, exec_regCopies]
  rfl

/-! ## The callee -/

/-- A callee that runs a body and lowers its return values. -/
def returning (outs : List ArgT)
    (body : RegFile → Mem 32 → (RegFile × Mem 32) × List (List Word)) (regs : RegFile)
    (mem : Mem 32) : RegFile × Mem 32 :=
  (copyOut ((lowerReturn outs (body regs mem).2).getD []) (body regs mem).1.1,
    (body regs mem).1.2)

def callMachine (outs : List ArgT)
    (body : RegFile → Mem 32 → (RegFile × Mem 32) × List (List Word)) : NodeMachine Word :=
  ⟨MemOp.update, copyToReg, returning outs body⟩

theorem exists_reads {outs ins : List ArgT} (htypes : outs.map (·.VT) = ins.map (·.VT))
    (hlanes : ((ins.map (·.VT)).map numLanes).sum ≤ 4) :
    ∃ reads, lowerCallResult ins = some reads ∧
      ∀ body regs mem, (body regs mem).2.map List.length = (ins.map (·.VT)).map numLanes →
        reads.map (fun p => readReg (returning outs body regs mem).1 p.1) = (body regs mem).2 := by
  rcases returnsBack_of_sum_le hlanes outs ins htypes rfl with ⟨_, _, _, _, _, _, _, hback⟩
  obtain ⟨_, reads, _, hreads, _⟩ :=
    hback ((ins.map (·.VT)).map fun VT => List.replicate (numLanes VT) 0) (fun _ => 0)
      (by simp [Function.comp_def])
  refine ⟨reads, hreads, ?_⟩
  intro body regs mem hlen
  obtain ⟨copies, reads', hcopies, hreads', _, hread⟩ :=
    hback (body regs mem).2 (body regs mem).1.1 hlen
  rw [hreads, Option.some.injEq] at hreads'
  subst hreads'
  rw [returning, hcopies]
  exact hread

/-! ## The call -/

/-- A call in any schedule of its block: the glued run has no gap, the callee is entered
with every argument in place, and behind the run the caller has the values the body of
the callee returned, as long as other nodes in front of the run keep the memory of the
arguments. -/
theorem call_scheduled (h : Passable args sp) {outs ins : List ArgT}
    (htypes : outs.map (·.VT) = ins.map (·.VT))
    (hlanes : ((ins.map (·.VT)).map numLanes).sum ≤ 4) :
    ∃ call formals reads, lowerCall false (callArgs args) (callVals args) = some call ∧
      lowerFormalArguments false (callArgs args) = some formals ∧
      lowerCallResult ins = some reads ∧
      ∀ (G : Graph Nat) (order : List Nat), HasNodes G (lowerCallNodes call reads) →
        Scheduled G order → (∀ k < (lowerCallNodes call reads).nodes.length, k ∈ order) →
        ∃ before between behind,
          order = before ++ 1 :: between ++ (gluedRun call reads ++ behind) ∧
          ∀ body other (s : NodeState), Keeps (ArgMemory args sp) other → s.regs 30 = sp →
            (∀ regs mem, (body regs mem).2.map List.length = (ins.map (·.VT)).map numLanes) →
            let step := nodeStep (callMachine outs body) (lowerCallNodes call reads) other
            let entry := exec step (between ++ regCopies call) s
            (∀ (k : Nat) (a : ArgT) (v : Word) (x : InVal), (callArgs args)[k]? = some a →
              (callVals args)[k]? = some v → formals.inVals[k]? = some x →
              Received entry.regs entry.mem s.mem a v x) ∧
            (exec step (between ++ gluedRun call reads) s).inVals =
              (exec step between s).inVals ++ (body entry.regs entry.mem).2 := by
  rcases h.lowered with ⟨numBytes, ts, xs, ht, hcall, hformals, _, hvalue⟩
  rcases exists_reads htypes hlanes with ⟨reads, hreads, hreturn⟩
  refine ⟨_, _, reads, hcall, hformals, hreads, ?_⟩
  intro G order hG hs hall
  rcases exists_callShape hG hs hall with ⟨before, between, behind, hshape⟩
  refine ⟨before, between, behind, hshape.order_eq, ?_⟩
  intro body other s hother hsp hlen step entry
  obtain ⟨ops, m, hops, hm, hmem, hsp', hentry⟩ :=
    h.exec_entry ht hshape hs.nodup hother (returning outs body) hsp
  have hentry : entry = { exec step between s with
      regs := copyToRegs (ts.filterMap Transfer.reg?) (exec step between s).regs } := hentry
  constructor
  · intro k a v x ha hv hx
    rw [callArgs, List.getElem?_map] at ha
    rcases Option.map_eq_some_iff.mp ha with ⟨p, hp, rfl⟩
    rw [callVals, List.getElem?_map, hp] at hv
    cases hv
    have hk := (List.getElem?_eq_some_iff.mp hp).1
    have hslot := List.getElem?_eq_getElem (h.callSlots.length ▸ hk)
    rw [hvalue k p _ hp hslot, Option.some.injEq] at hx
    have hreceived := ht.received h.callSlots hops (exec step between s).regs hsp' m hp hslot
    rw [hentry, ← hx]
    have hmem' : (exec step between s).mem = runAll (ops.map (MemOp.update sp)) m := hmem
    rw [← hmem'] at hreceived
    apply hreceived.congr
    intro hb i hi
    exact hm _ (argMemory_source (List.mem_of_getElem? hp) hb hi)
  · rw [exec_append, exec_gluedRun, hentry]
    exact congrArg _ (hreturn body _ _ (hlen _ _))

theorem exampleArgs_passable : Passable exampleArgs 0x1000 := by
  refine ⟨by decide, by decide, ?_⟩
  intro b hb i hi
  simp only [exampleArgs, List.mem_cons, CallArg.byVal.injEq, reduceCtorEq, or_false,
    List.not_mem_nil] at hb
  subst hb
  have hi' : i < 3 := hi
  interval_cases i <;> decide

/-- A callee that takes the six values and returns 42, scheduled as it was built. -/
theorem call_scheduled_example :
    ∃ call reads between, lowerCall false (callArgs exampleArgs) (callVals exampleArgs) = some call ∧
      lowerCallResult [entryOf .i32] = some reads ∧
      (exec (nodeStep (callMachine [entryOf .i32] fun regs mem => ((regs, mem), [[42]]))
        (lowerCallNodes call reads) fun _ s => s) (between ++ gluedRun call reads)
          ⟨fun _ => 0x1000, fun _ => 0, 0, []⟩).inVals =
        (exec (nodeStep (callMachine [entryOf .i32] fun regs mem => ((regs, mem), [[42]]))
          (lowerCallNodes call reads) fun _ s => s) between
            ⟨fun _ => 0x1000, fun _ => 0, 0, []⟩).inVals ++ [[42]] := by
  obtain ⟨call, _, reads, hcall, _, hreads, hschedule⟩ :=
    @call_scheduled exampleArgs 0x1000 exampleArgs_passable [entryOf .i32] [entryOf .i32] rfl
      (by decide)
  obtain ⟨_, between, _, _, hrun⟩ := hschedule _ _ (lowerCallNodes call reads).hasNodes_graph
    (wellBuilt_lowerCallNodes call reads).scheduled fun k hk => List.mem_range.mpr hk
  obtain ⟨_, hresult⟩ := hrun (fun regs mem => ((regs, mem), [[42]])) (fun _ s => s)
    ⟨fun _ => 0x1000, fun _ => 0, 0, []⟩ ⟨fun _ _ => rfl, fun _ _ => rfl, fun _ _ _ _ => rfl⟩ rfl
    fun _ _ => rfl
  exact ⟨call, reads, between, hcall, hreads, hresult⟩

end Mandarin.CallConv
