import Mandarin.Frame.Subroutine

/-! # A call of an emitted callee

The nodes of a call run in any schedule of their block, and at the call the code emitted
for the callee runs. Behind the call the caller has what the callee's body computes from
the operands of the call, and its stack and frame pointer.
-/

namespace Mandarin.Frame

open Memory Layout CallConv Schedule

variable {args : List CallArg} {sp : Word}

/-! ## At the call -/

/-- Accesses to arguments read nothing else of the caller's memory. -/
theorem accessWord_congr {m m' : Mem 32} (hsame : ∀ a, ArgMemory args sp a → m a = m' a)
    {p : Nat × Nat} (hp : InArgument args p) : accessWord m args p = accessWord m' args p := by
  obtain ⟨k, c⟩ := p
  obtain ⟨e, he, hc⟩ := hp
  rw [accessWord_eq he, accessWord_eq he]
  unfold argumentWord
  split
  · next hb =>
    have hin := hc hb
    apply loadWord_congr
    intro i hi
    rw [BitVec.add_assoc, ← BitVec.ofNat_add]
    exact hsame _ (argMemory_source (List.mem_of_getElem? he) hb (by omega))
  · rfl

/-- In every schedule the callee is entered with the caller's operands, whatever it is. -/
theorem exists_entered (h : Passable args sp) {call : LoweredCall Word}
    (hcall : lowerCall false (callArgs args) (callVals args) = some call)
    {reads : List (Reg × MVT)} {order before between behind : List Nat}
    (hshape : CallShape call reads order before between behind) (hnodup : order.Nodup)
    {other : Nat → NodeState → NodeState} (hother : Keeps (ArgMemory args sp) other)
    (callee : RegFile → Mem 32 → RegFile × Mem 32) {s : NodeState} (hsp : s.regs 30 = sp)
    (localMem : Mem 32) :
    let step := nodeStep ⟨MemOp.update, copyToReg, callee⟩ (lowerCallNodes call reads) other
    let entry := exec step (between ++ regCopies call) s
    ∃ callerMem, (∀ a, ArgMemory args sp a → callerMem a = s.mem a) ∧
      Entered sp call callerMem ⟨entryRegs entry.regs, entry.mem, localMem⟩ := by
  intro step entry
  rcases h.lowered with ⟨numBytes, ts, xs, ht, hcall', _, _, _⟩
  rw [hcall, Option.some.injEq] at hcall'
  subst hcall'
  obtain ⟨ops, m, hops, hm, hmem, hsp', hentry⟩ :=
    h.exec_entry ht hshape hnodup hother callee hsp
  have hentry : entry = { exec step between s with
      regs := copyToRegs (ts.filterMap Transfer.reg?) (exec step between s).regs } := hentry
  rw [hentry]
  exact ⟨m, hm, ⟨_, hsp', fun _ => rfl⟩, ⟨ops, hops, hmem⟩⟩

/-! ## The call -/

/-- The callee as the nodes of the call see it: the emitted code, from some local memory. -/
def Callee.run (f : Callee) (inVals : List InVal) (copies : List (Reg × Register))
    (localMem : Mem 32) (regs : RegFile) (mem : Mem 32) : RegFile × Mem 32 :=
  ((runInstrs (f.code inVals copies) ⟨entryRegs regs, mem, localMem⟩).map fun m =>
    (gprs m, m.mem)).getD (regs, mem)

def Callee.machine (f : Callee) (inVals : List InVal) (copies : List (Reg × Register))
    (localMem : Mem 32) : NodeMachine Word :=
  ⟨MemOp.update, copyToReg, f.run inVals copies localMem⟩

theorem map_zip_fst {α β γ : Type} {xs : List α} {ys : List β} (hlen : xs.length = ys.length)
    (g : α → γ) : ((xs.zip ys).map fun p => g p.1) = xs.map g := by
  calc ((xs.zip ys).map fun p => g p.1) = ((xs.zip ys).map Prod.fst).map g := by
        rw [List.map_map]
        rfl
    _ = xs.map g := by rw [List.map_fst_zip (Nat.le_of_eq hlen)]

theorem Callee.run_spec {f : Callee} {objects : List FixedObject} {inVals : List InVal}
    {callerMem mem mem' localMem : Mem 32} {results : List Word} {rs : List Reg} {regs : RegFile}
    (hfits : f.Fits args objects) (hsp : regs 30 = sp)
    (hread : Readable args inVals callerMem (frameAddress f.mf sp) ⟨entryRegs regs, mem, localMem⟩)
    (hcomputes : f.Computes sp (f.accesses.map (accessWord callerMem args)) mem mem' results)
    (hrs : ∀ r ∈ rs, ∃ n : Fin 32, r = .R n ∧ n.val < 4) :
    ∃ regs', (f.run inVals (rs.zip f.rets) localMem regs mem).2 = mem' ∧
      (f.run inVals (rs.zip f.rets) localMem regs mem).1 30 = sp ∧
      (f.run inVals (rs.zip f.rets) localMem regs mem).1 31 = regs 31 ∧
      results.length = f.rets.length ∧
      rs.map (readReg (f.run inVals (rs.zip f.rets) localMem regs mem).1) =
        rs.map (readReg (copyOut (rs.zip (results.map fun w => [w])) regs')) := by
  subst hsp
  obtain ⟨m, regs', hrun, hsp, hfp, hmem, hlen, hregs⟩ :=
    Callee.run_code (m := ⟨entryRegs regs, mem, localMem⟩) hfits hread hcomputes hrs
  have hexit : f.run inVals (rs.zip f.rets) localMem regs mem = (gprs m, m.mem) := by
    rw [Callee.run, hrun]
    rfl
  rw [hexit]
  refine ⟨regs', hmem, hsp, hfp, hlen, ?_⟩
  apply List.map_congr_left
  intro r hr
  obtain ⟨n, rfl, hn⟩ := hrs r hr
  exact congrArg (fun w => [w]) (hregs n hn)

/-- A call computes what the body of the callee, a list of the modelled instructions,
computes: with at most four words as its results, in any schedule of the block and whatever
the other nodes do but to the stack pointer and the memory of the arguments, the caller has
behind the run the words that the body makes of the operands of the call, the memory it
leaves, and its own stack and frame pointer. -/
theorem call_computes (h : Passable args sp) (harea : stackSize (callArgs args) < 2 ^ 31)
    {outs ins : List ArgT} (htypes : outs.map (·.VT) = ins.map (·.VT))
    (hscalar : ∀ a ∈ ins, numLanes a.VT = 1) (hcount : ins.length ≤ 4) :
    ∃ call formals reads, lowerCall false (callArgs args) (callVals args) = some call ∧
      lowerFormalArguments false (callArgs args) = some formals ∧
      lowerCallResult ins = some reads ∧
      ∀ f : Callee, f.Fits args formals.fixedObjects → f.rets.length = ins.length →
        ∃ copies, lowerReturn outs f.rets = some copies ∧
          ∀ (G : Graph Nat) (order : List Nat), HasNodes G (lowerCallNodes call reads) →
            Scheduled G order → (∀ k < (lowerCallNodes call reads).nodes.length, k ∈ order) →
            ∃ before between behind,
              order = before ++ 1 :: between ++ (gluedRun call reads ++ behind) ∧
              ∀ localMem other (s : NodeState), Keeps (ArgMemory args sp) other → s.regs 30 = sp →
                let step := nodeStep (f.machine formals.inVals copies localMem)
                  (lowerCallNodes call reads) other
                let entry := exec step (between ++ regCopies call) s
                let exit := exec step (between ++ gluedRun call reads) s
                ∀ mem' results, f.Computes sp (f.accesses.map (accessWord s.mem args)) entry.mem
                    mem' results →
                  exit.inVals = (exec step between s).inVals ++ results.map (fun w => [w]) ∧
                    exit.mem = mem' ∧ exit.regs 30 = sp ∧ exit.regs 31 = entry.regs 31 := by
  obtain ⟨call, formals, hcall, hformals, hreadable⟩ := exists_readable h harea
  obtain ⟨rs, hrs⟩ := exists_assignRets hscalar hcount
  have hrsOut : assignRets .none (outs.map (·.VT)) = some rs := by rw [htypes, hrs]
  have hlanes : ∀ VT ∈ ins.map (·.VT), numLanes VT = 1 := by
    intro VT hVT
    obtain ⟨a, ha, rfl⟩ := List.mem_map.mp hVT
    exact hscalar a ha
  have hsingle := assignRets_scalar hrs hlanes
  have hlenRs : rs.length = ins.length := by
    simpa using congrArg List.length (assignRets_spec hrs).1
  refine ⟨call, formals, _, hcall, hformals, lowerCallResult_eq hrs, ?_⟩
  intro f hfits hrets
  refine ⟨_, lowerReturn_eq hrsOut (by rw [hrets, hlenRs]), ?_⟩
  intro G order hG hs hall
  obtain ⟨before, between, behind, hshape⟩ := exists_callShape hG hs hall
  refine ⟨before, between, behind, hshape.order_eq, ?_⟩
  intro localMem other s hother hsp step entry exit mem' results hcomputes
  obtain ⟨callerMem, hsame,
      (hentered : Entered sp call callerMem ⟨entryRegs entry.regs, entry.mem, localMem⟩)⟩ :=
    exists_entered h hcall hshape hs.nodup hother
      (f.run formals.inVals (rs.zip f.rets) localMem) hsp localMem
  obtain ⟨hspEntry, hread⟩ := hreadable callerMem _ f.mf hentered hfits.hasFP hfits.objects
  have hwords : f.accesses.map (accessWord s.mem args) =
      f.accesses.map (accessWord callerMem args) := by
    apply List.map_congr_left
    intro p hp
    exact (accessWord_congr hsame (hfits.accesses p hp)).symm
  rw [hwords] at hcomputes
  obtain ⟨regs', hmem, hsp', hfp', hlen, hvals⟩ :=
    Callee.run_spec hfits hspEntry hread hcomputes hsingle
  have hentry : entry = { exec step between s with
      regs := copyToRegs call.regsToPass (exec step between s).regs } := by
    show exec step (between ++ _) s = _
    rw [exec_append, exec_regCopies]
    rfl
  have hexit : exit = { entry with
      regs := (f.run formals.inVals (rs.zip f.rets) localMem entry.regs entry.mem).1
      mem := (f.run formals.inVals (rs.zip f.rets) localMem entry.regs entry.mem).2
      inVals := entry.inVals ++ (rs.zip (ins.map (·.VT))).map fun p =>
        readReg (f.run formals.inVals (rs.zip f.rets) localMem entry.regs entry.mem).1 p.1 } := by
    show exec step (between ++ _) s = _
    rw [exec_append, exec_gluedRun_eq, hentry]
    rfl
  have hreads : ((rs.zip (ins.map (·.VT))).map fun p =>
      readReg (f.run formals.inVals (rs.zip f.rets) localMem entry.regs entry.mem).1 p.1) =
        results.map fun w => [w] := by
    rw [map_zip_fst (by rw [List.length_map, hlenRs]), hvals]
    exact read_words hrs hscalar (hlen.trans (hrets.trans hlenRs.symm)) regs'
  rw [hexit, hreads]
  refine ⟨?_, hmem, hsp', hfp'⟩
  rw [hentry]

def increment (objects : List FixedObject) : Callee :=
  ⟨fixedFrame objects, [(5, 0)], [⟨.ADDri, [.reg (.vreg 0), .reg (.vreg 0), .imm 1]⟩],
    [.vreg 0], 1⟩

theorem fits_increment (objects : List FixedObject) :
    (increment objects).Fits exampleArgs objects where
  hasFP := rfl
  fixedSize := rfl
  objects := hasFixedObjects_fixedFrame objects
  accesses := by
    intro p hp
    rw [List.mem_singleton.mp hp]
    exact ⟨_, rfl, fun hb => absurd hb (by decide)⟩
  accesses_le := Nat.le_refl 1
  body := by
    intro i hi
    rw [List.mem_singleton.mp hi]
    refine ⟨fun n hn => ?_, fun heq => by cases heq⟩
    simp only [List.mem_cons, MachineOperand.reg.injEq, reduceCtorEq, Register.vreg.injEq,
      List.not_mem_nil, or_false, or_self] at hn
    rw [hn]
    exact Nat.zero_lt_one
  offsets := by
    intro i hi fi hfi
    rw [List.mem_singleton.mp hi] at hfi
    simp at hfi
  rets := by
    intro r hr
    exact ⟨0, Nat.zero_lt_one, List.mem_singleton.mp hr⟩

theorem computes_increment (objects : List FixedObject) (mem : Mem 32) :
    (increment objects).Computes 0x1000 [5] mem mem [6] := by
  intro m hmem hwords
  have hfive : m.regs (.vreg 0) = 5 := hwords 0 5 rfl
  refine ⟨m.setReg (.vreg 0) (m.regs (.vreg 0) + 1), rfl, ?_, hmem, ?_⟩
  · exact ⟨fun _ => Machine.setReg_of_ne m _ (by simp), fun _ => rfl,
      fun _ => Machine.setReg_of_ne m _ (by simp)⟩
  · show [(m.setReg (.vreg 0) (m.regs (.vreg 0) + 1)).regs (.vreg 0)] = [6]
    rw [Machine.setReg_self, hfive]
    rfl

/-- The sixth value is 5, and 6 comes back. -/
theorem call_computes_increment :
    ∃ call formals reads copies between,
      lowerCall false (callArgs exampleArgs) (callVals exampleArgs) = some call ∧
      lowerFormalArguments false (callArgs exampleArgs) = some formals ∧
      lowerCallResult [entryOf .i32] = some reads ∧
      (exec (nodeStep ((increment formals.fixedObjects).machine formals.inVals copies fun _ => 0)
        (lowerCallNodes call reads) fun _ s => s) (between ++ gluedRun call reads)
          ⟨fun _ => 0x1000, fun _ => 0, 0, []⟩).inVals =
        (exec (nodeStep ((increment formals.fixedObjects).machine formals.inVals copies fun _ => 0)
          (lowerCallNodes call reads) fun _ s => s) between
            ⟨fun _ => 0x1000, fun _ => 0, 0, []⟩).inVals ++ [[6]] := by
  obtain ⟨call, formals, reads, hcall, hformals, hreads, hcallee⟩ :=
    @call_computes exampleArgs 0x1000 exampleArgs_passable (by decide) [entryOf .i32] [entryOf .i32]
      rfl (by simp [entryOf, numLanes, MVT.getSizeInBits]) (by decide)
  obtain ⟨copies, _, hschedule⟩ := hcallee (increment formals.fixedObjects)
    (fits_increment formals.fixedObjects) rfl
  obtain ⟨_, between, _, _, hrun⟩ := hschedule _ _ (lowerCallNodes call reads).hasNodes_graph
    (wellBuilt_lowerCallNodes call reads).scheduled fun k hk => List.mem_range.mpr hk
  obtain ⟨hresult, _⟩ := hrun (fun _ => 0) (fun _ s => s) ⟨fun _ => 0x1000, fun _ => 0, 0, []⟩
    ⟨fun _ _ => rfl, fun _ _ => rfl, fun _ _ _ _ => rfl⟩ rfl _ [6]
    (computes_increment formals.fixedObjects _)
  exact ⟨call, formals, reads, copies, between, hcall, hformals, hreads, hresult⟩

end Mandarin.Frame
