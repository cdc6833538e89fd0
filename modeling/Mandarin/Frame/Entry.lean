import Mandarin.CallConv.CallRun
import Mandarin.Frame.Elimination

/-! # Arguments in the body of the callee

The callee reads an incoming value from a register or addresses it as a fixed object of
its frame. Behind the prologue, with the frame indices eliminated, the body finds there
what the caller passed, for as long as it has not overwritten it.
-/

namespace Mandarin.Frame

open Memory Layout CallConv

/-! ## Reading an argument -/

/-- The fixed objects of a frame have the indices `-1`, `-2` and so on. -/
def fixedIndex (j : Nat) : Int := -(j + 1)

/-- The frame has these fixed objects, in the order in which they were created. -/
def HasFixedObjects (mf : MachineFunction) (objects : List FixedObject) : Prop :=
  ∀ (j : Nat) (object : FixedObject), objects[j]? = some object →
    mf.frameInfo.objectOffset (fixedIndex j) = object.offset.toNat

def objectIndex (xs : List InVal) (k : Nat) : Int :=
  fixedIndex ((xs.take k).filterMap InVal.object?).length

/-- Reading an incoming value into `dst`: a copy of its register, a load of its object,
or, for an aggregate, a load of the word `c` bytes into its object. -/
def readCode (dst : Register) (fi : Int) (c : Nat) : InVal → List MachineInstr
  | .copyFromReg (.R n) _ _ => [⟨.MOVrr, [.reg dst, .reg (.gpr n)]⟩]
  | .copyFromReg _ _ _ => []
  | .load _ _ => [⟨.LOADrr, [.reg dst, .frameIndex fi]⟩]
  | .frameIndex _ =>
      [⟨.ADDri, [.reg dst, .frameIndex fi, .imm c]⟩, ⟨.LOADrr, [.reg dst, .reg dst]⟩]

/-- What the caller passed: the operand itself, or a word of the aggregate it points to. -/
def argumentWord (callerMem : Mem 32) (a : ArgT) (v : Word) (c : Nat) : Word :=
  if a.flags.isByVal then loadWord callerMem (v + BitVec.ofNat 32 c) else v

theorem getElem?_objects {xs : List InVal} {k : Nat} {x : InVal} {object : FixedObject}
    (hx : xs[k]? = some x) (hobject : x.object? = some object) :
    (xs.filterMap InVal.object?)[((xs.take k).filterMap InVal.object?).length]? = some object := by
  have hsplit : xs = xs.take k ++ x :: xs.drop (k + 1) := by
    rcases List.getElem?_eq_some_iff.mp hx with ⟨hk, rfl⟩
    rw [List.getElem_cons_drop, List.take_append_drop]
  have hobjects : xs.filterMap InVal.object? = (xs.take k).filterMap InVal.object? ++
      object :: (xs.drop (k + 1)).filterMap InVal.object? := by
    rw [← List.filterMap_cons_some hobject, ← List.filterMap_append, ← hsplit]
  rw [hobjects, List.getElem?_append_right (Nat.le_refl _), Nat.sub_self]
  rfl

theorem eliminable_readCode {mf : MachineFunction} {v c : Nat} {dst : Register} {fi : Int} {x : InVal}
    (hold : Old v dst) (hdst : dst ≠ getFrameRegister mf) :
    ∀ i ∈ readCode dst fi c x, Eliminable mf v i := by
  have hvreg : ∀ n, dst = .vreg n → n < v := hold
  have hbase : ∀ i : MachineInstr, writtenReg i = some dst →
      writtenReg i ≠ some (getFrameRegister mf) := by
    intro i hi heq
    rw [hi, Option.some.injEq] at heq
    exact hdst heq
  intro i hi
  unfold readCode at hi
  split at hi
  · rw [List.mem_singleton] at hi
    subst hi
    exact ⟨fun n hn => hvreg n (by simpa [eq_comm] using hn), hbase _ rfl⟩
  · cases hi
  · rw [List.mem_singleton] at hi
    subst hi
    exact ⟨fun n hn => hvreg n (by simpa [eq_comm] using hn), hbase _ rfl⟩
  · rw [List.mem_cons, List.mem_singleton] at hi
    rcases hi with rfl | rfl
    · exact ⟨fun n hn => hvreg n (by simpa [eq_comm] using hn), hbase _ rfl⟩
    · exact ⟨fun n hn => hvreg n (by simpa [eq_comm] using hn), hbase _ rfl⟩

/-! ## Behind the prologue -/

/-- The argument registers and the incoming stack area are as they were at entry. -/
structure KeepsArguments (args : List CallArg) (m m₁ : Machine) : Prop where
  regs : ∀ n : Fin 32, n.val < 4 → m₁.regs (.gpr n) = m.regs (.gpr n)
  mem : ∀ a : Word, m.sp.toNat ≤ a.toNat → a.toNat < m.sp.toNat + stackSize (callArgs args) →
    m₁.mem a = m.mem a

theorem ne_pointers {n : Fin 32} (hn : n.val < 4) : n ≠ 30 ∧ n ≠ 31 := by
  refine ⟨?_, ?_⟩ <;> rintro rfl
  · exact absurd hn (by decide)
  · exact absurd hn (by decide)

theorem keepsArguments_afterPrologue (args : List CallArg) (mf : MachineFunction) (m : Machine) :
    KeepsArguments args m (afterPrologue mf m) where
  regs := by
    intro n hn
    obtain ⟨h30, h31⟩ := ne_pointers hn
    simp [afterPrologue, h30, h31]
  mem := fun _ _ _ => rfl

variable {args : List CallArg} {sp : Word}

/-- The callee's machine when it is entered: behind the caller's memory operations, in some
order, and its copies to registers. -/
structure Entered (sp : Word) (call : LoweredCall Word) (callerMem : Mem 32) (m : Machine) : Prop where
  regs : ∃ regs : RegFile, regs 30 = sp ∧ ∀ n, m.regs (.gpr n) = copyToRegs call.regsToPass regs n
  mem : ∃ ops : List (MemOp Word), ops.Perm call.memOps ∧
    m.mem = runAll (ops.map (MemOp.update sp)) callerMem

theorem KeepsArguments.block {m m₁ : Machine} (hkeep : KeepsArguments args m m₁)
    (h : Passable args m.sp) {k : Nat} {x : Slot} {r : Request}
    (hx : (CallConv.callSlots args)[k]? = some x) (hr : x.request = some r) {i : Nat}
    (hi : i < r.size) :
    m₁.mem (m.sp + BitVec.ofNat 32 (slotStart 0 (CallConv.callSlots args) k r) + BitVec.ofNat 32 i) =
      m.mem (m.sp + BitVec.ofNat 32 (slotStart 0 (CallConv.callSlots args) k r) +
        BitVec.ofNat 32 i) := by
  rcases h.callSlots.start_toNat hx hr with ⟨hstart, hend⟩
  have hstop := @slotStart_le_stop 0 k _ x r hx hr
  rw [stop_callSlots h.count] at hstop
  have hadd : (m.sp + BitVec.ofNat 32 (slotStart 0 (CallConv.callSlots args) k r) +
      BitVec.ofNat 32 i).toNat = m.sp.toNat + slotStart 0 (CallConv.callSlots args) k r + i := by
    rw [BitVec.toNat_add, hstart, BitVec.toNat_ofNat, Nat.mod_eq_of_lt (show i < 2 ^ 32 by omega),
      Nat.mod_eq_of_lt (by omega)]
  apply hkeep.mem
  · omega
  · omega

theorem run_readAggregate (m : Machine) (addr : Int → Word) (dst : Register) (fi : Int) (c : Nat) :
    ∃ m₂, runInstrs ([⟨.ADDri, [.reg dst, .frameIndex fi, .imm c]⟩,
        ⟨.LOADrr, [.reg dst, .reg dst]⟩].map (resolve addr)) m = some m₂ ∧
      m₂.regs dst = loadWord m.mem (addr fi + BitVec.ofNat 32 c) := by
  refine ⟨(m.setReg dst (addr fi + BitVec.ofNat 32 c)).setReg dst
    (loadWord m.mem (addr fi + BitVec.ofNat 32 c)), ?_, Machine.setReg_self _ _ _⟩
  simp [resolve, resolveOperand, runInstrs, MachineInstr.exec, Machine.value]

/-- The code that reads value `k`, with the address of its object put in, reads what the
caller passed. -/
theorem run_readCode {m m₁ : Machine} {regs : RegFile} {mem : Mem 32} {k c : Nat} {fi : Int}
    {p : ArgT × Word} {x : Slot} {addr : Int → Word} (h : Passable args m.sp)
    (hreceived : Received regs m.mem mem p.1 p.2 (slotInVal (CallConv.callSlots args) k x))
    (hregs : ∀ n, m.regs (.gpr n) = regs n) (hp : (callEntries 0 args)[k]? = some p)
    (hx : (CallConv.callSlots args)[k]? = some x) (hkeep : KeepsArguments args m m₁)
    (haddr : ∀ object, (slotInVal (CallConv.callSlots args) k x).object? = some object →
      addr fi = m.sp + object.offset)
    (hc : p.1.flags.isByVal = true → c + 4 ≤ p.1.flags.byValSize.toNat) (dst : Register) :
    ∃ m₂, runInstrs ((readCode dst fi c (slotInVal (CallConv.callSlots args) k x)).map
        (resolve addr)) m₁ = some m₂ ∧ m₂.regs dst = argumentWord mem p.1 p.2 c := by
  have hkind := callSlots_kind hp hx
  have hsp : regs 30 = m.sp := (hregs 30).symm
  unfold Received at hreceived
  unfold argumentWord
  by_cases hb : p.1.flags.isByVal = true
  · rw [if_pos hb] at hkind hreceived ⊢
    subst hkind
    rcases hreceived with ⟨q, hq, hbytes⟩
    have hq' : q = addr fi := by
      rw [haddr _ rfl, ← hsp]
      exact (List.singleton_inj.mp hq).symm
    have hfield : loadWord m₁.mem (addr fi + BitVec.ofNat 32 c) =
        loadWord mem (p.2 + BitVec.ofNat 32 c) := by
      apply loadWord_eq_of_bytes
      intro i hi
      have hci := hc hb
      have hlt : c + i < p.1.flags.byValSize.toNat := by omega
      rw [wordByte_loadWord _ _ hi, BitVec.add_assoc, BitVec.add_assoc, ← BitVec.ofNat_add,
        ← hbytes _ hlt, hq', haddr _ rfl]
      exact hkeep.block h hx rfl (Nat.lt_of_lt_of_le hlt (le_atLeast p.1.flags.byValSize))
    rcases run_readAggregate m₁ addr dst fi c with ⟨m₂, hrun, hdst⟩
    exact ⟨m₂, hrun, hdst.trans hfield⟩
  · rw [if_neg hb] at hkind hreceived ⊢
    rcases hkind with ⟨vt, hscalar, rfl | rfl⟩
    · rcases h.callSlots.argReg_eq hx with ⟨hlt, hreg⟩
      have hclass : (liveInClass vt).lanes = 1 := by
        cases vt <;> simp_all [MVT.isScalar, liveInClass, RegClass.lanes]
      rw [slotInVal, hreg] at hreceived ⊢
      rw [InVal.eval, hclass] at hreceived
      have hread : regs (Fin.ofNat 32 (regsBefore (CallConv.callSlots args) k + 0)) = p.2 :=
        List.singleton_inj.mp hreceived
      have hfin : Fin.ofNat 32 (regsBefore (CallConv.callSlots args) k + 0) =
          ⟨regsBefore (CallConv.callSlots args) k, by omega⟩ := by
        apply Fin.ext
        rw [Fin.val_ofNat, Nat.add_zero]
        exact Nat.mod_eq_of_lt (by omega)
      refine ⟨_, rfl, ?_⟩
      rw [Machine.setReg_self, hkeep.regs ⟨regsBefore (CallConv.callSlots args) k, by omega⟩ hlt, hregs,
        ← hfin, hread]
    · have haddr' := haddr _ rfl
      have hload := List.singleton_inj.mp hreceived
      refine ⟨_, rfl, ?_⟩
      rw [Machine.setReg_self, BitVec.ofInt_toInt, haddr', ← hload, hsp]
      exact loadWord_congr fun i hi => hkeep.block h hx rfl hi

/-! ## The callee -/

theorem frameAddress_objectIndex {mf : MachineFunction} {xs : List InVal} {k : Nat} {x : InVal}
    {object : FixedObject} (hfp : hasFP mf = true)
    (hobjects : HasFixedObjects mf (xs.filterMap InVal.object?)) (hx : xs[k]? = some x)
    (hobject : x.object? = some object) (hoffset : object.offset.toNat < 2 ^ 31) (sp : Word) :
    frameAddress mf sp (objectIndex xs k) = sp + object.offset := by
  have hindex := hobjects _ object (getElem?_objects hx hobject)
  rw [frameAddress_eq hfp, objectIndex, hindex, BitVec.ofInt_natCast, BitVec.ofNat_toNat,
    BitVec.setWidth_eq]
  · rw [objectIndex, hindex]
    omega
  · rw [objectIndex, hindex]
    omega

theorem offset_lt {ss : List Slot} {k : Nat} {x : Slot} {object : FixedObject}
    (harea : stop 0 (stackRequests ss) < 2 ^ 31)
    (hx : ss[k]? = some x) (hobject : (slotInVal ss k x).object? = some object) :
    object.offset.toNat < 2 ^ 31 := by
  have hstart : ∀ r, x.request = some r → (BitVec.ofNat 32 (slotStart 0 ss k r)).toNat < 2 ^ 31 := by
    intro r hr
    have hstop := @slotStart_le_stop 0 k ss x r hx hr
    rw [BitVec.toNat_ofNat, Nat.mod_eq_of_lt (by omega)]
    omega
  cases x with
  | reg vt => cases hobject
  | stack vt =>
      cases hobject
      exact hstart _ rfl
  | byVal vt flags =>
      cases hobject
      exact hstart _ rfl

/-- Behind any code that keeps the arguments, the code that reads a value reads what the
caller passed. -/
def Readable (args : List CallArg) (inVals : List InVal) (callerMem : Mem 32) (addr : Int → Word)
    (m : Machine) : Prop :=
  ∀ (k : Nat) (e : ArgT × Word), (callEntries 0 args)[k]? = some e →
    ∃ x, inVals[k]? = some x ∧ ∀ c, (e.1.flags.isByVal = true → c + 4 ≤ e.1.flags.byValSize.toNat) →
      ∀ m₁, KeepsArguments args m m₁ → ∀ dst,
        ∃ m₂, runInstrs ((readCode dst (objectIndex inVals k) c x).map (resolve addr)) m₁ = some m₂ ∧
          m₂.regs dst = argumentWord callerMem e.1 e.2 c

theorem exists_readable (h : Passable args sp) (harea : stackSize (callArgs args) < 2 ^ 31) :
    ∃ call formals, lowerCall false (callArgs args) (callVals args) = some call ∧
      lowerFormalArguments false (callArgs args) = some formals ∧
      ∀ (callerMem : Mem 32) (m : Machine) (mf : MachineFunction),
        Entered sp call callerMem m → hasFP mf = true → HasFixedObjects mf formals.fixedObjects →
        m.sp = sp ∧ Readable args formals.inVals callerMem (frameAddress mf sp) m := by
  rcases h.lowered with ⟨numBytes, ts, xs, ht, hcall, hformals, _, hvalue⟩
  refine ⟨_, _, hcall, hformals, ?_⟩
  intro callerMem m mf hentered hfp hobjects
  rcases hentered.regs with ⟨regs, hregs30, hregs⟩
  rcases hentered.mem with ⟨ops, hops, hmem⟩
  have hsp : m.sp = sp := by
    show m.regs (.gpr 30) = sp
    rw [hregs, ht.stackPointer_kept h.callSlots, hregs30]
  refine ⟨hsp, ?_⟩
  subst hsp
  intro k e he
  have hk := (List.getElem?_eq_some_iff.mp he).1
  obtain ⟨slot, hslot⟩ : ∃ slot, (CallConv.callSlots args)[k]? = some slot :=
    ⟨_, List.getElem?_eq_getElem (h.callSlots.length ▸ hk)⟩
  have hx := hvalue k e _ he hslot
  refine ⟨_, hx, ?_⟩
  intro c hc m₁ hkeep dst
  have hreceived := ht.received h.callSlots hops regs hregs30 callerMem he hslot
  rw [← hmem] at hreceived
  have haddr : ∀ object, (slotInVal (CallConv.callSlots args) k slot).object? = some object →
      frameAddress mf m.sp (objectIndex xs k) = m.sp + object.offset := by
    intro object hobject
    refine frameAddress_objectIndex hfp hobjects hx hobject ?_ m.sp
    exact offset_lt (stop_callSlots h.count ▸ harea) hslot hobject
  exact run_readCode h hreceived hregs he hslot hkeep haddr hc dst

/-- Arguments reach the body of the callee: behind the prologue of a function with a frame
pointer, and behind any list of the modelled instructions that writes neither `R31`, the
argument registers nor the incoming stack area, the rewritten code that reads a value reads
what the caller passed, a scalar or any word of an aggregate. -/
theorem arguments_reach_body {sp : Word} (h : Passable args sp)
    (harea : stackSize (callArgs args) < 2 ^ 31) :
    ∃ call formals, lowerCall false (callArgs args) (callVals args) = some call ∧
      lowerFormalArguments false (callArgs args) = some formals ∧
      ∀ (callerMem : Mem 32) (m : Machine) (mf : MachineFunction) (v : Nat)
          (body : List MachineInstr) (m₁ : Machine),
        Entered sp call callerMem m → hasFP mf = true →
        HasFixedObjects mf formals.fixedObjects → (∀ i ∈ body, Eliminable mf v i) →
        runInstrs (body.map (resolve (frameAddress mf sp))) (afterPrologue mf m) = some m₁ →
        KeepsArguments args m m₁ →
        ∀ (k c : Nat) (a : ArgT) (w : Word) (x : InVal) (dst : Register),
          (callArgs args)[k]? = some a → (callVals args)[k]? = some w →
          formals.inVals[k]? = some x →
          (a.flags.isByVal = true → c + 4 ≤ a.flags.byValSize.toNat) →
          Old v dst → dst ≠ getFrameRegister mf →
          ∃ m₂, runInstrs (emitPrologue mf ++
              eliminateBody mf (body ++ readCode dst (objectIndex formals.inVals k) c x) v) m =
                some m₂ ∧
            m₂.regs dst = argumentWord callerMem a w c := by
  rcases exists_readable h harea with ⟨call, formals, hcall, hformals, hread⟩
  refine ⟨call, formals, hcall, hformals, ?_⟩
  intro callerMem m mf v body m₁ hentered hfp hobjects hbody hrun hkeep k c a w x dst ha hw hx hc
    hold hdst
  obtain ⟨rfl, hread⟩ := hread callerMem m mf hentered hfp hobjects
  rw [callArgs, List.getElem?_map] at ha
  rcases Option.map_eq_some_iff.mp ha with ⟨e, he, rfl⟩
  rw [callVals, List.getElem?_map, he] at hw
  cases hw
  obtain ⟨x', hx', hcode⟩ := hread k e he
  rw [hx, Option.some.injEq] at hx'
  subst hx'
  obtain ⟨m₂, hreads, hvalue⟩ := hcode c hc m₁ hkeep dst
  have hboth : runInstrs ((body ++ readCode dst (objectIndex formals.inVals k) c x).map
      (resolve (frameAddress mf m.sp))) (afterPrologue mf m) = some m₂ := by
    rw [List.map_append, runInstrs_append, hrun]
    exact hreads
  have heliminable : ∀ i ∈ body ++ readCode dst (objectIndex formals.inVals k) c x,
      Eliminable mf v i := by
    intro i hi
    rcases List.mem_append.mp hi with hi | hi
    · exact hbody i hi
    · exact eliminable_readCode hold hdst i hi
  rcases run_emitPrologue_eliminateBody heliminable hboth with ⟨m₃, hrun₃, _, _, hregs₃⟩
  exact ⟨m₃, hrun₃, (hregs₃ dst hold).trans hvalue⟩

def fixedFrame (objects : List FixedObject) : MachineFunction :=
  ⟨⟨0, false, false,
    fun fi => (objects[(-fi - 1).toNat]?.map fun x => (x.offset.toNat : Int)).getD 0⟩, true⟩

theorem hasFixedObjects_fixedFrame (objects : List FixedObject) :
    HasFixedObjects (fixedFrame objects) objects := by
  intro j object hobject
  have hj : (-fixedIndex j - 1).toNat = j := by
    unfold fixedIndex
    omega
  show (objects[(-fixedIndex j - 1).toNat]?.map _).getD 0 = _
  rw [hj, hobject]
  rfl

def entryRegs (regs : RegFile) : Register → Word
  | .gpr n => regs n
  | .vreg _ => 0

def entryMachine (sp : Word) (call : LoweredCall Word) : Machine :=
  ⟨entryRegs (copyToRegs call.regsToPass fun _ => sp),
    runAll (call.memOps.map (MemOp.update sp)) fun _ => 0, fun _ => 0⟩

theorem entered_entryMachine (sp : Word) (call : LoweredCall Word) :
    Entered sp call (fun _ => 0) (entryMachine sp call) :=
  ⟨⟨fun _ => sp, rfl, fun _ => rfl⟩, ⟨call.memOps, .refl _, rfl⟩⟩

/-- `3` above the address of the first fixed object to `R5`, and from there to local memory. -/
def scratchBody : List MachineInstr :=
  [⟨.ADDri, [.reg (.gpr 5), .frameIndex (fixedIndex 0), .imm 3]⟩,
    ⟨.STORELri, [.reg (.gpr 5), .imm 4]⟩]

theorem eliminable_scratchBody {mf : MachineFunction} (hfp : hasFP mf = true) (v : Nat) :
    ∀ i ∈ scratchBody, Eliminable mf v i := by
  have hbase : getFrameRegister mf = .gpr 31 := by
    rw [getFrameRegister, if_pos hfp]
  intro i hi
  simp only [scratchBody, List.mem_cons, List.not_mem_nil, or_false] at hi
  rcases hi with rfl | rfl
  · exact ⟨by simp, by rw [hbase]; decide⟩
  · exact ⟨by simp, by rw [hbase]; decide⟩

theorem run_scratchBody (args : List CallArg) (mf : MachineFunction) (addr : Int → Word)
    (m : Machine) :
    ∃ m₁, runInstrs (scratchBody.map (resolve addr)) (afterPrologue mf m) = some m₁ ∧
      KeepsArguments args m m₁ := by
  have hkeep := keepsArguments_afterPrologue args mf m
  refine ⟨_, rfl, ⟨?_, hkeep.mem⟩⟩
  intro n hn
  have hne : Register.gpr n ≠ .gpr 5 := by
    intro heq
    cases heq
    exact absurd hn (by decide)
  exact (Machine.setReg_of_ne _ _ hne).trans (hkeep.regs n hn)

/-- The sixth value, which lies on the stack, read behind two instructions of the body. -/
theorem arguments_reach_body_example :
    ∃ call formals x m m₂, lowerCall false (callArgs exampleArgs) (callVals exampleArgs) = some call ∧
      lowerFormalArguments false (callArgs exampleArgs) = some formals ∧
      formals.inVals[5]? = some x ∧ Entered 0x1000 call (fun _ => 0) m ∧
      runInstrs (emitPrologue (fixedFrame formals.fixedObjects) ++
          eliminateBody (fixedFrame formals.fixedObjects)
            (scratchBody ++ readCode (.vreg 0) (objectIndex formals.inVals 5) 0 x) 1) m = some m₂ ∧
        m₂.regs (.vreg 0) = 5 := by
  rcases arguments_reach_body exampleArgs_passable (by decide) with
    ⟨call, formals, hcall, hformals, harrive⟩
  have hlen : (lowerFormalArguments false (callArgs exampleArgs)).map (·.inVals.length) = some 6 := by
    decide
  rw [hformals, Option.map_some, Option.some.injEq] at hlen
  have hx := List.getElem?_eq_getElem (show 5 < formals.inVals.length by omega)
  have hold : Old 1 (.vreg 0) := by
    intro n hn
    cases hn
    exact Nat.zero_lt_one
  have hdst : Register.vreg 0 ≠ getFrameRegister (fixedFrame formals.fixedObjects) := by
    intro heq
    cases heq
  rcases run_scratchBody exampleArgs (fixedFrame formals.fixedObjects)
    (frameAddress (fixedFrame formals.fixedObjects) 0x1000) (entryMachine 0x1000 call) with
    ⟨m₁, hrun₁, hkeep⟩
  rcases harrive _ _ (fixedFrame formals.fixedObjects) 1 scratchBody m₁ (entered_entryMachine _ _) rfl
    (hasFixedObjects_fixedFrame _) (eliminable_scratchBody rfl 1) hrun₁ hkeep 5 0 _ _ _ (.vreg 0)
    rfl rfl hx
    (fun hb => absurd hb (by decide)) hold hdst with ⟨m₂, hrun, hvalue⟩
  exact ⟨call, formals, _, _, m₂, hcall, hformals, hx, entered_entryMachine _ _, hrun, hvalue⟩

end Mandarin.Frame
