import Mandarin.Frame.Activation
import Mandarin.Frame.Entry

/-! # A callee as it is emitted

The prologue, code that reads words of the arguments into virtual registers, a body that
computes with them, the copies of the return values and the epilogue. What the body
computes from the caller's operands is what the caller reads behind the call.
-/

namespace Mandarin.Frame

open Memory Layout CallConv Schedule

/-! ## Code with one result -/

theorem run_readCode_frame {addr : Int → Word} {dst : Register} {fi : Int} {c : Nat} {x : InVal}
    {m m₁ : Machine} (hrun : runInstrs ((readCode dst fi c x).map (resolve addr)) m = some m₁) :
    ∃ w, m₁ = m.setReg dst w := by
  have hsame : m = m.setReg dst (m.regs dst) := by
    simp [Machine.setReg]
  have htwice : ∀ a b, (m.setReg dst a).setReg dst b = m.setReg dst b := by
    intro a b
    simp [Machine.setReg]
  cases x with
  | copyFromReg r rc VT =>
      cases r with
      | R n =>
          cases hrun
          exact ⟨_, rfl⟩
      | _ =>
          cases hrun
          exact ⟨_, hsame⟩
  | load VT object =>
      cases hrun
      exact ⟨_, rfl⟩
  | frameIndex object =>
      cases hrun
      exact ⟨_, htwice _ _⟩

/-! ## Reading the arguments -/

/-- The word `c` bytes into value `k` for each pair of `accesses`, read into the virtual
registers from `j` on. -/
def readArguments (inVals : List InVal) : Nat → List (Nat × Nat) → List MachineInstr
  | _, [] => []
  | j, (k, c) :: accesses =>
      ((inVals[k]?.map fun x => readCode (.vreg j) (objectIndex inVals k) c x).getD []) ++
        readArguments inVals (j + 1) accesses

def accessWord (callerMem : Mem 32) (args : List CallArg) (p : Nat × Nat) : Word :=
  ((callEntries 0 args)[p.1]?.map fun e => argumentWord callerMem e.1 e.2 p.2).getD 0

/-- The access is to an argument, and within it. -/
def InArgument (args : List CallArg) (p : Nat × Nat) : Prop :=
  ∃ e, (callEntries 0 args)[p.1]? = some e ∧
    (e.1.flags.isByVal = true → p.2 + 4 ≤ e.1.flags.byValSize.toNat)

/-- The machines differ in virtual registers from `j` on at most. -/
structure SameBelow (j : Nat) (m m' : Machine) : Prop where
  gpr : ∀ n, m'.regs (.gpr n) = m.regs (.gpr n)
  vreg : ∀ i < j, m'.regs (.vreg i) = m.regs (.vreg i)
  mem : m'.mem = m.mem
  localMem : m'.localMem = m.localMem

theorem SameBelow.refl (j : Nat) (m : Machine) : SameBelow j m m :=
  ⟨fun _ => rfl, fun _ _ => rfl, rfl, rfl⟩

theorem SameBelow.setReg (j : Nat) (m : Machine) (w : Word) :
    SameBelow j m (m.setReg (.vreg j) w) where
  gpr := fun n => Machine.setReg_of_ne m w (by simp)
  vreg := by
    intro i hi
    apply Machine.setReg_of_ne
    intro heq
    cases heq
    exact Nat.lt_irrefl j hi
  mem := rfl
  localMem := rfl

theorem SameBelow.trans {j k : Nat} {m m' m'' : Machine} (hjk : j ≤ k) (h : SameBelow j m m')
    (h' : SameBelow k m' m'') : SameBelow j m m'' where
  gpr := fun n => (h'.gpr n).trans (h.gpr n)
  vreg := fun i hi => (h'.vreg i (Nat.lt_of_lt_of_le hi hjk)).trans (h.vreg i hi)
  mem := h'.mem.trans h.mem
  localMem := h'.localMem.trans h.localMem

theorem KeepsArguments.of_sameBelow {args : List CallArg} {j : Nat} {m m₁ m₂ : Machine}
    (h : KeepsArguments args m m₁) (hsame : SameBelow j m₁ m₂) : KeepsArguments args m m₂ where
  regs := fun n hn => (hsame.gpr n).trans (h.regs n hn)
  mem := fun a hlo hhi => by rw [hsame.mem, h.mem a hlo hhi]

theorem accessWord_eq {callerMem : Mem 32} {args : List CallArg} {k c : Nat} {e : ArgT × Word}
    (he : (callEntries 0 args)[k]? = some e) :
    accessWord callerMem args (k, c) = argumentWord callerMem e.1 e.2 c := by
  rw [accessWord, he]
  rfl

theorem run_readArguments {args : List CallArg} {inVals : List InVal} {callerMem : Mem 32}
    {addr : Int → Word} {m m₁ : Machine} (hread : Readable args inVals callerMem addr m)
    {accesses : List (Nat × Nat)} (hacc : ∀ p ∈ accesses, InArgument args p) (j : Nat)
    (hkeep : KeepsArguments args m m₁) :
    ∃ m₂, runInstrs ((readArguments inVals j accesses).map (resolve addr)) m₁ = some m₂ ∧
      SameBelow j m₁ m₂ ∧ ∀ i w, (accesses.map (accessWord callerMem args))[i]? = some w →
        m₂.regs (.vreg (j + i)) = w := by
  induction accesses generalizing j m₁ with
  | nil => exact ⟨m₁, rfl, .refl j m₁, fun i w hw => by cases hw⟩
  | cons p accesses ih =>
      obtain ⟨k, c⟩ := p
      obtain ⟨e, he, hc⟩ := hacc (k, c) List.mem_cons_self
      obtain ⟨x, hx, hcode⟩ := hread k e he
      obtain ⟨m₂, hfirst, hvalue⟩ := hcode c hc m₁ hkeep (.vreg j)
      obtain ⟨w, rfl⟩ := run_readCode_frame hfirst
      have hsame := SameBelow.setReg j m₁ w
      obtain ⟨m₃, hrest, hsame', hwords⟩ := ih (fun p hp => hacc p (List.mem_cons_of_mem _ hp))
        (j + 1) (hkeep.of_sameBelow hsame)
      refine ⟨m₃, ?_, hsame.trans (Nat.le_succ j) hsame', ?_⟩
      · rw [readArguments, hx, Option.map_some, Option.getD_some, List.map_append, runInstrs_append,
          hfirst]
        exact hrest
      · intro i v hv
        cases i with
        | zero =>
            rw [List.map_cons, List.getElem?_cons_zero, Option.some.injEq] at hv
            rw [← hv, accessWord_eq he, ← hvalue]
            exact hsame'.vreg j (Nat.lt_succ_self j)
        | succ i =>
            have hnext := hwords i v hv
            rwa [show j + 1 + i = j + (i + 1) by omega] at hnext

/-! ## Returning -/

def returnMove : Reg × Register → Option MachineInstr
  | (.R n, src) => some ⟨.MOVrr, [.reg (.gpr n), .reg src]⟩
  | _ => none

def returnCode (copies : List (Reg × Register)) : List MachineInstr := copies.filterMap returnMove

def gprs (m : Machine) : RegFile := fun n => m.regs (.gpr n)

def ScalarCopies (copies : List (Reg × Register)) : Prop :=
  ∀ p ∈ copies, ∃ n k, p = (.R n, .vreg k)

/-- The copies do what `copyOut` does, and leave the rest of the machine alone. -/
theorem run_returnCode {copies : List (Reg × Register)} (hcopies : ScalarCopies copies)
    (addr : Int → Word) (m : Machine) :
    ∃ m₁, runInstrs ((returnCode copies).map (resolve addr)) m = some m₁ ∧
      m₁.mem = m.mem ∧ m₁.localMem = m.localMem ∧
      (∀ k, m₁.regs (.vreg k) = m.regs (.vreg k)) ∧
      gprs m₁ = copyOut (copies.map fun p => (p.1, [m.regs p.2])) (gprs m) := by
  induction copies generalizing m with
  | nil => exact ⟨m, rfl, rfl, rfl, fun _ => rfl, rfl⟩
  | cons p copies ih =>
      obtain ⟨n, k, rfl⟩ := hcopies p List.mem_cons_self
      have hrest : ScalarCopies copies := fun q hq => hcopies q (List.mem_cons_of_mem _ hq)
      have hvreg : ∀ i, (m.setReg (.gpr n) (m.regs (.vreg k))).regs (.vreg i) = m.regs (.vreg i) :=
        fun i => Machine.setReg_of_ne m _ (by simp)
      obtain ⟨m₁, hrun, hmem, hlocal, hregs, hgprs⟩ :=
        ih hrest (m.setReg (.gpr n) (m.regs (.vreg k)))
      refine ⟨m₁, hrun, hmem, hlocal, fun i => (hregs i).trans (hvreg i), ?_⟩
      have hhead : gprs (m.setReg (.gpr n) (m.regs (.vreg k))) =
          writeReg (gprs m) (.R n) [m.regs (.vreg k)] := by
        funext i
        show Function.update m.regs (.gpr n) _ (.gpr i) = Function.update (gprs m) n _ i
        by_cases hi : i = n
        · rw [hi, Function.update_self, Function.update_self]
        · rw [Function.update_of_ne hi, Function.update_of_ne]
          · rfl
          · simpa using hi
      have hvals : (copies.map fun p => (p.1, [(m.setReg (.gpr n) (m.regs (.vreg k))).regs p.2])) =
          copies.map fun p => (p.1, [m.regs p.2]) := by
        apply List.map_congr_left
        intro q hq
        obtain ⟨n', k', rfl⟩ := hrest q hq
        rw [hvreg]
      rw [hgprs, hvals, hhead]
      rfl

/-! ## The registers of return values -/

theorem lanes_lt (occ : Occupied) : ∀ n ∈ occ.lanes, n.val < 4 := by
  cases occ <;> decide

theorem assignRets_scalar {occ : Occupied} {VTs : List MVT} {rs : List Reg}
    (h : assignRets occ VTs = some rs) (hscalar : ∀ VT ∈ VTs, numLanes VT = 1) :
    ∀ r ∈ rs, ∃ n : Fin 32, r = .R n ∧ n.val < 4 := by
  induction VTs generalizing occ rs with
  | nil =>
      cases h
      simp
  | cons VT VTs ih =>
      cases htake : occ.take VT with
      | none =>
          rw [assignRets_cons_none htake] at h
          cases h
      | some taken =>
          obtain ⟨r, occ'⟩ := taken
          rw [assignRets_cons_some htake, Option.map_eq_some_iff] at h
          obtain ⟨rs', hrest, rfl⟩ := h
          obtain ⟨_, hlen, _, hlanes, _⟩ := Occupied.take_spec htake
          rw [hscalar VT List.mem_cons_self] at hlen
          intro q hq
          cases hq with
          | head =>
              cases r with
              | R n => exact ⟨n, rfl, lanes_lt occ' n (hlanes n (by simp [Reg.lanes])).2⟩
              | _ => cases hlen
          | tail _ hq =>
              exact ih hrest (fun VT hVT => hscalar VT (List.mem_cons_of_mem _ hVT)) q hq

theorem map_numLanes {types : List ArgT} (hscalar : ∀ a ∈ types, numLanes a.VT = 1) :
    (types.map (·.VT)).map numLanes = List.replicate types.length 1 := by
  rw [List.map_map, List.eq_replicate_iff]
  refine ⟨List.length_map .., ?_⟩
  intro n hn
  obtain ⟨a, ha, rfl⟩ := List.mem_map.mp hn
  exact hscalar a ha

theorem exists_assignRets {types : List ArgT} (hscalar : ∀ a ∈ types, numLanes a.VT = 1)
    (hlen : types.length ≤ 4) : ∃ rs, assignRets .none (types.map (·.VT)) = some rs := by
  apply Option.isSome_iff_exists.mp
  rw [assignRets_isSome, map_numLanes hscalar, List.sum_replicate_nat, Nat.mul_one]
  exact hlen

section
variable {types : List ArgT} {rs : List Reg} (hrs : assignRets .none (types.map (·.VT)) = some rs)
include hrs

theorem exists_analyzeReturn : ∃ st, analyzeReturn types = some st ∧
    InRegisters (types.map (·.VT)) rs st.locs := by
  obtain ⟨hlanes, _, hpair⟩ := assignRets_spec hrs
  have hlen : rs.length = (types.map (·.VT)).length := by simpa using congrArg List.length hlanes
  have hlocs := analyzeReturn_locs types
  rw [hrs] at hlocs
  obtain ⟨st, hst, hlocs⟩ := Option.map_eq_some_iff.mp hlocs
  refine ⟨st, hst, ?_⟩
  rw [hlocs]
  exact inRegisters_retLocs hlen hpair

theorem lowerReturn_eq {α : Type} {vals : List α} (hlen : vals.length = rs.length) :
    lowerReturn types vals = some (rs.zip vals) := by
  obtain ⟨st, hst, hin⟩ := exists_analyzeReturn hrs
  rw [lowerReturn, hst]
  exact eachLoc_lowerReturn hin.loc vals 0 (by omega)

theorem lowerCallResult_eq : lowerCallResult types = some (rs.zip (types.map (·.VT))) := by
  obtain ⟨st, hst, hin⟩ := exists_analyzeReturn hrs
  rw [lowerCallResult, hst]
  exact eachLoc_lowerCallResult hin.loc hin.valVT 0

theorem read_words (hscalar : ∀ a ∈ types, numLanes a.VT = 1) {ws : List Word}
    (hlen : ws.length = rs.length) (regs : RegFile) :
    rs.map (readReg (copyOut (rs.zip (ws.map fun w => [w])) regs)) = ws.map fun w => [w] := by
  obtain ⟨hlanes, _, _⟩ := assignRets_spec hrs
  obtain ⟨st, _, hin⟩ := exists_analyzeReturn hrs
  have hcount : rs.length = types.length := by simpa using congrArg List.length hlanes
  apply hin.read hlanes
  rw [map_numLanes hscalar, List.map_map, List.eq_replicate_iff]
  refine ⟨by rw [List.length_map, hlen, hcount], ?_⟩
  intro n hn
  obtain ⟨w, _, rfl⟩ := List.mem_map.mp hn
  rfl

end

/-! ## The callee -/

/-- A function with the accesses to its arguments, its body, the registers its return
values are in, and the number of virtual registers in use. -/
structure Callee where
  mf : MachineFunction
  accesses : List (Nat × Nat)
  body : List MachineInstr
  rets : List Register
  VReg : Nat

/-- What is emitted in front of the return. -/
def Callee.code (f : Callee) (inVals : List InVal) (copies : List (Reg × Register)) :
    List MachineInstr :=
  emitPrologue f.mf ++
    eliminateBody f.mf (readArguments inVals 0 f.accesses ++ f.body ++ returnCode copies) f.VReg ++
      emitEpilogue f.mf

/-- The callee takes these arguments and has these fixed objects, no object of variable
size and the objects of its body less than 2 GiB above the incoming stack pointer. -/
structure Callee.Fits (f : Callee) (args : List CallArg) (objects : List FixedObject) : Prop where
  hasFP : hasFP f.mf = true
  fixedSize : f.mf.frameInfo.hasVarSizedObjects = false
  objects : HasFixedObjects f.mf objects
  accesses : ∀ p ∈ f.accesses, InArgument args p
  accesses_le : f.accesses.length ≤ f.VReg
  body : ∀ i ∈ f.body, Eliminable f.mf f.VReg i
  offsets : ∀ i ∈ f.body, ∀ fi, .frameIndex fi ∈ i.operands →
    0 ≤ f.mf.frameInfo.objectOffset fi ∧ f.mf.frameInfo.objectOffset fi < 2 ^ 31
  rets : ∀ r ∈ f.rets, ∃ k < f.VReg, r = .vreg k

/-- From these words in its first virtual registers and the memory `mem` the body computes
`results` and leaves `mem'`, with each frame index meaning the address of its object. -/
def Callee.Computes (f : Callee) (sp : Word) (words : List Word) (mem mem' : Mem 32)
    (results : List Word) : Prop :=
  ∀ m : Machine, m.mem = mem → (∀ i w, words[i]? = some w → m.regs (.vreg i) = w) →
    ∃ m', runInstrs (f.body.map
        (resolve fun fi => sp + BitVec.ofInt 32 (f.mf.frameInfo.objectOffset fi))) m = some m' ∧
      LeavesFrame f.mf m m' ∧ m'.mem = mem' ∧ f.rets.map m'.regs = results

theorem LeavesFrame.trans {mf : MachineFunction} {m m' m'' : Machine} (h : LeavesFrame mf m m')
    (h' : LeavesFrame mf m' m'') : LeavesFrame mf m m'' where
  fp := fun hfp => (h'.fp hfp).trans (h.fp hfp)
  saved := fun hfp => (h'.saved hfp).trans (h.saved hfp)
  sp := fun hfixed => (h'.sp hfixed).trans (h.sp hfixed)

theorem SameBelow.leavesFrame {j : Nat} {m m' : Machine} (h : SameBelow j m m')
    (mf : MachineFunction) : LeavesFrame mf m m' where
  fp := fun _ => h.gpr 31
  saved := fun _ => by rw [h.localMem]
  sp := fun _ => h.gpr 30

theorem copyOut_of_ge {copies : List (Reg × List Word)} {n : Fin 32} (hn : 4 ≤ n.val)
    (h : ∀ p ∈ copies, ∃ k : Fin 32, p.1 = .R k ∧ k.val < 4) (regs : RegFile) :
    copyOut copies regs n = regs n := by
  have hread : readReg (copyOut copies regs) (.R n) = readReg regs (.R n) := by
    apply readReg_copyOut_of_not_overlaps
    intro p hp
    obtain ⟨k, hk, hlt⟩ := h p hp
    rw [hk]
    apply not_overlaps
    · simp [Reg.lanes]
    · intro i hi hik
      simp only [Reg.lanes, List.mem_singleton] at hi hik
      subst hi hik
      omega
  exact List.singleton_inj.mp hread

section
variable {f : Callee} {args : List CallArg} {objects : List FixedObject} {inVals : List InVal}
  {callerMem mem' : Mem 32} {results : List Word} {rs : List Reg} {m : Machine}

theorem Callee.Fits.scalarCopies (hfits : f.Fits args objects)
    (hrs : ∀ r ∈ rs, ∃ n : Fin 32, r = .R n ∧ n.val < 4) :
    ∀ p ∈ rs.zip f.rets, ∃ (n : Fin 32) (k : Nat), p = (.R n, .vreg k) ∧ n.val < 4 ∧ k < f.VReg := by
  intro p hp
  obtain ⟨r, src⟩ := p
  obtain ⟨hr, hsrc⟩ := List.of_mem_zip hp
  obtain ⟨n, rfl, hn⟩ := hrs r hr
  obtain ⟨k, hk, rfl⟩ := hfits.rets src hsrc
  exact ⟨n, k, rfl, hn, hk⟩

theorem eliminable_readArguments {mf : MachineFunction} {v : Nat} {accesses : List (Nat × Nat)}
    {j : Nat} (hle : j + accesses.length ≤ v) :
    ∀ i ∈ readArguments inVals j accesses, Eliminable mf v i := by
  induction accesses generalizing j with
  | nil => simp [readArguments]
  | cons p accesses ih =>
      obtain ⟨k, c⟩ := p
      rw [List.length_cons] at hle
      intro i hi
      rw [readArguments, List.mem_append] at hi
      cases hi with
      | inl hi =>
          cases hx : inVals[k]? with
          | none =>
              rw [hx] at hi
              cases hi
          | some x =>
              rw [hx] at hi
              refine eliminable_readCode ?_ ?_ i hi
              · intro n hn
                cases hn
                omega
              · intro heq
                unfold getFrameRegister at heq
                split at heq <;> cases heq
      | inr hi => exact ih (by omega) i hi

theorem eliminable_returnCode {mf : MachineFunction} {v : Nat} {copies : List (Reg × Register)}
    (h : ∀ p ∈ copies, ∃ (n : Fin 32) (k : Nat), p = (.R n, .vreg k) ∧ n.val < 4 ∧ k < v) :
    ∀ i ∈ returnCode copies, Eliminable mf v i := by
  intro i hi
  obtain ⟨p, hp, hmove⟩ := List.mem_filterMap.mp hi
  obtain ⟨n, k, rfl, hn, hk⟩ := h p hp
  cases hmove
  refine ⟨?_, ?_⟩
  · intro q hq
    simp only [List.mem_cons, MachineOperand.reg.injEq, reduceCtorEq, Register.vreg.injEq,
      List.not_mem_nil, or_false, false_or] at hq
    omega
  · intro heq
    have hbase : Register.gpr n = getFrameRegister mf := Option.some.inj heq
    unfold getFrameRegister at hbase
    split at hbase
    all_goals
      cases hbase
      exact absurd hn (by decide)

/-- Behind the prologue, with the addresses in place of the frame indices. -/
theorem Callee.run_body (hfits : f.Fits args objects)
    (hread : Readable args inVals callerMem (frameAddress f.mf m.sp) m)
    (hcomputes : f.Computes m.sp (f.accesses.map (accessWord callerMem args)) m.mem mem' results)
    (hrs : ∀ r ∈ rs, ∃ n : Fin 32, r = .R n ∧ n.val < 4) :
    ∃ m₁ regs, runInstrs ((readArguments inVals 0 f.accesses ++ f.body ++
        returnCode (rs.zip f.rets)).map (resolve (frameAddress f.mf m.sp)))
          (afterPrologue f.mf m) = some m₁ ∧
      LeavesFrame f.mf (afterPrologue f.mf m) m₁ ∧ m₁.mem = mem' ∧
      results.length = f.rets.length ∧
      gprs m₁ = copyOut (rs.zip (results.map fun w => [w])) regs := by
  have hcopies := hfits.scalarCopies hrs
  obtain ⟨m₁, hreads, hsame, hwords⟩ := run_readArguments hread hfits.accesses 0
    (keepsArguments_afterPrologue args f.mf m)
  have hargs : ∀ i w, (f.accesses.map (accessWord callerMem args))[i]? = some w →
      m₁.regs (.vreg i) = w := by
    intro i w hw
    rw [← hwords i w hw, Nat.zero_add]
  obtain ⟨m₂, hbody, hleaves, hmem, hresults⟩ := hcomputes m₁ hsame.mem hargs
  have haddress : f.body.map (resolve (frameAddress f.mf m.sp)) =
      f.body.map (resolve fun fi => m.sp + BitVec.ofInt 32 (f.mf.frameInfo.objectOffset fi)) := by
    apply List.map_congr_left
    intro i hi
    apply resolve_congr
    intro fi hfi
    obtain ⟨hlo, hhi⟩ := hfits.offsets i hi fi hfi
    exact frameAddress_eq hfits.hasFP hlo hhi m.sp
  have hscalar : ScalarCopies (rs.zip f.rets) := by
    intro p hp
    obtain ⟨n, k, hp, _, _⟩ := hcopies p hp
    exact ⟨n, k, hp⟩
  obtain ⟨m₃, hreturn, hmem', hlocal, _, hgprs⟩ :=
    run_returnCode hscalar (frameAddress f.mf m.sp) m₂
  have hvals : ((rs.zip f.rets).map fun p => (p.1, [m₂.regs p.2])) =
      rs.zip (results.map fun w => [w]) := by
    rw [← hresults, List.map_map, List.zip_map_right]
    rfl
  rw [hvals] at hgprs
  have hsingle : ∀ p ∈ rs.zip (results.map fun w => [w]), ∃ n : Fin 32, p.1 = .R n ∧ n.val < 4 :=
    fun p hp => hrs p.1 (List.of_mem_zip hp).1
  -- the copies are to neither of the pointers
  have hkept : ∀ n : Fin 32, 4 ≤ n.val → m₃.regs (.gpr n) = m₂.regs (.gpr n) := by
    intro n hn
    rw [show m₃.regs (.gpr n) = gprs m₃ n from rfl, hgprs, copyOut_of_ge hn hsingle]
    rfl
  have hleaves' : LeavesFrame f.mf m₂ m₃ :=
    ⟨fun _ => hkept 31 (by decide), fun _ => by rw [hlocal], fun _ => hkept 30 (by decide)⟩
  have hlen : results.length = f.rets.length := by rw [← hresults, List.length_map]
  refine ⟨m₃, _, ?_, ((hsame.leavesFrame f.mf).trans hleaves).trans hleaves', hmem'.trans hmem,
    hlen, hgprs⟩
  rw [List.map_append, List.map_append, runInstrs_append, runInstrs_append, hreads,
    Option.bind_some, haddress, hbody]
  exact hreturn

/-- The emitted code ends with both pointers as they were at entry and the results in the
return registers. -/
theorem Callee.run_code (hfits : f.Fits args objects)
    (hread : Readable args inVals callerMem (frameAddress f.mf m.sp) m)
    (hcomputes : f.Computes m.sp (f.accesses.map (accessWord callerMem args)) m.mem mem' results)
    (hrs : ∀ r ∈ rs, ∃ n : Fin 32, r = .R n ∧ n.val < 4) :
    ∃ m₁ regs, runInstrs (f.code inVals (rs.zip f.rets)) m = some m₁ ∧
      m₁.sp = m.sp ∧ m₁.fp = m.fp ∧ m₁.mem = mem' ∧ results.length = f.rets.length ∧
      ∀ n : Fin 32, n.val < 4 →
        m₁.regs (.gpr n) = copyOut (rs.zip (results.map fun w => [w])) regs n := by
  obtain ⟨m₁, regs, hrun, hleaves, hmem, hlen, hgprs⟩ := Callee.run_body hfits hread hcomputes hrs
  have heliminable : ∀ i ∈ readArguments inVals 0 f.accesses ++ f.body ++
      returnCode (rs.zip f.rets), Eliminable f.mf f.VReg i := by
    intro i hi
    rw [List.mem_append, List.mem_append] at hi
    rcases hi with (hi | hi) | hi
    · exact eliminable_readArguments (by rw [Nat.zero_add]; exact hfits.accesses_le) i hi
    · exact hfits.body i hi
    · exact eliminable_returnCode (hfits.scalarCopies hrs) i hi
  obtain ⟨m₂, hrun', hmem', hlocal, hregs⟩ := run_emitPrologue_eliminateBody heliminable hrun
  have hold : ∀ n, m₂.regs (.gpr n) = m₁.regs (.gpr n) := fun n => hregs (.gpr n) fun k hk => by cases hk
  have hleaves' : LeavesFrame f.mf (afterPrologue f.mf m) m₂ := hleaves.trans
    ⟨fun _ => hold 31, fun _ => by rw [hlocal], fun _ => hold 30⟩
  refine ⟨afterEpilogue f.mf m₂, regs, ?_, hleaves'.afterEpilogue_sp hfits.fixedSize,
    hleaves'.afterEpilogue_fp hfits.hasFP, hmem'.trans hmem, hlen, ?_⟩
  · rw [Callee.code, runInstrs_append, hrun']
    exact run_emitEpilogue f.mf m₂
  · intro n hn
    obtain ⟨h30, h31⟩ := ne_pointers hn
    have hkept : (afterEpilogue f.mf m₂).regs (.gpr n) = m₂.regs (.gpr n) := by
      simp [afterEpilogue, h30, h31]
    rw [hkept, hold, ← hgprs]
    rfl

end

end Mandarin.Frame
