import Mandarin.Frame.FrameIndex

/-! # Eliminating the frame indices of a body

Every operand that is a frame index is replaced by a register, an addition or a
subtraction to a fresh virtual register going in front of the instruction. A frame
index means an address; with the addresses in its place the body does what the
rewritten body does behind the prologue, fresh registers aside. Which address that is,
the displacement of the index decides.
-/

namespace Mandarin.Frame

/-! ## Rewriting a body -/

def nextVReg (mf : MachineFunction) (fi : Int) (VReg : Nat) : Nat :=
  if frameOffset mf fi ≠ 0 then VReg + 1 else VReg

/-- The operands of an instruction from left to right: the code in front of it, its
operands without frame indices, and the next virtual register. -/
def eliminateOperands (mf : MachineFunction) :
    List MachineOperand → Nat → List MachineInstr × List MachineOperand × Nat
  | [], VReg => ([], [], VReg)
  | .frameIndex fi :: ops, VReg =>
      let (code, r) := eliminateFrameIndex mf fi VReg
      let (codes, ops, next) := eliminateOperands mf ops (nextVReg mf fi VReg)
      (code ++ codes, .reg r :: ops, next)
  | o :: ops, VReg =>
      let (codes, ops, next) := eliminateOperands mf ops VReg
      (codes, o :: ops, next)

def eliminateBody (mf : MachineFunction) : List MachineInstr → Nat → List MachineInstr
  | [], _ => []
  | i :: is, VReg =>
      let (code, ops, next) := eliminateOperands mf i.operands VReg
      code ++ ⟨i.opcode, ops⟩ :: eliminateBody mf is next

/-! ## What a frame index means -/

def resolveOperand (addr : Int → Word) : MachineOperand → MachineOperand
  | .frameIndex fi => .imm (addr fi).toInt
  | o => o

def resolve (addr : Int → Word) (i : MachineInstr) : MachineInstr :=
  ⟨i.opcode, i.operands.map (resolveOperand addr)⟩

/-- The address a frame index is given, `sp` being the incoming stack pointer. -/
def frameAddress (mf : MachineFunction) (sp : Word) (fi : Int) : Word :=
  sp + BitVec.ofInt 32 (displacement mf fi)

/-- With a frame pointer an object at or above the incoming stack pointer is given its
own address. -/
theorem frameAddress_eq {mf : MachineFunction} (hfp : hasFP mf = true) {fi : Int}
    (hlo : 0 ≤ mf.frameInfo.objectOffset fi) (hhi : mf.frameInfo.objectOffset fi < 2 ^ 31)
    (sp : Word) :
    frameAddress mf sp fi = sp + BitVec.ofInt 32 (mf.frameInfo.objectOffset fi) := by
  have hoff : frameOffset mf fi = mf.frameInfo.objectOffset fi := by
    obtain ⟨hmod, hmin, hmax⟩ := toInt32_spec (mf.frameInfo.objectOffset fi)
    unfold frameOffset
    rw [hfp]
    show toInt32 _ = _
    omega
  rw [frameAddress, displacement, hoff, hfp, if_pos rfl, if_neg (by omega), Int.zero_add]

/-! ## One instruction -/

def Old (v : Nat) (r : Register) : Prop := ∀ n, r = .vreg n → n < v

/-- The machines differ in fresh registers at most. -/
structure Agrees (v : Nat) (m m' : Machine) : Prop where
  regs : ∀ r, Old v r → m'.regs r = m.regs r
  mem : m'.mem = m.mem
  localMem : m'.localMem = m.localMem

theorem Agrees.refl (v : Nat) (m : Machine) : Agrees v m m := ⟨fun _ _ => rfl, rfl, rfl⟩

theorem Agrees.trans {v w : Nat} {m m' m'' : Machine} (hvw : v ≤ w) (h : Agrees v m m')
    (h' : Agrees w m' m'') : Agrees v m m'' where
  regs := by
    intro r hr
    have hr' : Old w r := fun n hn => Nat.lt_of_lt_of_le (hr n hn) hvw
    rw [h'.regs r hr', h.regs r hr]
  mem := h'.mem.trans h.mem
  localMem := h'.localMem.trans h.localMem

inductive StandsFor (addr : Int → Word) (v : Nat) (m : Machine) :
    MachineOperand → MachineOperand → Prop where
  | reg (r : Register) (hr : Old v r) : StandsFor addr v m (.reg r) (.reg r)
  | imm (x : Int) : StandsFor addr v m (.imm x) (.imm x)
  | index (fi : Int) (r : Register) (h : m.regs r = addr fi) :
      StandsFor addr v m (.frameIndex fi) (.reg r)

variable {addr : Int → Word} {v : Nat} {m m' m₁ : Machine}

theorem StandsFor.value {o o' : MachineOperand} (h : StandsFor addr v m' o o')
    (hagree : Agrees v m m') : m'.value o' = m.value (resolveOperand addr o) := by
  cases h with
  | reg r hr => exact congrArg some (hagree.regs r hr)
  | imm x => rfl
  | index fi r hfi =>
      show some (m'.regs r) = some (BitVec.ofInt 32 (addr fi).toInt)
      rw [hfi, BitVec.ofInt_toInt]

theorem Agrees.setReg (h : Agrees v m m') (r : Register) (x : Word) :
    Agrees v (m.setReg r x) (m'.setReg r x) where
  regs := by
    intro q hq
    by_cases hqr : q = r
    · rw [hqr, Machine.setReg_self, Machine.setReg_self]
    · rw [Machine.setReg_of_ne m' x hqr, Machine.setReg_of_ne m x hqr, h.regs q hq]
  mem := h.mem
  localMem := h.localMem

theorem Agrees.bind {x x' : Option Word} (hx : x' = x) {k k' : Word → Machine}
    (hk : ∀ a, Agrees v (k a) (k' a)) (hexec : (x.bind fun a => some (k a)) = some m₁) :
    ∃ m₁', (x'.bind fun a => some (k' a)) = some m₁' ∧ Agrees v m₁ m₁' := by
  subst hx
  cases x' with
  | none => cases hexec
  | some a =>
      cases hexec
      exact ⟨_, rfl, hk a⟩

theorem Agrees.bind₂ {x x' y y' : Option Word} (hx : x' = x) (hy : y' = y)
    {k k' : Word → Word → Machine} (hk : ∀ a b, Agrees v (k a b) (k' a b))
    (hexec : (x.bind fun a => y.bind fun b => some (k a b)) = some m₁) :
    ∃ m₁', (x'.bind fun a => y'.bind fun b => some (k' a b)) = some m₁' ∧ Agrees v m₁ m₁' := by
  subst hx
  cases x' with
  | none => cases hexec
  | some a => exact Agrees.bind hy (hk a) hexec

theorem exec_standsFor {opc : Opcode} {ops ops' : List MachineOperand}
    (hops : List.Forall₂ (StandsFor addr v m') ops ops') (hagree : Agrees v m m')
    (hexec : (MachineInstr.mk opc (ops.map (resolveOperand addr))).exec m = some m₁) :
    ∃ m₁', (MachineInstr.mk opc ops').exec m' = some m₁' ∧ Agrees v m₁ m₁' := by
  -- an instruction has its first operand as a register it writes, or as a value
  cases hops with
  | nil => cases opc <;> cases hexec
  | @cons o₁ o₁' ops ops' h₁ hops =>
      cases hops with
      | nil => cases opc <;> cases h₁ <;> cases hexec
      | @cons o₂ o₂' ops ops' h₂ hops =>
          have hv₂ := h₂.value hagree
          cases opc with
          | STORErr =>
              have hv₁ := h₁.value hagree
              have hstore : ∀ a b, Agrees v { m with mem := Memory.storeWord m.mem a b }
                  { m' with mem := Memory.storeWord m'.mem a b } :=
                fun a b => ⟨hagree.regs, by rw [hagree.mem], hagree.localMem⟩
              exact Agrees.bind₂ hv₂ hv₁ hstore hexec
          | STORELri =>
              have hv₁ := h₁.value hagree
              have hstore : ∀ a b, Agrees v { m with localMem := Memory.storeWord m.localMem a b }
                  { m' with localMem := Memory.storeWord m'.localMem a b } :=
                fun a b => ⟨hagree.regs, hagree.mem, by rw [hagree.localMem]⟩
              exact Agrees.bind₂ hv₂ hv₁ hstore hexec
          | MOVrr =>
              cases h₁ with
              | imm x => cases hexec
              | index fi r h => cases hexec
              | reg r hr => exact Agrees.bind hv₂ (fun a => hagree.setReg r a) hexec
          | LOADrr =>
              cases h₁ with
              | imm x => cases hexec
              | index fi r h => cases hexec
              | reg r hr =>
                  refine Agrees.bind hv₂ (fun a => ?_) hexec
                  rw [hagree.mem]
                  exact hagree.setReg r _
          | LOADLri =>
              cases h₁ with
              | imm x => cases hexec
              | index fi r h => cases hexec
              | reg r hr =>
                  refine Agrees.bind hv₂ (fun a => ?_) hexec
                  rw [hagree.localMem]
                  exact hagree.setReg r _
          | ADDri =>
              cases hops with
              | nil => cases h₁ <;> cases hexec
              | cons h₃ hops =>
                  cases h₁ with
                  | imm x => cases hexec
                  | index fi r h => cases hexec
                  | reg r hr =>
                      exact Agrees.bind₂ hv₂ (h₃.value hagree) (fun a b => hagree.setReg r _) hexec
          | SUBri =>
              cases hops with
              | nil => cases h₁ <;> cases hexec
              | cons h₃ hops =>
                  cases h₁ with
                  | imm x => cases hexec
                  | index fi r h => cases hexec
                  | reg r hr =>
                      exact Agrees.bind₂ hv₂ (h₃.value hagree) (fun a b => hagree.setReg r _) hexec

/-! ## The body -/

def writtenReg : MachineInstr → Option Register
  | ⟨.STORErr, _⟩ | ⟨.STORELri, _⟩ => none
  | ⟨_, .reg dst :: _⟩ => some dst
  | ⟨_, _⟩ => none

/-- The instruction uses no fresh register and leaves the register frame indices are
replaced by sums with alone. -/
structure Eliminable (mf : MachineFunction) (v : Nat) (i : MachineInstr) : Prop where
  old : ∀ n, .reg (.vreg n) ∈ i.operands → n < v
  base : writtenReg i ≠ some (getFrameRegister mf)

theorem exec_cases {i : MachineInstr} (hexec : i.exec m = some m₁) :
    (∃ dst x, writtenReg i = some dst ∧ m₁ = m.setReg dst x) ∨ m₁.regs = m.regs := by
  rcases i with ⟨opc, ops⟩
  have hset : ∀ {dst : Register} {x : Option Word} {f : Word → Word},
      (x.bind fun a => some (m.setReg dst (f a))) = some m₁ → ∃ a, m₁ = m.setReg dst a := by
    intro dst x f h
    rcases Option.bind_eq_some_iff.mp h with ⟨a, _, ha⟩
    exact ⟨_, (Option.some.inj ha).symm⟩
  have hset₂ : ∀ {dst : Register} {x y : Option Word} {f : Word → Word → Word},
      (x.bind fun a => y.bind fun b => some (m.setReg dst (f a b))) = some m₁ →
      ∃ a, m₁ = m.setReg dst a := by
    intro dst x y f h
    rcases Option.bind_eq_some_iff.mp h with ⟨a, _, ha⟩
    rcases Option.bind_eq_some_iff.mp ha with ⟨b, _, hb⟩
    exact ⟨_, (Option.some.inj hb).symm⟩
  have hstore : ∀ {x y : Option Word} {k : Word → Word → Machine},
      (x.bind fun a => y.bind fun b => some (k a b)) = some m₁ → ∃ a b, m₁ = k a b := by
    intro x y k h
    rcases Option.bind_eq_some_iff.mp h with ⟨a, _, ha⟩
    rcases Option.bind_eq_some_iff.mp ha with ⟨b, _, hb⟩
    exact ⟨a, b, (Option.some.inj hb).symm⟩
  unfold MachineInstr.exec at hexec
  split at hexec
  · next dst src1 src2 rest hopc hops =>
    cases hopc
    cases hops
    rcases hset₂ hexec with ⟨a, rfl⟩
    exact Or.inl ⟨dst, a, rfl, rfl⟩
  · next dst src1 src2 rest hopc hops =>
    cases hopc
    cases hops
    rcases hset₂ hexec with ⟨a, rfl⟩
    exact Or.inl ⟨dst, a, rfl, rfl⟩
  · next dst src rest hopc hops =>
    cases hopc
    cases hops
    rcases hset (f := fun a => a) hexec with ⟨a, rfl⟩
    exact Or.inl ⟨dst, a, rfl, rfl⟩
  · next dst src rest hopc hops =>
    cases hopc
    cases hops
    rcases hset hexec with ⟨a, rfl⟩
    exact Or.inl ⟨dst, a, rfl, rfl⟩
  · rcases hstore hexec with ⟨a, b, rfl⟩
    exact Or.inr rfl
  · next dst src rest hopc hops =>
    cases hopc
    cases hops
    rcases hset hexec with ⟨a, rfl⟩
    exact Or.inl ⟨dst, a, rfl, rfl⟩
  · rcases hstore hexec with ⟨a, b, rfl⟩
    exact Or.inr rfl
  · cases hexec

theorem writtenReg_resolve (addr : Int → Word) (i : MachineInstr) :
    writtenReg (resolve addr i) = writtenReg i := by
  rcases i with ⟨opc, ops⟩
  cases ops with
  | nil => rfl
  | cons o ops => cases opc <;> cases o <;> rfl

theorem exec_keeps {i : MachineInstr} {r : Register} (hr : writtenReg i ≠ some r)
    (hexec : (resolve addr i).exec m = some m₁) : m₁.regs r = m.regs r := by
  rcases exec_cases hexec with ⟨dst, x, hdst, rfl⟩ | hregs
  · rw [writtenReg_resolve] at hdst
    apply Machine.setReg_of_ne
    intro heq
    exact hr (heq ▸ hdst)
  · rw [hregs]

def baseValue (mf : MachineFunction) (sp : Word) : Word :=
  sp + if hasFP mf then 0 else BitVec.ofNat 32 mf.frameInfo.stackSize

variable {mf : MachineFunction} {sp : Word}

theorem old_getFrameRegister (mf : MachineFunction) (v : Nat) : Old v (getFrameRegister mf) := by
  intro n hn
  unfold getFrameRegister at hn
  split at hn <;> cases hn

theorem run_frameIndexCode (fi : Int) (VReg : Nat)
    (hbase : m.regs (getFrameRegister mf) = baseValue mf sp) :
    ∃ m₁, runInstrs (eliminateFrameIndex mf fi VReg).1 m = some m₁ ∧ Agrees VReg m m₁ ∧
      m₁.regs (eliminateFrameIndex mf fi VReg).2 = frameAddress mf sp fi ∧
      Old (nextVReg mf fi VReg) (eliminateFrameIndex mf fi VReg).2 := by
  have haddr : frameAddress mf sp fi = baseValue mf sp + BitVec.ofInt 32
      (if frameOffset mf fi < 0 then -frameOffset mf fi else frameOffset mf fi) := by
    unfold frameAddress displacement baseValue
    split <;> simp [BitVec.ofInt_add, BitVec.ofInt_natCast, BitVec.add_assoc]
  have hfresh : ∀ x, Agrees VReg m (m.setReg (.vreg VReg) x) := by
    intro x
    refine ⟨fun r hr => Machine.setReg_of_ne m x ?_, rfl, rfl⟩
    intro heq
    exact Nat.lt_irrefl VReg (hr VReg heq)
  have hnext : frameOffset mf fi ≠ 0 → Old (nextVReg mf fi VReg) (.vreg VReg) := by
    intro h0 n hn
    cases hn
    rw [nextVReg, if_pos h0]
    exact Nat.lt_succ_self VReg
  rw [haddr]
  unfold eliminateFrameIndex
  have hbase' : m.regs (if hasFP mf then .gpr 31 else .gpr 30) = baseValue mf sp := hbase
  rcases Int.lt_trichotomy (frameOffset mf fi) 0 with hneg | h0 | hpos
  · have hne : frameOffset mf fi ≠ 0 := by omega
    rw [if_pos hne, if_neg (show ¬ frameOffset mf fi > 0 by omega), if_pos hneg]
    refine ⟨_, rfl, hfresh _, ?_, hnext hne⟩
    rw [Machine.setReg_self, hbase', BitVec.ofInt_neg, BitVec.sub_eq_add_neg]
  · rw [if_neg (not_not.mpr h0), if_neg (show ¬ frameOffset mf fi < 0 by omega), h0]
    refine ⟨m, rfl, .refl VReg m, ?_, old_getFrameRegister mf _⟩
    rw [hbase']
    exact (BitVec.add_zero _).symm
  · have hne : frameOffset mf fi ≠ 0 := by omega
    rw [if_pos hne, if_pos hpos, if_neg (show ¬ frameOffset mf fi < 0 by omega)]
    refine ⟨_, rfl, hfresh _, ?_, hnext hne⟩
    rw [Machine.setReg_self, hbase']

/-- The code in front of an instruction leaves the addresses of its frame indices in
the registers that replace them. -/
theorem run_eliminateOperands {ops : List MachineOperand} {VReg : Nat} (hv : v ≤ VReg)
    (hold : ∀ n, .reg (.vreg n) ∈ ops → n < v)
    (hbase : m.regs (getFrameRegister mf) = baseValue mf sp) :
    ∃ m₁, runInstrs (eliminateOperands mf ops VReg).1 m = some m₁ ∧ Agrees VReg m m₁ ∧
      VReg ≤ (eliminateOperands mf ops VReg).2.2 ∧
      List.Forall₂ (StandsFor (frameAddress mf sp) v m₁) ops (eliminateOperands mf ops VReg).2.1 := by
  induction ops generalizing VReg m with
  | nil => exact ⟨m, rfl, .refl VReg m, Nat.le_refl VReg, .nil⟩
  | cons o ops ih =>
      have hrest : ∀ n, .reg (.vreg n) ∈ ops → n < v := fun n hn => hold n (by simp [hn])
      cases o with
      | frameIndex fi =>
          rcases run_frameIndexCode fi VReg hbase with ⟨m₁, hrun, hagree, haddr, hnext⟩
          have hle : VReg ≤ nextVReg mf fi VReg := by
            unfold nextVReg
            split <;> omega
          have hbase' : m₁.regs (getFrameRegister mf) = baseValue mf sp := by
            rw [hagree.regs _ (old_getFrameRegister mf VReg), hbase]
          rcases ih (Nat.le_trans hv hle) hrest hbase' with ⟨m₂, hrun', hagree', hle', hops⟩
          have hcode : eliminateOperands mf (.frameIndex fi :: ops) VReg =
              ((eliminateFrameIndex mf fi VReg).1 ++
                  (eliminateOperands mf ops (nextVReg mf fi VReg)).1,
                .reg (eliminateFrameIndex mf fi VReg).2 ::
                  (eliminateOperands mf ops (nextVReg mf fi VReg)).2.1,
                (eliminateOperands mf ops (nextVReg mf fi VReg)).2.2) := rfl
          rw [hcode]
          refine ⟨m₂, ?_, hagree.trans hle hagree', Nat.le_trans hle hle',
            .cons (.index fi _ ((hagree'.regs _ hnext).trans haddr)) hops⟩
          rw [runInstrs_append, hrun]
          exact hrun'
      | reg r =>
          rcases ih hv hrest hbase with ⟨m₁, hrun, hagree, hle, hops⟩
          exact ⟨m₁, hrun, hagree, hle, .cons (.reg r fun n hn => hold n (by simp [hn])) hops⟩
      | imm x =>
          rcases ih hv hrest hbase with ⟨m₁, hrun, hagree, hle, hops⟩
          exact ⟨m₁, hrun, hagree, hle, .cons (.imm x) hops⟩

theorem run_eliminateBody {body : List MachineInstr} {VReg : Nat} (hv : v ≤ VReg)
    (hbody : ∀ i ∈ body, Eliminable mf v i) (hagree : Agrees v m m')
    (hbase : m.regs (getFrameRegister mf) = baseValue mf sp)
    (hrun : runInstrs (body.map (resolve (frameAddress mf sp))) m = some m₁) :
    ∃ m₁', runInstrs (eliminateBody mf body VReg) m' = some m₁' ∧ Agrees v m₁ m₁' := by
  induction body generalizing VReg m m' with
  | nil =>
      cases hrun
      exact ⟨m', rfl, hagree⟩
  | cons i body ih =>
      have hi := hbody i (by simp)
      rw [List.map_cons, runInstrs] at hrun
      rcases Option.bind_eq_some_iff.mp hrun with ⟨m₂, hexec, hrun⟩
      have hbase' : m'.regs (getFrameRegister mf) = baseValue mf sp := by
        rw [hagree.regs _ (old_getFrameRegister mf v), hbase]
      rcases run_eliminateOperands hv hi.old hbase' with ⟨n, hcode, hagree', hle, hops⟩
      rcases exec_standsFor hops (hagree.trans hv hagree') hexec with ⟨n', hexec', hagree''⟩
      have hbase₂ : m₂.regs (getFrameRegister mf) = baseValue mf sp := by
        rw [exec_keeps hi.base hexec, hbase]
      rcases ih (Nat.le_trans hv hle) (fun j hj => hbody j (by simp [hj])) hagree'' hbase₂ hrun with
        ⟨m₃, hrest, hagree₃⟩
      refine ⟨m₃, ?_, hagree₃⟩
      show runInstrs ((eliminateOperands mf i.operands VReg).1 ++
        ⟨i.opcode, (eliminateOperands mf i.operands VReg).2.1⟩ ::
          eliminateBody mf body (eliminateOperands mf i.operands VReg).2.2) m' = some m₃
      rw [runInstrs_append, hcode, Option.bind_some, runInstrs, hexec']
      exact hrest

theorem afterPrologue_base (mf : MachineFunction) (m : Machine) :
    (afterPrologue mf m).regs (getFrameRegister mf) = baseValue mf m.sp := by
  unfold getFrameRegister baseValue
  by_cases hfp : hasFP mf = true
  · simp [afterPrologue, hfp]
  · simp [afterPrologue, hfp]

/-- What a body does behind the prologue with the addresses in place of its frame indices,
the prologue and the rewritten body do as well, in memory and in every register that is
not fresh. -/
theorem run_emitPrologue_eliminateBody {body : List MachineInstr}
    (hbody : ∀ i ∈ body, Eliminable mf v i)
    (hrun : runInstrs (body.map (resolve (frameAddress mf m.sp))) (afterPrologue mf m) = some m₁) :
    ∃ m₂, runInstrs (emitPrologue mf ++ eliminateBody mf body v) m = some m₂ ∧
      m₂.mem = m₁.mem ∧ m₂.localMem = m₁.localMem ∧ ∀ r, Old v r → m₂.regs r = m₁.regs r := by
  rcases run_eliminateBody (Nat.le_refl v) hbody (.refl v _) (afterPrologue_base mf m) hrun with
    ⟨m₂, hrun', hagree⟩
  refine ⟨m₂, ?_, hagree.mem, hagree.localMem, hagree.regs⟩
  rw [runInstrs_append, run_emitPrologue]
  exact hrun'

theorem resolve_congr {addr addr' : Int → Word} {i : MachineInstr}
    (h : ∀ fi, .frameIndex fi ∈ i.operands → addr fi = addr' fi) : resolve addr i = resolve addr' i := by
  unfold resolve
  congr 1
  apply List.map_congr_left
  intro o ho
  cases o with
  | reg r => rfl
  | imm x => rfl
  | frameIndex fi => exact congrArg (fun a => MachineOperand.imm a.toInt) (h fi ho)

/-- Frame index elimination preserves a list of the modelled instructions that leaves `R31`
alone in a function with a frame pointer: with every frame index meaning the address of its
object, it does behind the prologue what the prologue and the rewritten list do, fresh
registers aside. -/
theorem eliminateBody_preserves {body : List MachineInstr} (hfp : hasFP mf = true)
    (hbody : ∀ i ∈ body, Eliminable mf v i)
    (hoffset : ∀ i ∈ body, ∀ fi, .frameIndex fi ∈ i.operands →
      0 ≤ mf.frameInfo.objectOffset fi ∧ mf.frameInfo.objectOffset fi < 2 ^ 31)
    (hrun : runInstrs (body.map
        (resolve fun fi => m.sp + BitVec.ofInt 32 (mf.frameInfo.objectOffset fi)))
      (afterPrologue mf m) = some m₁) :
    ∃ m₂, runInstrs (emitPrologue mf ++ eliminateBody mf body v) m = some m₂ ∧
      m₂.mem = m₁.mem ∧ m₂.localMem = m₁.localMem ∧ ∀ r, Old v r → m₂.regs r = m₁.regs r := by
  have hsame : body.map (resolve fun fi => m.sp + BitVec.ofInt 32 (mf.frameInfo.objectOffset fi)) =
      body.map (resolve (frameAddress mf m.sp)) := by
    apply List.map_congr_left
    intro i hi
    apply resolve_congr
    intro fi hfi
    rcases hoffset i hi fi hfi with ⟨hlo, hhi⟩
    exact (frameAddress_eq hfp hlo hhi m.sp).symm
  rw [hsame] at hrun
  exact run_emitPrologue_eliminateBody hbody hrun

/-- A frame of two words with a frame pointer, object `1` behind object `0`. -/
def twoWordFrame : MachineFunction := ⟨⟨8, false, false, fun fi => 4 * fi⟩, true⟩

/-- `store R5` to object 1, the address of object 1 to `v0`, and `load` from there. -/
def storeLoad : List MachineInstr :=
  [⟨.STORErr, [.reg (.gpr 5), .frameIndex 1]⟩, ⟨.MOVrr, [.reg (.vreg 0), .frameIndex 1]⟩,
    ⟨.LOADrr, [.reg (.gpr 6), .reg (.vreg 0)]⟩]

theorem eliminateBody_preserves_storeLoad :
    ∃ m₂, runInstrs (emitPrologue twoWordFrame ++ eliminateBody twoWordFrame storeLoad 1)
        ⟨fun r => if r = .gpr 5 then 7 else 0x100, fun _ => 0, fun _ => 0⟩ = some m₂ ∧
      m₂.regs (.gpr 6) = 7 := by
  have hbody : ∀ i ∈ storeLoad, Eliminable twoWordFrame 1 i := by
    intro i hi
    simp only [storeLoad, List.mem_cons, List.not_mem_nil, or_false] at hi
    rcases hi with rfl | rfl | rfl
    · exact ⟨by simp, by decide⟩
    · exact ⟨by simp, by decide⟩
    · exact ⟨by simp, by decide⟩
  have hoffset : ∀ i ∈ storeLoad, ∀ fi, MachineOperand.frameIndex fi ∈ i.operands →
      0 ≤ twoWordFrame.frameInfo.objectOffset fi ∧
        twoWordFrame.frameInfo.objectOffset fi < 2 ^ 31 := by
    intro i hi fi hfi
    simp only [storeLoad, List.mem_cons, List.not_mem_nil, or_false] at hi
    rcases hi with rfl | rfl | rfl <;> simp_all [twoWordFrame]
  rcases eliminateBody_preserves rfl hbody hoffset rfl with ⟨m₂, hrun, _, _, hregs⟩
  refine ⟨m₂, hrun, ?_⟩
  rw [hregs (.gpr 6) fun n hn => by cases hn]
  exact Memory.loadWord_storeWord (by decide) _ _ _

end Mandarin.Frame
