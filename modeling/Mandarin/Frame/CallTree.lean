import Mandarin.Frame.FrameLowering

/-! # Call trees

A body is a sequence of writes to the allocatable registers of its function and
of calls, each with the function called and the body it runs. Running a body
records, for every call in the tree, the machine before the call and after the
return. `call` and `ret` themselves change neither registers nor local memory,
and around a body exactly the callee-saved registers are saved and restored.
-/

namespace Mandarin.Frame

open Memory

/-- Registers of the classes, minus the reserved ones. -/
def Allocatable (mf : MachineFunction) (r : Reg) : Prop :=
  (∃ rc : RegClass, rc.contains r = true) ∧ r ∉ getReservedRegs mf

/-- What a function does between its prologue and its epilogue. `write` gives
every general register of `r` its value under `v`. -/
inductive Body : MachineFunction → Type where
  | ret {mf : MachineFunction} : Body mf
  | write {mf : MachineFunction} (r : Reg) (h : Allocatable mf r) (v : Fin 32 → Word)
      (rest : Body mf) : Body mf
  | call {mf : MachineFunction} (callee : MachineFunction) (body : Body callee) (rest : Body mf) :
      Body mf

def writeLanes (m : Machine) (r : Reg) (v : Fin 32 → Word) : Machine :=
  { m with regs := fun q =>
      match q with
      | .gpr n => if n ∈ r.lanes then v n else m.regs q
      | .vreg _ => m.regs q }

structure CallRecord where
  caller : MachineFunction
  before : Machine
  after : Machine

def restoreCalleeSaved (mf : MachineFunction) (saved m : Machine) : Machine :=
  (getCalleeSavedRegs mf).foldl
    (fun m r => writeLanes m r fun n => saved.regs (.gpr n)) m

def Body.run {mf : MachineFunction} : Body mf → Machine → Option (Machine × List CallRecord)
  | ret, m => some (m, [])
  | write r _ v rest, m => rest.run (writeLanes m r v)
  | call callee body rest, m => do
      let entered ← runInstrs (emitPrologue callee) m
      let (left, inner) ← body.run entered
      let returned ← runInstrs (emitEpilogue callee) (restoreCalleeSaved callee entered left)
      let (final, outer) ← rest.run returned
      some (final, inner ++ ⟨mf, m, returned⟩ :: outer)

def Body.FixedSize {mf : MachineFunction} : Body mf → Prop
  | ret => True
  | write _ _ _ rest => rest.FixedSize
  | call callee body rest =>
      callee.frameInfo.hasVarSizedObjects = false ∧ body.FixedSize ∧ rest.FixedSize

/-! ## Writes -/

theorem writeLanes_of_not_mem {m : Machine} {r : Reg} {v : Fin 32 → Word} {n : Fin 32}
    (h : n ∉ r.lanes) : (writeLanes m r v).regs (.gpr n) = m.regs (.gpr n) := if_neg h

theorem Allocatable.lanes {mf : MachineFunction} {r : Reg} (h : Allocatable mf r) {n : Fin 32}
    (hn : Reg.R n ∈ getReservedRegs mf) (h30 : 30 ≤ n.val) : n ∉ r.lanes := by
  intro hmem
  cases r with
  | R k =>
      rw [Reg.lanes_R, List.mem_singleton] at hmem
      rw [hmem] at hn
      exact h.2 hn
  | NoRegister => cases hmem
  | CC_FLAG => cases hmem
  | RD k =>
      have hlt := Reg.lanes_of_tuple_lt (.RD k) (by simp) n hmem
      omega
  | RQ k =>
      have hlt := Reg.lanes_of_tuple_lt (.RQ k) (by simp) n hmem
      omega

theorem Allocatable.sp {mf : MachineFunction} {r : Reg} (h : Allocatable mf r) (m : Machine)
    (v : Fin 32 → Word) : (writeLanes m r v).sp = m.sp :=
  writeLanes_of_not_mem (h.lanes (by simp [getReservedRegs]) (by decide))

theorem Allocatable.fp {mf : MachineFunction} {r : Reg} (h : Allocatable mf r)
    (hfp : hasFP mf = true) (m : Machine) (v : Fin 32 → Word) : (writeLanes m r v).fp = m.fp :=
  writeLanes_of_not_mem (h.lanes (by simp [getReservedRegs, hfp]) (by decide))

/-! ## One activation -/

/-- One call: the machine behind the return and the records of the calls inside. -/
def activate (callee : MachineFunction) (body : Body callee) (m : Machine) :
    Option (Machine × List CallRecord) := do
  let entered ← runInstrs (emitPrologue callee) m
  let (left, inner) ← body.run entered
  let returned ← runInstrs (emitEpilogue callee) (restoreCalleeSaved callee entered left)
  some (returned, inner)

theorem run_call {mf callee : MachineFunction} (body : Body callee) (rest : Body mf) (m : Machine) :
    (Body.call callee body rest).run m = (do
      let (returned, inner) ← activate callee body m
      let (final, outer) ← rest.run returned
      some (final, inner ++ ⟨mf, m, returned⟩ :: outer)) := by
  simp only [Body.run, activate, run_emitPrologue, run_emitEpilogue, bind, Option.bind]
  cases body.run (afterPrologue callee m) <;> rfl

/-- No register is saved, so an activation is prologue, body and epilogue. -/
theorem activate_eq {callee : MachineFunction} (body : Body callee) (m : Machine) :
    activate callee body m =
      (body.run (afterPrologue callee m)).map fun p => (afterEpilogue callee p.1, p.2) := by
  simp only [activate, run_emitPrologue, run_emitEpilogue, restoreCalleeSaved, getCalleeSavedRegs,
    List.foldl_nil, bind, Option.bind]
  cases body.run (afterPrologue callee m) <;> rfl

theorem Body.run_total {mf : MachineFunction} (b : Body mf) (m : Machine) :
    ∃ final records, b.run m = some (final, records) := by
  induction b generalizing m with
  | ret => exact ⟨m, [], rfl⟩
  | write r h v rest ih => exact ih (writeLanes m r v)
  | call callee body rest ihBody ihRest =>
      rcases ihBody (afterPrologue callee m) with ⟨left, inner, hbody⟩
      rcases ihRest (afterEpilogue callee left) with ⟨final, outer, hrest⟩
      rw [run_call, activate_eq, hbody]
      simp only [Option.map_some, bind, Option.bind, hrest]
      exact ⟨_, _, rfl⟩

theorem run_call_eq_some {mf callee : MachineFunction} {body : Body callee} {rest : Body mf}
    {m final : Machine} {records : List CallRecord}
    (h : (Body.call callee body rest).run m = some (final, records)) :
    ∃ left inner outer, body.run (afterPrologue callee m) = some (left, inner) ∧
      rest.run (afterEpilogue callee left) = some (final, outer) ∧
      records = inner ++ ⟨mf, m, afterEpilogue callee left⟩ :: outer := by
  rcases body.run_total (afterPrologue callee m) with ⟨left, inner, hbody⟩
  rcases rest.run_total (afterEpilogue callee left) with ⟨final', outer, hrest⟩
  rw [run_call, activate_eq, hbody] at h
  simp only [Option.map_some, bind, Option.bind, hrest, Option.some.injEq, Prod.mk.injEq] at h
  rcases h with ⟨rfl, rfl⟩
  exact ⟨left, inner, outer, hbody, hrest, rfl⟩

end Mandarin.Frame
