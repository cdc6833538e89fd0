import Mandarin.Frame.CallTree

/-! # Registers across a call

A call declares that it clobbers `R0` to `R3` and `R31`, and no register is
callee-saved. What a register holds behind a call is the last value that the
callee or a function below it writes there; the declared list plays no part in it.
-/

namespace Mandarin.Frame

/-- `Defs` of `CALLi` and `CALLr`. -/
def callDefs : List Reg := [.R 0, .R 1, .R 2, .R 3, .R 31]

/-- A register LLVM may keep a value in across a call. -/
def LiveAcross (n : Fin 32) : Prop := Reg.R n ∉ callDefs ∧ Reg.R n ≠ stackPointer

/-- The last value written to `Rn` in the body and the calls it makes. -/
def Body.lastWrite {mf : MachineFunction} (n : Fin 32) : Body mf → Option Word
  | ret => none
  | write r _ v rest => (rest.lastWrite n).or (if n ∈ r.lanes then some (v n) else none)
  | call _ body rest => (rest.lastWrite n).or (body.lastWrite n)

theorem LiveAcross.ne {n : Fin 32} (h : LiveAcross n) : n ≠ 30 ∧ n ≠ 31 := by
  constructor
  · intro h30
    exact h.2 (by rw [h30])
  · intro h31
    exact h.1 (by rw [h31]; decide)

/-- `R4` to `R29`. -/
theorem liveAcross_iff (n : Fin 32) : LiveAcross n ↔ 4 ≤ n.val ∧ n.val ≤ 29 := by
  revert n
  unfold LiveAcross
  decide

/-! ## Prologue and epilogue leave the register alone -/

theorem afterPrologue_gpr {n : Fin 32} (h30 : n ≠ 30) (h31 : n ≠ 31) (mf : MachineFunction)
    (m : Machine) : (afterPrologue mf m).regs (.gpr n) = m.regs (.gpr n) := by
  simp [afterPrologue, h30, h31]

theorem afterEpilogue_gpr {n : Fin 32} (h30 : n ≠ 30) (h31 : n ≠ 31) (mf : MachineFunction)
    (m : Machine) : (afterEpilogue mf m).regs (.gpr n) = m.regs (.gpr n) := by
  simp [afterEpilogue, h30, h31]

/-! ## The last write -/

theorem writeLanes_gpr (m : Machine) (r : Reg) (v : Fin 32 → Word) (n : Fin 32) :
    (writeLanes m r v).regs (.gpr n) =
      (if n ∈ r.lanes then some (v n) else none).getD (m.regs (.gpr n)) := by
  by_cases h : n ∈ r.lanes
  · simp [writeLanes, h]
  · simp [writeLanes, h]

theorem Body.run_lastWrite {mf : MachineFunction} {n : Fin 32} (h30 : n ≠ 30) (h31 : n ≠ 31)
    {b : Body mf} {m final : Machine} {records : List CallRecord}
    (hrun : b.run m = some (final, records)) :
    final.regs (.gpr n) = (b.lastWrite n).getD (m.regs (.gpr n)) := by
  induction b generalizing m final records with
  | ret =>
      cases hrun
      rfl
  | write r h v rest ih =>
      rw [Body.run] at hrun
      rw [ih hrun, writeLanes_gpr, Body.lastWrite, Option.getD_or]
  | call callee body rest ihBody ihRest =>
      rcases run_call_eq_some hrun with ⟨left, inner, outer, hbody, hrest, _⟩
      rw [ihRest hrest, afterEpilogue_gpr h30 h31, ihBody hbody, afterPrologue_gpr h30 h31,
        Body.lastWrite, Option.getD_or]

/-- A call keeps the registers it does not declare as clobbered if and only if the
last write to each of them, below the call, restores the value from before. -/
theorem activate_preserves_iff {callee : MachineFunction} (body : Body callee) (m : Machine) :
    ∃ after records, activate callee body m = some (after, records) ∧
      ((∀ n, LiveAcross n → after.regs (.gpr n) = m.regs (.gpr n)) ↔
        ∀ n, LiveAcross n → ∀ v, body.lastWrite n = some v → v = m.regs (.gpr n)) := by
  rcases body.run_total (afterPrologue callee m) with ⟨left, records, hrun⟩
  have hafter : ∀ n, LiveAcross n →
      (afterEpilogue callee left).regs (.gpr n) = (body.lastWrite n).getD (m.regs (.gpr n)) := by
    intro n hn
    rw [afterEpilogue_gpr hn.ne.1 hn.ne.2, Body.run_lastWrite hn.ne.1 hn.ne.2 hrun,
      afterPrologue_gpr hn.ne.1 hn.ne.2]
  refine ⟨afterEpilogue callee left, records, by rw [activate_eq, hrun]; rfl, ?_⟩
  constructor
  · intro hkeeps n hn v hv
    have hsame := hafter n hn
    rw [hkeeps n hn, hv] at hsame
    exact hsame.symm
  · intro hrestores n hn
    rw [hafter n hn]
    cases hv : body.lastWrite n with
    | none => rfl
    | some v => exact hrestores n hn v hv

def leaf : MachineFunction := ⟨⟨0, false, false, fun _ => 0⟩, false⟩

/-- `R4` is not declared, not saved, and free to use. -/
theorem call_clobbers_R4 :
    ∃ (body : Body leaf) (m after : Machine) (records : List CallRecord),
      activate leaf body m = some (after, records) ∧
      ∃ n, LiveAcross n ∧ after.regs (.gpr n) ≠ m.regs (.gpr n) := by
  have hr4 : Allocatable leaf (.R 4) := ⟨⟨.GenericRegs, rfl⟩, by decide⟩
  let m : Machine := ⟨fun _ => 0, fun _ => 0, fun _ => 0⟩
  let left := writeLanes (afterPrologue leaf m) (.R 4) fun _ => 1
  refine ⟨.write (.R 4) hr4 (fun _ => 1) .ret, m, afterEpilogue leaf left, [], ?_, 4,
    (liveAcross_iff 4).mpr (by decide), ?_⟩
  · rw [activate_eq]
    rfl
  · rw [afterEpilogue_gpr (by decide) (by decide)]
    decide

end Mandarin.Frame
