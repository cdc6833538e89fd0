import Mandarin.Frame.CallTree

/-! # Stack and frame pointer across calls

The stack pointer survives every call, because the bodies cannot write it and
prologue and epilogue move it by the same amount. The frame pointer is saved at
one address for all activations: it survives a call if the callee saves it and
no other function below does, or if nobody below touches it.
-/

namespace Mandarin.Frame

open Memory

structure CallRecord.Survives (c : CallRecord) : Prop where
  sp : c.after.sp = c.before.sp
  fp : hasFP c.caller = true → c.after.fp = c.before.fp

def Body.NoFP {mf : MachineFunction} : Body mf → Prop
  | ret => True
  | write _ _ _ rest => rest.NoFP
  | call callee body rest => hasFP callee = false ∧ body.NoFP ∧ rest.NoFP

/-- The body does not write `R31`, and no call in it loses its value. -/
def Body.KeepsR31 {mf : MachineFunction} : Body mf → Prop
  | ret => True
  | write r _ _ rest => 31 ∉ r.lanes ∧ rest.KeepsR31
  | call callee body rest =>
      (if hasFP callee then body.NoFP else body.KeepsR31) ∧ rest.KeepsR31

/-- A call that returns with the `R31` it was entered with: the callee has a frame
pointer and no function below it has one, or it has none and keeps `R31`. -/
def CalleeKeepsR31 (callee : MachineFunction) (body : Body callee) : Prop :=
  if hasFP callee then body.NoFP else body.KeepsR31

/-- Every call made by a function with a frame pointer keeps `R31`. -/
def Body.Safe {mf : MachineFunction} : Body mf → Prop
  | ret => True
  | write _ _ _ rest => rest.Safe
  | call callee body rest =>
      (hasFP mf = true → CalleeKeepsR31 callee body) ∧ body.Safe ∧ rest.Safe

/-! ## Prologue and epilogue, register by register -/

theorem afterPrologue_sp (mf : MachineFunction) (m : Machine) :
    (afterPrologue mf m).sp = m.sp + BitVec.ofNat 32 mf.frameInfo.stackSize := by
  simp [afterPrologue, Machine.sp]

theorem afterPrologue_fp_of_not {mf : MachineFunction} (h : hasFP mf = false) (m : Machine) :
    (afterPrologue mf m).fp = m.fp := by
  simp [afterPrologue, Machine.fp, h]

theorem afterEpilogue_sp {mf : MachineFunction} (h : mf.frameInfo.hasVarSizedObjects = false)
    (m : Machine) : (afterEpilogue mf m).sp = m.sp - BitVec.ofNat 32 mf.frameInfo.stackSize := by
  simp [afterEpilogue, Machine.sp, h]

theorem afterEpilogue_fp (mf : MachineFunction) (m : Machine) :
    (afterEpilogue mf m).fp = if hasFP mf then loadWord m.localMem 0 else m.fp := by
  simp [afterEpilogue, Machine.fp]

/-! ## The stack pointer -/

theorem Body.run_sp {mf : MachineFunction} {b : Body mf} (hfixed : b.FixedSize) {m final : Machine}
    {records : List CallRecord} (hrun : b.run m = some (final, records)) :
    final.sp = m.sp ∧ ∀ c ∈ records, c.after.sp = c.before.sp := by
  induction b generalizing m final records with
  | ret =>
      cases hrun
      exact ⟨rfl, by simp⟩
  | write r h v rest ih =>
      have hrest := ih hfixed hrun
      rw [h.sp] at hrest
      exact hrest
  | call callee body rest ihBody ihRest =>
      rcases run_call_eq_some hrun with ⟨left, inner, outer, hbody, hrest, rfl⟩
      obtain ⟨hleft, hinner⟩ := ihBody hfixed.2.1 hbody
      obtain ⟨hfinal, houter⟩ := ihRest hfixed.2.2 hrest
      have hcall : (afterEpilogue callee left).sp = m.sp := by
        rw [afterEpilogue_sp hfixed.1, hleft, afterPrologue_sp, BitVec.add_sub_cancel]
      refine ⟨by rw [hfinal, hcall], ?_⟩
      intro c hc
      rcases List.mem_append.mp hc with hc | hc
      · exact hinner c hc
      · rcases List.mem_cons.mp hc with rfl | hc
        · exact hcall
        · exact houter c hc

/-! ## The frame pointer -/

theorem Body.run_localMem {mf : MachineFunction} {b : Body mf} (h : b.NoFP) {m final : Machine}
    {records : List CallRecord} (hrun : b.run m = some (final, records)) :
    final.localMem = m.localMem := by
  induction b generalizing m final records with
  | ret =>
      cases hrun
      rfl
  | write r hr v rest ih =>
      have hrest := ih h hrun
      rw [hrest]
      rfl
  | call callee body rest ihBody ihRest =>
      rcases run_call_eq_some hrun with ⟨left, inner, outer, hbody, hrest, _⟩
      rw [ihRest h.2.2 hrest]
      show left.localMem = m.localMem
      rw [ihBody h.2.1 hbody]
      simp [afterPrologue, h.1]

/-- A callee with a frame pointer finds what it saved. -/
theorem saved_fp {callee : MachineFunction} {body : Body callee} (hfp : hasFP callee = true)
    (h : body.NoFP) {m left : Machine} {records : List CallRecord}
    (hrun : body.run (afterPrologue callee m) = some (left, records)) :
    (afterEpilogue callee left).fp = m.fp := by
  have hmem : left.localMem = storeWord m.localMem 0 m.fp := by
    rw [Body.run_localMem h hrun]
    simp [afterPrologue, hfp]
  rw [afterEpilogue_fp, if_pos hfp, hmem]
  exact loadWord_storeWord (by decide) _ _ _

theorem Body.run_fp {mf : MachineFunction} {b : Body mf} (h : b.KeepsR31) {m final : Machine}
    {records : List CallRecord} (hrun : b.run m = some (final, records)) : final.fp = m.fp := by
  induction b generalizing m final records with
  | ret =>
      cases hrun
      rfl
  | write r hr v rest ih =>
      rw [ih h.2 hrun]
      exact writeLanes_of_not_mem h.1
  | call callee body rest ihBody ihRest =>
      rcases run_call_eq_some hrun with ⟨left, inner, outer, hbody, hrest, _⟩
      rw [ihRest h.2 hrest]
      have hcallee := h.1
      by_cases hfp : hasFP callee = true
      · rw [if_pos hfp] at hcallee
        exact saved_fp hfp hcallee hbody
      · rw [if_neg hfp] at hcallee
        have hfp' : hasFP callee = false := by simpa using hfp
        rw [afterEpilogue_fp, if_neg hfp, ihBody hcallee hbody, afterPrologue_fp_of_not hfp']

theorem CalleeKeepsR31.fp {callee : MachineFunction} {body : Body callee}
    (h : CalleeKeepsR31 callee body) {m left : Machine} {records : List CallRecord}
    (hrun : body.run (afterPrologue callee m) = some (left, records)) :
    (afterEpilogue callee left).fp = m.fp := by
  unfold CalleeKeepsR31 at h
  by_cases hfp : hasFP callee = true
  · rw [if_pos hfp] at h
    exact saved_fp hfp h hrun
  · rw [if_neg hfp] at h
    have hfp' : hasFP callee = false := by simpa using hfp
    rw [afterEpilogue_fp, if_neg hfp, Body.run_fp h hrun, afterPrologue_fp_of_not hfp']

/-! ## Every call of the tree -/

theorem Body.run_survives {mf : MachineFunction} {b : Body mf} (hfixed : b.FixedSize)
    (hsafe : b.Safe) {m final : Machine} {records : List CallRecord}
    (hrun : b.run m = some (final, records)) : ∀ c ∈ records, c.Survives := by
  induction b generalizing m final records with
  | ret =>
      cases hrun
      simp
  | write r h v rest ih => exact ih hfixed hsafe hrun
  | call callee body rest ihBody ihRest =>
      have hsp := (Body.run_sp hfixed hrun).2
      rcases run_call_eq_some hrun with ⟨left, inner, outer, hbody, hrest, rfl⟩
      intro c hc
      rcases List.mem_append.mp hc with hc' | hc'
      · exact ihBody hfixed.2.1 hsafe.2.1 hbody c hc'
      · rcases List.mem_cons.mp hc' with rfl | hc'
        · exact ⟨hsp _ hc, fun hfp => (hsafe.1 hfp).fp hbody⟩
        · exact ihRest hfixed.2.2 hsafe.2.2 hrest c hc'

/-- Every call tree runs to its end, every call in it returns with the stack
pointer it started with, and if every call made by a function with a frame
pointer keeps `R31`, each of these also returns with its frame pointer. -/
theorem callTree_survives {mf : MachineFunction} {b : Body mf} (hfixed : b.FixedSize) (m : Machine) :
    ∃ final records, b.run m = some (final, records) ∧
      (∀ c ∈ records, c.after.sp = c.before.sp) ∧
      (b.Safe → ∀ c ∈ records, c.Survives) := by
  rcases b.run_total m with ⟨final, records, hrun⟩
  exact ⟨final, records, hrun, (Body.run_sp hfixed hrun).2,
    fun hsafe => Body.run_survives hfixed hsafe hrun⟩

def framed : MachineFunction := ⟨⟨4, false, false, fun _ => 0⟩, true⟩

/-- Its frame behind the prologue, entered at address 0. -/
def framedMachine : Machine :=
  ⟨fun r => if r = .gpr 30 then 4 else 0, fun _ => 0, fun _ => 0⟩

/-- One level of frames below the caller. -/
theorem callTree_survives_one_level :
    ∃ final records, (Body.call framed .ret (@Body.ret framed)).run framedMachine =
        some (final, records) ∧ ∀ c ∈ records, c.Survives := by
  have hfixed : (Body.call framed .ret (@Body.ret framed)).FixedSize := ⟨rfl, trivial, trivial⟩
  rcases callTree_survives hfixed framedMachine with ⟨final, records, hrun, _, hsafe⟩
  exact ⟨final, records, hrun, hsafe ⟨fun _ => trivial, trivial, trivial⟩⟩

/-- Two levels: the inner frame overwrites the saved frame pointer. -/
theorem callTree_loses_fp :
    ∃ b : Body framed, b.FixedSize ∧ ∃ final records, b.run framedMachine = some (final, records) ∧
      ∃ c ∈ records, ¬ c.Survives := by
  let entered := afterPrologue framed framedMachine
  let returned := afterEpilogue framed (afterEpilogue framed (afterPrologue framed entered))
  have hlost : returned.fp = 4 := by
    show (afterEpilogue framed _).fp = 4
    rw [afterEpilogue_fp, if_pos (by rfl : hasFP framed = true)]
    show loadWord (storeWord entered.localMem 0 entered.fp) 0 = 4
    rw [loadWord_storeWord (by decide)]
    rfl
  refine ⟨.call framed (.call framed .ret .ret) .ret, ⟨rfl, ⟨rfl, trivial, trivial⟩, trivial⟩,
    returned, [⟨framed, entered, afterEpilogue framed (afterPrologue framed entered)⟩,
      ⟨framed, framedMachine, returned⟩], ?_, ⟨framed, framedMachine, returned⟩, by simp, ?_⟩
  · rw [run_call, activate_eq, run_call, activate_eq]
    rfl
  · intro hsurvives
    have hsame : returned.fp = framedMachine.fp := hsurvives.fp rfl
    rw [hlost] at hsame
    exact absurd hsame (by decide)

end Mandarin.Frame
