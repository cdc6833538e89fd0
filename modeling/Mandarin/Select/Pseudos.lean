import Mandarin.Select.WellFormed

/-! # The pseudos of a function

A pseudo is told from the others by the register it defines, which in SSA form no
other does. An expansion takes away the register of its pseudo and no other, and a
run selects only registers of pseudos that are still there.
-/

namespace Mandarin.Select

open Branch (BlockId CondCodes)
open Simulation

variable {ι φ μ : Type} {T : Target ι φ μ} {f g : MachineFunction ι} {BB : BlockId}
  {kind : SelectKind} {dst t e : Register} {CC : CondCodes} {pre post : List (Inst ι)}

/-! ## Counting pseudos -/

def Inst.selectDst : Inst ι → Option Register
  | op _ => none
  | selectCC _ dst _ _ _ => some dst

/-- The registers pseudos define, in layout order. -/
def MachineFunction.selectDsts (f : MachineFunction ι) : List Register :=
  f.layout.flatMap fun b => (f.block b).body.filterMap Inst.selectDst

def MachineFunction.selects (f : MachineFunction ι) : Nat := f.selectDsts.length

theorem Inst.mem_selectDsts {b : BlockId} (hb : b ∈ f.layout) {i : Inst ι}
    (hi : i ∈ (f.block b).body) (hdst : i.selectDst = some dst) : dst ∈ f.selectDsts :=
  List.mem_flatMap.mpr ⟨b, hb, List.mem_filterMap.mpr ⟨i, hi, hdst⟩⟩

theorem Expansion.selectDsts_other (h : Expansion f g BB kind dst t e CC pre post)
    (hfresh : ∀ b ∈ f.layout, b < f.nextBlockNum) {blocks : List BlockId}
    (hmem : ∀ b ∈ blocks, b ∈ f.layout) (hne : BB ∉ blocks) :
    blocks.flatMap (fun b => (g.block b).body.filterMap Inst.selectDst) =
      blocks.flatMap fun b => (f.block b).body.filterMap Inst.selectDst := by
  rw [List.flatMap_def, List.flatMap_def]
  congr 1
  apply List.map_congr_left
  intro b hb
  have hother := h.other b (fun heq => hne (heq ▸ hb)) (hfresh b (hmem b hb))
  rw [hother]

theorem Expansion.selectDsts (hf : WellFormed f) (h : Expansion f g BB kind dst t e CC pre post) :
    f.selectDsts.Perm (dst :: g.selectDsts) := by
  rcases h.layout with ⟨front, back, hfront, hlf, hlg⟩
  have hnodup := hf.nodup
  rw [hlf] at hnodup
  have hback : BB ∉ back := (List.nodup_cons.mp (List.nodup_append.mp hnodup).2.1).1
  have hfrontEq := h.selectDsts_other hf.fresh (fun b hb => by rw [hlf]; simp [hb]) hfront
  have hbackEq := h.selectDsts_other hf.fresh (fun b hb => by rw [hlf]; simp [hb]) hback
  have hBB : (f.block BB).body.filterMap Inst.selectDst =
      pre.filterMap Inst.selectDst ++ dst :: post.filterMap Inst.selectDst := by
    rw [h.body, List.filterMap_append]
    rfl
  unfold MachineFunction.selectDsts
  rw [hlf, hlg]
  simp only [List.flatMap_append, List.flatMap_cons]
  rw [hfrontEq, hbackEq, hBB, h.thisMBB, h.copy0MBB, h.sinkMBB, List.filterMap_nil,
    List.nil_append, List.append_assoc, List.cons_append]
  exact (List.perm_middle.append_left _).trans List.perm_middle

/-! ## Pseudos in runs -/

/-- A select of a register that is `pending`, or anything else. -/
def Event.Pending (pending : Register → Prop) : Event ι → Prop
  | select dst _ => pending dst
  | exec _ | enter _ _ | ret => True

/-- In a block of the function, with no pseudo ahead that is not of the function. -/
def Config.Pending (f : MachineFunction ι) : Config ι φ μ → Prop
  | run b rest _ => b ∈ f.layout ∧ ∀ i ∈ rest, ∀ dst, i.selectDst = some dst → dst ∈ f.selectDsts
  | returned _ => True

theorem Config.pending_start {b : BlockId} (hb : b ∈ f.layout) (st : State φ μ) :
    (Config.start f b st).Pending f :=
  ⟨hb, fun _ hi _ hdst => Inst.mem_selectDsts hb hi hdst⟩

theorem Step.pending (hf : WellFormed f) {c c' : Config ι φ μ} {event : Event ι}
    (hc : c.Pending f) (h : Step T f c event c') :
    event.Pending (· ∈ f.selectDsts) ∧ c'.Pending f := by
  cases h with
  | op _ => exact ⟨trivial, hc.1, fun i hi => hc.2 i (List.mem_cons_of_mem _ hi)⟩
  | select =>
      exact ⟨hc.2 _ List.mem_cons_self _ rfl, hc.1, fun i hi => hc.2 i (List.mem_cons_of_mem _ hi)⟩
  | @enter b b' st values _ hsucc _ => exact ⟨trivial, Config.pending_start (hf.closed b hc.1 b' hsucc) _⟩
  | ret _ => exact ⟨trivial, trivial⟩

/-- A run selects only what a pseudo of the function defines. -/
theorem run_pending (hf : WellFormed f) {c c' : Config ι φ μ} {events : List (Event ι)}
    (hc : c.Pending f) (h : Run (Step T f) c events c') :
    ∀ event ∈ events, event.Pending (· ∈ f.selectDsts) := by
  induction h with
  | nil => exact fun _ hevent => nomatch hevent
  | cons first _ ih =>
      rcases first.pending hf hc with ⟨hfirst, hnext⟩
      intro event hevent
      rcases List.mem_cons.mp hevent with rfl | hevent
      · exact hfirst
      · exact ih hnext event hevent

end Mandarin.Select
