import Mandarin.Select.Expansion
import Mathlib.Data.List.Find

/-! # The expanded function

Control leaves the sink as it left the expanded block: by the same terminators, to
the same layout successor, into PHIs that expect the sink. Everything else is left
and entered as before, and the expanded function is well formed again.
-/

namespace Mandarin.Select

open Branch (BlockId CondCodes Exit fallThrough)

variable {ι φ μ : Type} {T : Target ι φ μ} {f g : MachineFunction ι} {BB : BlockId}
  {kind : SelectKind} {dst t e : Register} {CC : CondCodes} {pre post : List (Inst ι)}

/-! ## Layout -/

section
variable (hf : WellFormed f) (h : Expansion f g BB kind dst t e CC pre post)

theorem WellFormed.copy0_not_mem (hf : WellFormed f) : f.nextBlockNum ∉ f.layout :=
  fun hc => Nat.lt_irrefl _ (hf.fresh _ hc)

theorem WellFormed.sink_not_mem (hf : WellFormed f) : f.nextBlockNum + 1 ∉ f.layout :=
  fun hs => Nat.not_succ_lt_self (hf.fresh _ hs)

include h

theorem Expansion.mem : BB ∈ f.layout := by
  rcases h.layout with ⟨front, back, _, hlf, _⟩
  simp [hlf]

theorem Expansion.mem_layout (b : BlockId) : b ∈ g.layout ↔
    b ∈ f.layout ∨ b = f.nextBlockNum ∨ b = f.nextBlockNum + 1 := by
  rcases h.layout with ⟨front, back, _, hlf, hlg⟩
  rw [hlf, hlg]
  simp only [List.mem_append, List.mem_cons]
  tauto

theorem Expansion.layoutSucc_thisMBB : layoutSucc g.layout BB = some f.nextBlockNum := by
  rcases h.layout with ⟨front, back, hfront, _, hlg⟩
  rw [hlg, layoutSucc_append hfront]
  rfl

include hf

theorem Expansion.nodup : g.layout.Nodup := by
  rcases h.layout with ⟨front, back, _, hlf, hlg⟩
  have hperm : g.layout.Perm (f.nextBlockNum :: (f.nextBlockNum + 1) :: f.layout) := by
    rw [hlf, hlg, List.append_cons, List.append_cons front BB back]
    exact List.perm_middle.trans (List.Perm.cons _ List.perm_middle)
  rw [hperm.nodup_iff]
  simp [hf.nodup, hf.copy0_not_mem, hf.sink_not_mem]

theorem Expansion.layoutSucc_copy0MBB :
    layoutSucc g.layout f.nextBlockNum = some (f.nextBlockNum + 1) := by
  have hfresh := hf.copy0_not_mem
  rcases h.layout with ⟨front, back, _, hlf, hlg⟩
  rw [hlf] at hfresh
  have hout : f.nextBlockNum ∉ front ++ [BB] := by
    simp only [List.mem_append, List.mem_cons, not_or] at hfresh ⊢
    exact ⟨hfresh.1, hfresh.2.1, by simp⟩
  rw [hlg, List.append_cons, layoutSucc_append hout]
  rfl

theorem Expansion.layoutSucc_other {b : BlockId} (hb : b ∈ f.layout) (hne : b ≠ BB) :
    layoutSucc g.layout b = layoutSucc f.layout b := by
  have hlt := hf.fresh b hb
  rcases h.layout with ⟨front, back, _, hlf, hlg⟩
  by_cases hmem : b ∈ front
  · rw [hlf, hlg]
    exact layoutSucc_append_left hmem
  · have hback : b ∈ back := by
      rw [hlf, List.mem_append, List.mem_cons] at hb
      tauto
    rcases List.eq_append_cons_of_mem hback with ⟨before, behind, hsplit, hbefore⟩
    have hout : b ∉ front ++ BB :: before := by simp [hmem, hne, hbefore]
    have hout' : b ∉ front ++ BB :: f.nextBlockNum :: (f.nextBlockNum + 1) :: before := by
      simp [hmem, hne, hbefore, Nat.ne_of_lt hlt, Nat.ne_of_lt (Nat.lt_succ_of_lt hlt)]
    rw [show f.layout = (front ++ BB :: before) ++ b :: behind by simp [hlf, hsplit],
      show g.layout = (front ++ BB :: f.nextBlockNum :: (f.nextBlockNum + 1) :: before) ++
        b :: behind by simp [hlg, hsplit],
      layoutSucc_append hout, layoutSucc_append hout']

/-- Fall-through from the sink goes where it went from the expanded block. -/
theorem Expansion.layoutSucc_sinkMBB :
    layoutSucc g.layout (f.nextBlockNum + 1) = layoutSucc f.layout BB := by
  have hfresh := hf.sink_not_mem
  rcases h.layout with ⟨front, back, hfront, hlf, hlg⟩
  rw [hlf] at hfresh
  have hout : f.nextBlockNum + 1 ∉ (front ++ [BB]) ++ [f.nextBlockNum] := by
    simp only [List.mem_append, List.mem_cons, not_or] at hfresh ⊢
    simp [hfresh.1, hfresh.2.1]
  rw [hlg, List.append_cons, List.append_cons, layoutSucc_append hout, hlf,
    layoutSucc_append hfront]

/-! ## Leaving a block -/

theorem Expansion.exit_other {b : BlockId} (hb : b ∈ f.layout) (hne : b ≠ BB) (st : State φ μ) :
    exit T g b st = exit T f b st := by
  unfold exit
  rw [h.layoutSucc_other hf hb hne, h.other b hne (hf.fresh b hb)]

theorem Expansion.exit_sinkMBB (st : State φ μ) :
    exit T g (f.nextBlockNum + 1) st = exit T f BB st := by
  unfold exit
  rw [h.layoutSucc_sinkMBB hf, h.sinkMBB]

theorem Expansion.exit_copy0MBB (st : State φ μ) :
    exit T g f.nextBlockNum st = .block (f.nextBlockNum + 1) := by
  unfold exit
  rw [h.layoutSucc_copy0MBB hf, h.copy0MBB]
  rfl

omit hf in
theorem Expansion.exit_thisMBB (st : State φ μ) : exit T g BB st =
    .block (if T.holds CC st.flag then f.nextBlockNum + 1 else f.nextBlockNum) := by
  unfold exit
  rw [h.layoutSucc_thisMBB, h.thisMBB]
  by_cases hcc : T.holds CC st.flag = true
  · simp [Terminator.transfer, hcc]
  · simp [Terminator.transfer, hcc, fallThrough]

end

/-! ## PHIs -/

/-- The changed operands belong to `pred` where the old ones belong to `pred'`. -/
theorem Phi.value_setMBB_eq {fromMBB toMBB pred pred' : BlockId} (regs : Register → Word)
    {phi : Phi} (hsame : ∀ value ∈ phi.incoming,
      (if value.2 = fromMBB then toMBB else value.2) = pred ↔ value.2 = pred') :
    (phi.setMBB fromMBB toMBB).value pred regs = phi.value pred' regs := by
  unfold Phi.value Phi.setMBB
  rw [List.find?_map, Option.map_map]
  have hfind : phi.incoming.find? ((fun value => decide (value.2 = pred)) ∘ fun value =>
      if value.2 = fromMBB then (value.1, toMBB) else value) =
      phi.incoming.find? fun value => decide (value.2 = pred') := by
    apply List.find?_congr
    intro value hvalue
    have hiff := hsame value hvalue
    by_cases hfrom : value.2 = fromMBB
    · simp [hfrom] at hiff ⊢
      exact hiff
    · simp [hfrom] at hiff ⊢
      exact hiff
  rw [hfind]
  congr 1
  funext value
  by_cases hfrom : value.2 = fromMBB
  · simp [hfrom]
  · simp [hfrom]

theorem Phi.value_setMBB_of_ne {fromMBB toMBB pred : BlockId} (hfrom : pred ≠ fromMBB)
    (hto : pred ≠ toMBB) (regs : Register → Word) (phi : Phi) :
    (phi.setMBB fromMBB toMBB).value pred regs = phi.value pred regs := by
  apply Phi.value_setMBB_eq
  intro value _
  by_cases hvalue : value.2 = fromMBB
  · simp [hvalue, Ne.symm hfrom, Ne.symm hto]
  · simp [hvalue]

theorem Phi.value_setMBB {fromMBB toMBB : BlockId} (regs : Register → Word) {phi : Phi}
    (hto : ∀ value ∈ phi.incoming, value.2 ≠ toMBB) :
    (phi.setMBB fromMBB toMBB).value toMBB regs = phi.value fromMBB regs := by
  apply Phi.value_setMBB_eq
  intro value hmem
  by_cases hvalue : value.2 = fromMBB
  · simp [hvalue]
  · simp [hvalue, hto value hmem]

section
variable (hf : WellFormed f) (h : Expansion f g BB kind dst t e CC pre post)
include h

theorem Expansion.phis {b : BlockId} (hlt : b < f.nextBlockNum) :
    (g.block b).phis = phisAfter f BB (f.nextBlockNum + 1) b := by
  by_cases hb : b = BB
  · rw [hb, h.thisMBB]
  · rw [h.other b hb hlt]

include hf

/-- Coming from a block that is not expanded, PHIs choose what they chose before. -/
theorem Expansion.phiValues_other {pred b : BlockId} (hpred : pred ∈ f.layout) (hne : pred ≠ BB)
    (hb : b ∈ f.layout) (regs : Register → Word) :
    phiValues pred regs (g.block b).phis = phiValues pred regs (f.block b).phis := by
  rw [h.phis (hf.fresh b hb)]
  unfold phisAfter
  by_cases hsucc : b ∈ (f.block BB).successors
  · rw [if_pos hsucc]
    apply phiValues_map
    intro phi _
    have hsink : pred ≠ f.nextBlockNum + 1 := Nat.ne_of_lt (Nat.lt_succ_of_lt (hf.fresh _ hpred))
    exact ⟨rfl, Phi.value_setMBB_of_ne hne hsink regs phi⟩
  · rw [if_neg hsucc]

theorem Expansion.phiValues_sinkMBB {b : BlockId} (hsucc : b ∈ (f.block BB).successors)
    (regs : Register → Word) : phiValues (f.nextBlockNum + 1) regs (g.block b).phis =
      phiValues BB regs (f.block b).phis := by
  have hb := hf.closed BB h.mem b hsucc
  rw [h.phis (hf.fresh b hb)]
  unfold phisAfter
  rw [if_pos hsucc]
  apply phiValues_map
  intro phi hphi
  refine ⟨rfl, Phi.value_setMBB regs ?_⟩
  intro value hvalue
  exact Nat.ne_of_lt (Nat.lt_succ_of_lt (hf.incoming b hb phi hphi value hvalue))

end

/-! ## The expanded function is well formed -/

theorem WellFormed.phisAfter_incoming (hf : WellFormed f) {b : BlockId} (hb : b ∈ f.layout)
    {phi : Phi} (hphi : phi ∈ phisAfter f BB (f.nextBlockNum + 1) b) {value : Register × BlockId}
    (hvalue : value ∈ phi.incoming) : value.2 < f.nextBlockNum + 2 := by
  unfold phisAfter at hphi
  by_cases hsucc : b ∈ (f.block BB).successors
  · rw [if_pos hsucc] at hphi
    rcases List.mem_map.mp hphi with ⟨phi', hphi', rfl⟩
    rcases List.mem_map.mp hvalue with ⟨value', hvalue', rfl⟩
    by_cases hBB : value'.2 = BB
    · rw [if_pos hBB]
      exact Nat.lt_add_one _
    · rw [if_neg hBB]
      exact Nat.lt_add_right 2 (hf.incoming b hb phi' hphi' value' hvalue')
  · rw [if_neg hsucc] at hphi
    exact Nat.lt_add_right 2 (hf.incoming b hb phi hphi value hvalue)

section
variable (hf : WellFormed f) (h : Expansion f g BB kind dst t e CC pre post)
include hf h

theorem Expansion.wellFormed : WellFormed g where
  nodup := h.nodup hf
  fresh := by
    intro b hb
    rw [h.nextBlockNum]
    rcases (h.mem_layout b).mp hb with hb | rfl | rfl
    · exact Nat.lt_add_right 2 (hf.fresh b hb)
    · exact Nat.lt_add_of_pos_right (by decide)
    · exact Nat.lt_add_one _
  closed := by
    intro b hb s hs
    rw [h.mem_layout]
    rcases (h.mem_layout b).mp hb with hb | rfl | rfl
    · by_cases hBB : b = BB
      · rw [hBB, h.thisMBB] at hs
        simp only [List.mem_cons, List.not_mem_nil, or_false] at hs
        exact .inr hs
      · rw [h.other b hBB (hf.fresh b hb)] at hs
        exact .inl (hf.closed b hb s hs)
    · rw [h.copy0MBB, List.mem_singleton] at hs
      exact .inr (.inr hs)
    · rw [h.sinkMBB] at hs
      exact .inl (hf.closed BB h.mem s hs)
  incoming := by
    intro b hb phi hphi value hvalue
    rw [h.nextBlockNum]
    rcases (h.mem_layout b).mp hb with hb | rfl | rfl
    · rw [h.phis (hf.fresh b hb)] at hphi
      exact hf.phisAfter_incoming hb hphi hvalue
    · rw [h.copy0MBB] at hphi
      cases hphi
    · rw [h.sinkMBB, List.mem_singleton] at hphi
      rw [hphi] at hvalue
      simp only [List.mem_cons, List.not_mem_nil, or_false] at hvalue
      rcases hvalue with rfl | rfl
      · exact Nat.lt_add_of_pos_right (by decide)
      · exact Nat.lt_add_right 2 (hf.fresh BB h.mem)

end

end Mandarin.Select
