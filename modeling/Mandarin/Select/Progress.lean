import Mandarin.Select.Preservation

/-! # Expanding every select

An expansion takes one pseudo away and makes none. Whatever order they are expanded
in, this ends after as many expansions as there were pseudos.
-/

namespace Mandarin.Select

open Branch (BlockId CondCodes)

variable {ι : Type} {f g : MachineFunction ι}

theorem ExpandedIn.selects (hf : WellFormed f) {k : Nat} (h : ExpandedIn f k g) :
    f.selects = k + g.selects := by
  rcases h.selectDsts hf with ⟨expanded, hlength, hperm⟩
  unfold MachineFunction.selects
  rw [hperm.length_eq, List.length_append, hlength]

theorem exists_emit (h : g.selects ≠ 0) :
    ∃ BB ∈ g.layout, ∃ MI g' sinkMBB, EmitInstrWithCustomInserter g BB MI = some (g', sinkMBB) := by
  rcases List.exists_mem_of_length_pos (Nat.pos_of_ne_zero h) with ⟨dst, hdst⟩
  rcases List.mem_flatMap.mp hdst with ⟨BB, hBB, hdst⟩
  rcases List.mem_filterMap.mp hdst with ⟨i, hi, hselect⟩
  rcases List.mem_iff_getElem?.mp hi with ⟨MI, hMI⟩
  cases i with
  | op _ => cases hselect
  | selectCC kind dst t e CC =>
      refine ⟨BB, hBB, MI, ?_⟩
      unfold EmitInstrWithCustomInserter
      rw [hMI]
      exact ⟨_, _, rfl⟩

theorem Expanded.emit_trans {g₁ g' : MachineFunction ι} {BB sinkMBB : BlockId} {MI : Nat}
    (hBB : BB ∈ g.layout) (hemit : EmitInstrWithCustomInserter g BB MI = some (g₁, sinkMBB))
    (h : Expanded g₁ g') : Expanded g g' := by
  rcases h with ⟨k, h⟩
  refine ⟨k + 1, ?_⟩
  induction h with
  | refl => exact .emit .refl hBB hemit
  | emit _ hBB' hemit' ih => exact .emit ih hBB' hemit'

theorem ExpandedIn.complete (hf : WellFormed f) {n k : Nat} (h : ExpandedIn f k g)
    (hn : g.selects = n) : ∃ g', ExpandedIn f (k + n) g' ∧ Expanded g g' ∧ g'.selects = 0 := by
  induction n generalizing k g with
  | zero => exact ⟨g, h, ⟨0, .refl⟩, hn⟩
  | succ n ih =>
      rcases exists_emit (g := g) (by omega) with ⟨BB, hBB, MI, g₁, sinkMBB, hemit⟩
      have hbefore := h.selects hf
      have hafter := (h.emit hBB hemit).selects hf
      rcases ih (h.emit hBB hemit) (by omega) with ⟨g', hg', hexpanded, hnone⟩
      refine ⟨g', ?_, .emit_trans hBB hemit hexpanded, hnone⟩
      rw [Nat.add_assoc, Nat.add_comm 1 n] at hg'
      exact hg'

/-- In whatever order pseudos are expanded, one is gone with every expansion, so that
there are never more expansions than there were pseudos, and from wherever one has got
to the rest can be expanded until none is left. -/
theorem expansion_terminates (hf : WellFormed f) {k : Nat} (h : ExpandedIn f k g) :
    f.selects = k + g.selects ∧
      ∃ g', ExpandedIn f f.selects g' ∧ Expanded g g' ∧ g'.selects = 0 := by
  have hcount := h.selects hf
  rw [hcount]
  exact ⟨rfl, h.complete hf rfl⟩

theorem expansion_terminates_selfLoop :
    ∃ g, EmitInstrWithCustomInserter selfLoop 1 0 = some (g, 3) ∧ selfLoop.selects = 1 + g.selects := by
  refine ⟨_, rfl, ?_⟩
  have hexpanded := @ExpandedIn.emit Unit selfLoop 0 selfLoop _ 1 3 0 .refl (by decide) rfl
  exact (expansion_terminates selfLoop_wellFormed hexpanded).1

end Mandarin.Select
