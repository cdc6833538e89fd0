import Mandarin.Select.Semantics

/-! # What the expansion of a select changes

The inserter is a sequence of changes in place. `Expansion` says what they come to:
two new blocks behind the expanded one, the rest of the block and its successors
in the second of them, and the PHIs of these successors pointing there.
-/

namespace Mandarin.Select

open Branch (BlockId CondCodes Exit fallThrough)
open MachineFunction

variable {ι φ μ : Type}

/-- The PHIs of `b` when `sinkMBB` has taken over the successors of `BB`. -/
def phisAfter (f : MachineFunction ι) (BB sinkMBB b : BlockId) : List Phi :=
  if b ∈ (f.block BB).successors then (f.block b).phis.map (Phi.setMBB BB sinkMBB)
  else (f.block b).phis

/-- `g` is `f` with the select between `pre` and `post` in `BB` expanded. -/
structure Expansion (f g : MachineFunction ι) (BB : BlockId) (kind : SelectKind)
    (dst T F : Register) (CC : CondCodes) (pre post : List (Inst ι)) : Prop where
  body : (f.block BB).body = pre ++ .selectCC kind dst T F CC :: post
  layout : ∃ front back, BB ∉ front ∧ f.layout = front ++ BB :: back ∧
    g.layout = front ++ BB :: f.nextBlockNum :: (f.nextBlockNum + 1) :: back
  nextBlockNum : g.nextBlockNum = f.nextBlockNum + 2
  thisMBB : g.block BB = ⟨phisAfter f BB (f.nextBlockNum + 1) BB, pre,
    [.JCCi (f.nextBlockNum + 1) CC], [f.nextBlockNum, f.nextBlockNum + 1]⟩
  copy0MBB : g.block f.nextBlockNum = ⟨[], [], [], [f.nextBlockNum + 1]⟩
  sinkMBB : g.block (f.nextBlockNum + 1) = ⟨[⟨dst, [(F, f.nextBlockNum), (T, BB)]⟩], post,
    (f.block BB).terms, (f.block BB).successors⟩
  other : ∀ b, b ≠ BB → b < f.nextBlockNum →
    g.block b = { f.block b with phis := phisAfter f BB (f.nextBlockNum + 1) b }

/-! ## Changes in place -/

theorem modify_block (f : MachineFunction ι) (b b' : BlockId)
    (change : MachineBasicBlock ι → MachineBasicBlock ι) :
    (f.modify b change).block b' = if b' = b then change (f.block b) else f.block b' :=
  Function.update_apply ..

theorem setMBB_setMBB {fromMBB toMBB : BlockId} (h : toMBB ≠ fromMBB) (phi : Phi) :
    (phi.setMBB fromMBB toMBB).setMBB fromMBB toMBB = phi.setMBB fromMBB toMBB := by
  unfold Phi.setMBB
  rw [List.map_map]
  congr 1
  apply List.map_congr_left
  intro value _
  by_cases hv : value.2 = fromMBB
  · simp [hv, h]
  · simp [hv]

theorem transferSuccessor_block {toMBB fromMBB : BlockId} (h : toMBB ≠ fromMBB)
    (f : MachineFunction ι) (Succ b : BlockId) :
    (transferSuccessor toMBB fromMBB f Succ).block b =
      { phis := if b = Succ then (f.block b).phis.map (Phi.setMBB fromMBB toMBB)
          else (f.block b).phis
        body := (f.block b).body
        terms := (f.block b).terms
        successors := if b = toMBB then (f.block b).successors ++ [Succ]
          else if b = fromMBB then (f.block b).successors.erase Succ
          else (f.block b).successors } := by
  unfold transferSuccessor addSuccessor removeSuccessor
  simp only [modify_block]
  by_cases hs : b = Succ
  · subst hs
    by_cases hto : b = toMBB
    · subst hto
      simp [h]
    · by_cases hfrom : b = fromMBB
      · subst hfrom
        simp [hto]
      · simp [hto, hfrom]
  · by_cases hto : b = toMBB
    · subst hto
      simp [hs, h]
    · by_cases hfrom : b = fromMBB
      · subst hfrom
        simp [hs, hto]
      · simp [hs, hto, hfrom]

theorem foldl_transferSuccessor {toMBB fromMBB : BlockId} (h : toMBB ≠ fromMBB)
    {succs : List BlockId} {f : MachineFunction ι} (hsuccs : (f.block fromMBB).successors = succs)
    (b : BlockId) :
    (succs.foldl (transferSuccessor toMBB fromMBB) f).block b =
      { phis := if b ∈ succs then (f.block b).phis.map (Phi.setMBB fromMBB toMBB)
          else (f.block b).phis
        body := (f.block b).body
        terms := (f.block b).terms
        successors := if b = toMBB then (f.block b).successors ++ succs
          else if b = fromMBB then [] else (f.block b).successors } := by
  induction succs generalizing f with
  | nil =>
      rw [List.foldl_nil, List.append_nil]
      by_cases hfrom : b = fromMBB
      · subst hfrom
        simp only [List.not_mem_nil, ↓reduceIte, Ne.symm h]
        rw [← hsuccs]
      · simp [hfrom]
  | cons Succ succs ih =>
      have hrest : ((transferSuccessor toMBB fromMBB f Succ).block fromMBB).successors = succs := by
        rw [transferSuccessor_block h]
        simp [Ne.symm h, hsuccs]
      have htwice : ((f.block b).phis.map (Phi.setMBB fromMBB toMBB)).map
          (Phi.setMBB fromMBB toMBB) = (f.block b).phis.map (Phi.setMBB fromMBB toMBB) := by
        rw [List.map_map]
        exact List.map_congr_left fun phi _ => setMBB_setMBB h phi
      rw [List.foldl_cons, ih hrest, transferSuccessor_block h, MachineBasicBlock.mk.injEq]
      refine ⟨?_, rfl, rfl, ?_⟩
      · dsimp only
        by_cases hs : b = Succ
        · by_cases hmem : b ∈ succs
          · rw [if_pos hmem, if_pos hs, if_pos (List.mem_cons_of_mem _ hmem), htwice]
          · rw [if_neg hmem, if_pos hs, if_pos (by simp [hs])]
        · simp [hs]
      · dsimp only
        by_cases hto : b = toMBB
        · simp [hto]
        · by_cases hfrom : b = fromMBB
          · simp only [if_neg hto, if_pos hfrom]
          · simp only [if_neg hto, if_neg hfrom]

theorem foldl_transferSuccessor_layout (toMBB fromMBB : BlockId) (succs : List BlockId)
    (f : MachineFunction ι) :
    (succs.foldl (transferSuccessor toMBB fromMBB) f).layout = f.layout ∧
      (succs.foldl (transferSuccessor toMBB fromMBB) f).nextBlockNum = f.nextBlockNum := by
  induction succs generalizing f with
  | nil => exact ⟨rfl, rfl⟩
  | cons Succ succs ih => exact ih (transferSuccessor toMBB fromMBB f Succ)

/-! ## The whole expansion -/

theorem insertIdx_behind {front back : List BlockId} {b c d : BlockId} (h : b ∉ front) :
    ((front ++ b :: back).insertIdx ((front ++ b :: back).idxOf b + 1) c).insertIdx
      ((front ++ b :: back).idxOf b + 1 + 1) d = front ++ b :: c :: d :: back := by
  rw [List.idxOf_append_of_notMem h, List.idxOf_cons_self, Nat.add_zero]
  induction front with
  | nil => rfl
  | cons a front ih =>
      rw [List.mem_cons, not_or] at h
      simp only [List.cons_append, List.length_cons, List.insertIdx_succ_cons]
      rw [ih h.2]

/-- The function in front of the transfer of the successors. -/
def spliced (f : MachineFunction ι) (BB : BlockId) (MI : Nat) : MachineFunction ι :=
  (((f.CreateMachineBasicBlock.1.CreateMachineBasicBlock.1.insert (f.layout.idxOf BB + 1)
    f.nextBlockNum).insert (f.layout.idxOf BB + 1 + 1) (f.nextBlockNum + 1)).splice
      (f.nextBlockNum + 1) BB (MI + 1))

theorem spliced_block {f : MachineFunction ι} {BB : BlockId} (hlt : BB < f.nextBlockNum) (MI : Nat)
    (b : BlockId) : (spliced f BB MI).block b =
      if b = BB then { f.block BB with body := (f.block BB).body.take (MI + 1), terms := [] }
      else if b = f.nextBlockNum + 1 then
        ⟨[], (f.block BB).body.drop (MI + 1), (f.block BB).terms, []⟩
      else if b = f.nextBlockNum then ⟨[], [], [], []⟩ else f.block b := by
  have h0 : BB ≠ f.nextBlockNum := Nat.ne_of_lt hlt
  have h1 : BB ≠ f.nextBlockNum + 1 := Nat.ne_of_lt (Nat.lt_succ_of_lt hlt)
  unfold spliced splice MachineFunction.insert CreateMachineBasicBlock
  simp only [modify_block, Function.update_apply, h0, h1, ↓reduceIte, List.append_nil]
  by_cases hsink : b = f.nextBlockNum + 1
  · simp only [hsink, ↓reduceIte]
  · simp only [hsink, ↓reduceIte]

def transferred (f : MachineFunction ι) (BB : BlockId) (MI : Nat) : MachineFunction ι :=
  (spliced f BB MI).transferSuccessorsAndUpdatePHIs (f.nextBlockNum + 1) BB

theorem transferred_block {f : MachineFunction ι} {BB : BlockId} (hlt : BB < f.nextBlockNum)
    (hsuccs : ∀ s ∈ (f.block BB).successors, s < f.nextBlockNum) (MI : Nat) (b : BlockId) :
    (transferred f BB MI).block b =
      if b = BB then
        ⟨phisAfter f BB (f.nextBlockNum + 1) BB, (f.block BB).body.take (MI + 1), [], []⟩
      else if b = f.nextBlockNum + 1 then
        ⟨[], (f.block BB).body.drop (MI + 1), (f.block BB).terms, (f.block BB).successors⟩
      else if b = f.nextBlockNum then ⟨[], [], [], []⟩
      else { f.block b with phis := phisAfter f BB (f.nextBlockNum + 1) b } := by
  have h1 : f.nextBlockNum + 1 ≠ BB := Nat.ne_of_gt (Nat.lt_succ_of_lt hlt)
  have hsame : ((spliced f BB MI).block BB).successors = (f.block BB).successors := by
    rw [spliced_block hlt, if_pos rfl]
  unfold transferred transferSuccessorsAndUpdatePHIs
  rw [foldl_transferSuccessor h1 rfl, hsame, spliced_block hlt]
  by_cases hBB : b = BB
  · subst hBB
    simp [phisAfter, Ne.symm h1]
  · by_cases hsink : b = f.nextBlockNum + 1
    · have hmem : f.nextBlockNum + 1 ∉ (f.block BB).successors :=
        fun hmem => Nat.not_succ_lt_self (hsuccs _ hmem)
      simp [hsink, h1, hmem]
    · by_cases hcopy : b = f.nextBlockNum
      · have hmem : f.nextBlockNum ∉ (f.block BB).successors :=
          fun hmem => Nat.lt_irrefl _ (hsuccs _ hmem)
        have h0 : f.nextBlockNum ≠ BB := Nat.ne_of_gt hlt
        simp [hcopy, h0, hmem]
      · simp [hBB, hsink, hcopy, phisAfter]

/-- A successful expansion is an `Expansion`, and returns the sink. -/
theorem emit_expansion {f g : MachineFunction ι} {BB sink : BlockId} {MI : Nat}
    (hBB : BB ∈ f.layout) (hfresh : ∀ b ∈ f.layout, b < f.nextBlockNum)
    (hsuccs : ∀ s ∈ (f.block BB).successors, s < f.nextBlockNum)
    (h : EmitInstrWithCustomInserter f BB MI = some (g, sink)) :
    sink = f.nextBlockNum + 1 ∧ ∃ kind dst T F CC,
      Expansion f g BB kind dst T F CC ((f.block BB).body.take MI)
        ((f.block BB).body.drop (MI + 1)) := by
  have hlt := hfresh BB hBB
  have h0 : BB ≠ f.nextBlockNum := Nat.ne_of_lt hlt
  have h1 : BB ≠ f.nextBlockNum + 1 := Nat.ne_of_lt (Nat.lt_succ_of_lt hlt)
  unfold EmitInstrWithCustomInserter at h
  split at h
  · rename_i kind dst T F CC hMI
    simp only [Option.some.injEq, Prod.mk.injEq] at h
    rcases h with ⟨hg, hsink⟩
    refine ⟨hsink.symm, kind, dst, T, F, CC, ?_⟩
    rcases List.getElem?_eq_some_iff.mp hMI with ⟨hlen, hget⟩
    have hblock := transferred_block hlt hsuccs MI
    have hlayout := foldl_transferSuccessor_layout (f.nextBlockNum + 1) BB
      ((spliced f BB MI).block BB).successors (spliced f BB MI)
    have hg' : g = (((((((transferred f BB MI).addSuccessor BB f.nextBlockNum).addSuccessor BB
        (f.nextBlockNum + 1)).addTerminator BB (.JCCi (f.nextBlockNum + 1) CC)).addSuccessor
        f.nextBlockNum (f.nextBlockNum + 1)).insertPhi (f.nextBlockNum + 1)
        ⟨dst, [(F, f.nextBlockNum), (T, BB)]⟩).erase BB MI) := hg.symm
    unfold addSuccessor addTerminator insertPhi MachineFunction.erase at hg'
    constructor
    · rw [← hget, List.getElem_cons_drop, List.take_append_drop]
    · rcases List.eq_append_cons_of_mem hBB with ⟨front, back, hsplit, hfront⟩
      refine ⟨front, back, hfront, hsplit, ?_⟩
      rw [hg']
      show (transferred f BB MI).layout = _
      rw [show (transferred f BB MI).layout = (spliced f BB MI).layout from hlayout.1,
        ← insertIdx_behind hfront, ← hsplit]
      rfl
    · rw [hg']
      exact hlayout.2
    · rw [hg']
      have hbody : ((f.block BB).body.take (MI + 1)).eraseIdx MI = (f.block BB).body.take MI := by
        rw [List.eraseIdx_eq_take_drop_succ, List.take_take, Nat.min_eq_left (Nat.le_succ MI),
          List.drop_eq_nil_of_le (by simp), List.append_nil]
      simp [modify_block, hblock, h0, h1, hbody]
    · rw [hg']
      simp [modify_block, hblock, Ne.symm h0]
    · rw [hg']
      simp [modify_block, hblock, Ne.symm h1]
    · intro b hb hblt
      have hb0 : b ≠ f.nextBlockNum := Nat.ne_of_lt hblt
      have hb1 : b ≠ f.nextBlockNum + 1 := Nat.ne_of_lt (Nat.lt_succ_of_lt hblt)
      rw [hg']
      simp [modify_block, hblock, hb, hb0, hb1]
  · cases h

end Mandarin.Select
