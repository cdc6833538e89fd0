import Mandarin.CallConv.Lowering
import Mathlib.Data.List.Find

/-! # Return values

`RetCC_Mandarin` gives scalars the registers `R0` to `R3`, pairs `RD0` and `RD1` and
quads `RQ0`, all made of the same four lanes. What is taken is one of six sets of
lanes, and in each of them a value fits exactly when it has no more lanes than are
free. Callee and caller therefore succeed on the same lists, and the four lanes are
the only limit.
-/

namespace Mandarin.CallConv

/-! ## Analysis and lowering -/

def retRegs : MVT → List Reg
  | .i32 | .f32 => [.R 0, .R 1, .R 2, .R 3]
  | .v2i32 | .v2f32 => [.RD 0, .RD 1]
  | .v4i32 | .v4f32 => [.RQ 0]

/-- `RetCC_Mandarin`; `none` where no rule assigns. -/
def retCC (valNo : Nat) (VT : MVT) (st : CCState) : Option CCState :=
  let (r, st) := st.allocateReg (retRegs VT)
  if r = .NoRegister then none else some (st.addLoc (.getReg valNo VT r VT .Full))

/-- The loop of `AnalyzeReturn` and of `AnalyzeCallResult` from value `i` on. -/
def analyzeReturnFrom (st : CCState) : Nat → List ArgT → Option CCState
  | _, [] => some st
  | i, arg :: args => do
      let st ← retCC i arg.VT st
      analyzeReturnFrom st (i + 1) args

def analyzeReturn (args : List ArgT) : Option CCState := analyzeReturnFrom .initial 0 args

def lowerReturn {α : Type} (outs : List ArgT) (outVals : List α) : Option (List (Reg × α)) := do
  let st ← analyzeReturn outs
  eachLoc (fun i va =>
    match va.loc with
    | .reg r => (outVals[i]?).map fun val => (r, val)
    | .mem _ => none) 0 st.locs

/-- The registers `LowerCallResult` copies from, with the types it reads. -/
def lowerCallResult (ins : List ArgT) : Option (List (Reg × MVT)) := do
  let st ← analyzeReturn ins
  eachLoc (fun _ va =>
    match va.loc with
    | .reg r => some (r, va.valVT)
    | .mem _ => none) 0 st.locs

/-! ## Values in registers -/

def numLanes (VT : MVT) : Nat := VT.getSizeInBits / 32

def setLanes (ps : List (Fin 32 × Word)) (regs : RegFile) : RegFile :=
  ps.foldl (fun regs p => Function.update regs p.1 p.2) regs

def writeReg (regs : RegFile) (r : Reg) (val : List Word) : RegFile :=
  setLanes (r.lanes.zip val) regs

def readReg (regs : RegFile) (r : Reg) : List Word := r.lanes.map regs

def copyOut (copies : List (Reg × List Word)) (regs : RegFile) : RegFile :=
  copies.foldl (fun regs p => writeReg regs p.1 p.2) regs

theorem setLanes_of_not_mem {ps : List (Fin 32 × Word)} {n : Fin 32} (h : ∀ p ∈ ps, p.1 ≠ n)
    (regs : RegFile) : setLanes ps regs n = regs n := by
  induction ps generalizing regs with
  | nil => rfl
  | cons p ps ih =>
      rw [setLanes, List.foldl_cons]
      show setLanes ps _ n = regs n
      rw [ih fun q hq => h q (by simp [hq])]
      exact Function.update_of_ne (h p (by simp)).symm _ _

theorem map_setLanes {ns : List (Fin 32)} (hnodup : ns.Nodup) {val : List Word}
    (hlen : val.length = ns.length) (regs : RegFile) :
    ns.map (setLanes (ns.zip val) regs) = val := by
  induction ns generalizing val regs with
  | nil => exact (List.length_eq_zero_iff.mp hlen).symm
  | cons n ns ih =>
      cases val with
      | nil => cases hlen
      | cons v val =>
          rw [List.nodup_cons] at hnodup
          have hother : ∀ p ∈ ns.zip val, p.1 ≠ n := by
            intro p hp heq
            exact hnodup.1 (heq ▸ (List.of_mem_zip hp).1)
          have hhead : setLanes (ns.zip val) (Function.update regs n v) n = v := by
            rw [setLanes_of_not_mem hother]
            exact Function.update_self ..
          show setLanes (ns.zip val) (Function.update regs n v) n ::
            ns.map (setLanes (ns.zip val) (Function.update regs n v)) = v :: val
          rw [hhead, ih hnodup.2 (by simpa using hlen)]

theorem lanes_nodup (r : Reg) : r.lanes.Nodup := by
  cases r <;> simp [Reg.lanes]

theorem readReg_writeReg {r : Reg} {val : List Word} (h : val.length = r.lanes.length)
    (regs : RegFile) : readReg (writeReg regs r val) r = val :=
  map_setLanes (lanes_nodup r) h regs

theorem disjoint_of_not_overlaps {r s : Reg} (h : r.overlaps s = false) :
    ∀ n ∈ r.lanes, n ∉ s.lanes := by
  intro n hr hs
  simp only [Reg.overlaps, Bool.or_eq_false_iff, List.any_eq_false] at h
  exact h.2 n hr (by simpa using hs)

theorem readReg_writeReg_of_not_overlaps {r s : Reg} (h : r.overlaps s = false) (regs : RegFile)
    (val : List Word) : readReg (writeReg regs s val) r = readReg regs r := by
  apply List.map_congr_left
  intro n hn
  apply setLanes_of_not_mem
  intro p hp heq
  exact disjoint_of_not_overlaps h n hn (heq ▸ (List.of_mem_zip hp).1)

theorem readReg_copyOut_of_not_overlaps {r : Reg} {copies : List (Reg × List Word)}
    (h : ∀ p ∈ copies, r.overlaps p.1 = false) (regs : RegFile) :
    readReg (copyOut copies regs) r = readReg regs r := by
  induction copies generalizing regs with
  | nil => rfl
  | cons p ps ih =>
      show readReg (copyOut ps (writeReg regs p.1 p.2)) r = readReg regs r
      rw [ih fun q hq => h q (by simp [hq])]
      exact readReg_writeReg_of_not_overlaps (h p (by simp)) regs p.2

/-- What is copied to registers that do not alias can be read from them. -/
theorem read_copyOut {copies : List (Reg × List Word)}
    (hdisjoint : (copies.map Prod.fst).Pairwise fun r s => r.overlaps s = false)
    (hlen : ∀ p ∈ copies, p.2.length = p.1.lanes.length) (regs : RegFile) :
    copies.map (fun p => readReg (copyOut copies regs) p.1) = copies.map Prod.snd := by
  induction copies generalizing regs with
  | nil => rfl
  | cons p ps ih =>
      rw [List.map_cons, List.pairwise_cons] at hdisjoint
      have hhead : readReg (copyOut ps (writeReg regs p.1 p.2)) p.1 = p.2 := by
        rw [readReg_copyOut_of_not_overlaps]
        · exact readReg_writeReg (hlen p (by simp)) regs
        · intro q hq
          exact hdisjoint.1 q.1 (List.mem_map_of_mem hq)
      show readReg (copyOut ps (writeReg regs p.1 p.2)) p.1 ::
        ps.map (fun q => readReg (copyOut ps (writeReg regs p.1 p.2)) q.1) = p.2 :: ps.map Prod.snd
      rw [hhead, ih hdisjoint.2 fun q hq => hlen q (by simp [hq])]

/-! ## The lanes taken -/

/-- The sets of lanes an analysis can have handed out. -/
inductive Occupied where
  | none | r0 | r0r1 | r0r2r3 | r0r1r2 | all
  deriving DecidableEq, Repr

namespace Occupied

def lanes : Occupied → List (Fin 32)
  | none => []
  | r0 => [0]
  | r0r1 => [0, 1]
  | r0r2r3 => [0, 2, 3]
  | r0r1r2 => [0, 1, 2]
  | all => [0, 1, 2, 3]

def free (occ : Occupied) : Nat := 4 - occ.lanes.length

def take (occ : Occupied) (VT : MVT) : Option (Reg × Occupied) :=
  match numLanes VT, occ with
  | 1, none => some (.R 0, r0)
  | 1, r0 => some (.R 1, r0r1)
  | 1, r0r1 => some (.R 2, r0r1r2)
  | 1, r0r2r3 => some (.R 1, all)
  | 1, r0r1r2 => some (.R 3, all)
  | 2, none => some (.RD 0, r0r1)
  | 2, r0 => some (.RD 1, r0r2r3)
  | 2, r0r1 => some (.RD 1, all)
  | 4, none => some (.RQ 0, all)
  | _, _ => Option.none

/-- A value fits exactly when enough lanes are free, wherever they are. -/
theorem take_isSome (occ : Occupied) (VT : MVT) :
    (occ.take VT).isSome = true ↔ numLanes VT ≤ occ.free := by
  cases occ <;> cases VT <;> decide

theorem take_spec {occ occ' : Occupied} {VT : MVT} {r : Reg} (h : occ.take VT = some (r, occ')) :
    occ.free = numLanes VT + occ'.free ∧ r.lanes.length = numLanes VT ∧
      r ≠ .NoRegister ∧ (∀ n ∈ r.lanes, n ∉ occ.lanes ∧ n ∈ occ'.lanes) ∧
      ∀ n ∈ occ.lanes, n ∈ occ'.lanes := by
  cases occ <;> cases VT <;> cases h <;> decide

end Occupied

/-! ## The analysis follows the lanes -/

/-- The register file of the analysis knows of the lanes taken. -/
def CCState.Represents (st : CCState) (occ : Occupied) : Prop :=
  ∀ VT, ∀ r ∈ retRegs VT, st.usedRegs r = r.lanes.any (occ.lanes.contains ·)

theorem CCState.represents_initial : CCState.initial.Represents .none := by
  intro VT r _
  simp [initial, Occupied.lanes]

theorem find?_retRegs (occ : Occupied) (VT : MVT) :
    (retRegs VT).find? (fun r => !r.lanes.any (occ.lanes.contains ·)) =
      (occ.take VT).map Prod.fst := by
  cases occ <;> cases VT <;> rfl

theorem CCState.Represents.markAllocated {st : CCState} {occ occ' : Occupied}
    (h : st.Represents occ) {VT : MVT} {r : Reg} (htake : occ.take VT = some (r, occ')) :
    (st.markAllocated r).Represents occ' := by
  have hlanes : ∀ VT', ∀ q ∈ retRegs VT',
      (q.lanes.any (occ.lanes.contains ·) || r.overlaps q) =
        q.lanes.any (occ'.lanes.contains ·) := by
    intro VT'
    cases occ <;> cases VT <;> cases htake <;> cases VT' <;> decide
  intro VT' q hq
  show (st.usedRegs q || r.overlaps q) = _
  rw [h VT' q hq, hlanes VT' q hq]

theorem CCState.Represents.retCC {st : CCState} {occ : Occupied} (h : st.Represents occ)
    (valNo : Nat) (VT : MVT) :
    (occ.take VT = none ∧ CallConv.retCC valNo VT st = none) ∨
      ∃ r occ' st', occ.take VT = some (r, occ') ∧ CallConv.retCC valNo VT st = some st' ∧
        st'.Represents occ' ∧ st'.locs = st.locs ++ [.getReg valNo VT r VT .Full] := by
  have hfind : (retRegs VT).find? (fun r => !st.usedRegs r) = (occ.take VT).map Prod.fst := by
    rw [← find?_retRegs]
    apply List.find?_congr
    intro r hr
    rw [h VT r hr]
  unfold CallConv.retCC CCState.allocateReg
  rw [hfind]
  cases htake : occ.take VT with
  | none => exact .inl ⟨rfl, rfl⟩
  | some taken =>
      obtain ⟨r, occ'⟩ := taken
      have hreal := (Occupied.take_spec htake).2.2.1
      exact .inr ⟨r, occ', _, rfl, if_neg hreal, h.markAllocated htake, rfl⟩

def assignRets : Occupied → List MVT → Option (List Reg)
  | _, [] => some []
  | occ, VT :: VTs => do
      let (r, occ) ← occ.take VT
      let rs ← assignRets occ VTs
      some (r :: rs)

theorem assignRets_cons_none {occ : Occupied} {VT : MVT} (h : occ.take VT = none)
    (VTs : List MVT) : assignRets occ (VT :: VTs) = none := by
  rw [assignRets, h]
  rfl

theorem assignRets_cons_some {occ occ' : Occupied} {VT : MVT} {r : Reg}
    (h : occ.take VT = some (r, occ')) (VTs : List MVT) :
    assignRets occ (VT :: VTs) = (assignRets occ' VTs).map (r :: ·) := by
  rw [assignRets, h]
  show (assignRets occ' VTs >>= fun rs => some (r :: rs)) = _
  cases assignRets occ' VTs <;> rfl

def retLocs : Nat → List MVT → List Reg → List CCValAssign
  | i, VT :: VTs, r :: rs => .getReg i VT r VT .Full :: retLocs (i + 1) VTs rs
  | _, _, _ => []

theorem analyzeReturnFrom_eq {st : CCState} {occ : Occupied} (h : st.Represents occ) (i : Nat)
    (args : List ArgT) :
    (analyzeReturnFrom st i args).map CCState.locs =
      (assignRets occ (args.map (·.VT))).map fun rs =>
        st.locs ++ retLocs i (args.map (·.VT)) rs := by
  induction args generalizing st occ i with
  | nil => simp [analyzeReturnFrom, assignRets, retLocs]
  | cons arg args ih =>
      rw [analyzeReturnFrom, List.map_cons]
      rcases h.retCC i arg.VT with ⟨htake, hcc⟩ | ⟨r, occ', st', htake, hcc, hst', hlocs⟩
      · rw [assignRets_cons_none htake, hcc]
        rfl
      · rw [assignRets_cons_some htake, hcc]
        show (analyzeReturnFrom st' (i + 1) args).map CCState.locs = _
        rw [ih hst', hlocs]
        cases assignRets occ' (args.map (·.VT)) with
        | none => rfl
        | some rs => simp [retLocs]

/-- The locations of a list of types, for callee and caller alike. -/
theorem analyzeReturn_locs (args : List ArgT) :
    (analyzeReturn args).map CCState.locs =
      (assignRets .none (args.map (·.VT))).map (retLocs 0 (args.map (·.VT))) :=
  analyzeReturnFrom_eq CCState.represents_initial 0 args

/-! ## Four lanes are the only limit -/

theorem assignRets_isSome (occ : Occupied) (VTs : List MVT) :
    (assignRets occ VTs).isSome = true ↔ (VTs.map numLanes).sum ≤ occ.free := by
  induction VTs generalizing occ with
  | nil => simp [assignRets]
  | cons VT VTs ih =>
      have htake := occ.take_isSome VT
      rw [List.map_cons, List.sum_cons]
      cases h : occ.take VT with
      | none =>
          have hfull : ¬ numLanes VT ≤ occ.free := by simp [← htake, h]
          rw [assignRets_cons_none h]
          simp only [Option.isSome_none, Bool.false_eq_true, false_iff]
          omega
      | some taken =>
          have hspec := Occupied.take_spec h
          rw [assignRets_cons_some h, Option.isSome_map, ih]
          omega

theorem not_overlaps {r s : Reg} (hr : r.lanes ≠ []) (h : ∀ n ∈ r.lanes, n ∉ s.lanes) :
    r.overlaps s = false := by
  have hne : r ≠ s := by
    intro heq
    subst heq
    rcases List.exists_mem_of_ne_nil _ hr with ⟨n, hn⟩
    exact h n hn hn
  simpa [Reg.overlaps, hne] using h

theorem numLanes_pos (VT : MVT) : 0 < numLanes VT := by
  cases VT <;> decide

/-- The registers have the lanes their values need, avoid what was taken before and do
not alias each other. -/
theorem assignRets_spec {occ : Occupied} {VTs : List MVT} {rs : List Reg}
    (h : assignRets occ VTs = some rs) :
    rs.map (fun r => r.lanes.length) = VTs.map numLanes ∧
      (∀ r ∈ rs, ∀ n ∈ r.lanes, n ∉ occ.lanes) ∧
      rs.Pairwise fun r s => r.overlaps s = false := by
  induction VTs generalizing occ rs with
  | nil =>
      cases h
      exact ⟨rfl, by simp, List.Pairwise.nil⟩
  | cons VT VTs ih =>
      cases htake : occ.take VT with
      | none =>
          rw [assignRets_cons_none htake] at h
          cases h
      | some taken =>
          obtain ⟨r, occ'⟩ := taken
          rw [assignRets_cons_some htake, Option.map_eq_some_iff] at h
          rcases h with ⟨rs', hrest, rfl⟩
          obtain ⟨_, hlen, hreal, hr, hkept⟩ := Occupied.take_spec htake
          obtain ⟨hlens, havoid, hpair⟩ := ih hrest
          refine ⟨by rw [List.map_cons, List.map_cons, hlen, hlens], ?_, ?_⟩
          · intro s hs n hn hocc
            rcases List.mem_cons.mp hs with rfl | hs
            · exact (hr n hn).1 hocc
            · exact havoid s hs n hn (hkept n hocc)
          · refine List.pairwise_cons.mpr ⟨?_, hpair⟩
            intro s hs
            apply not_overlaps
            · intro hnil
              rw [hnil] at hlen
              exact absurd hlen.symm (Nat.ne_of_gt (numLanes_pos VT))
            · intro n hn hns
              exact havoid s hs n hns (hr n hn).2

/-! ## Values come back -/

/-- Value `i` has the type `VTs[i]` and is in the register `rs[i]`, and the registers
do not alias. -/
structure InRegisters (VTs : List MVT) (rs : List Reg) (locs : List CCValAssign) : Prop where
  loc : locs.map (·.loc) = rs.map .reg
  valVT : locs.map (·.valVT) = VTs
  valNo : locs.map (·.valNo) = List.range VTs.length
  nonAliasing : rs.Pairwise fun r s => r.overlaps s = false

/-- Callee and caller analyse values of these types without failing and into the same
registers, and the caller reads the values the callee copied out. A value is the list
of its lanes. -/
def ReturnsBack (VTs : List MVT) : Prop :=
  ∀ outs ins : List ArgT, outs.map (·.VT) = VTs → ins.map (·.VT) = VTs →
    ∃ callee caller rs, analyzeReturn outs = some callee ∧ analyzeReturn ins = some caller ∧
      InRegisters VTs rs callee.locs ∧ InRegisters VTs rs caller.locs ∧
      ∀ (outVals : List (List Word)) (regs : RegFile),
        outVals.map List.length = VTs.map numLanes →
        ∃ copies reads, lowerReturn outs outVals = some copies ∧
          lowerCallResult ins = some reads ∧ reads.map Prod.snd = VTs ∧
          reads.map (fun p => readReg (copyOut copies regs) p.1) = outVals

theorem inRegisters_retLocs {VTs : List MVT} {rs : List Reg} (hlen : rs.length = VTs.length)
    (hpair : rs.Pairwise fun r s => r.overlaps s = false) :
    InRegisters VTs rs (retLocs 0 VTs rs) := by
  have hmaps : ∀ i, (retLocs i VTs rs).map (·.loc) = rs.map .reg ∧
      (retLocs i VTs rs).map (·.valVT) = VTs ∧
      (retLocs i VTs rs).map (·.valNo) = List.range' i VTs.length := by
    clear hpair
    induction VTs generalizing rs with
    | nil =>
        intro i
        rw [List.length_eq_zero_iff.mp hlen]
        exact ⟨rfl, rfl, rfl⟩
    | cons VT VTs ih =>
        intro i
        cases rs with
        | nil => cases hlen
        | cons r rs =>
            obtain ⟨hloc, hVT, hNo⟩ := ih (by simpa using hlen) (i + 1)
            simp [retLocs, CCValAssign.getReg, hloc, hVT, hNo, List.range'_succ]
  obtain ⟨hloc, hVT, hNo⟩ := hmaps 0
  exact ⟨hloc, hVT, by rw [hNo, List.range_eq_range'], hpair⟩

theorem eachLoc_lowerReturn {α : Type} {locs : List CCValAssign} {rs : List Reg}
    (h : locs.map (·.loc) = rs.map .reg) (outVals : List α) (i : Nat)
    (hlen : outVals.length = i + rs.length) :
    eachLoc (fun i va =>
      match va.loc with
      | .reg r => (outVals[i]?).map fun val => (r, val)
      | .mem _ => none) i locs = some (rs.zip (outVals.drop i)) := by
  induction locs generalizing rs i with
  | nil =>
      cases rs with
      | nil => rfl
      | cons r rs => cases h
  | cons va locs ih =>
      cases rs with
      | nil => cases h
      | cons r rs =>
          rw [List.map_cons, List.map_cons, List.cons.injEq] at h
          rw [List.length_cons] at hlen
          have hi : i < outVals.length := by omega
          have hrest := ih h.2 (i + 1) (by omega)
          rw [List.drop_eq_getElem_cons hi, List.zip_cons_cons]
          simp only [eachLoc, h.1, List.getElem?_eq_getElem hi, Option.map_some, hrest, bind,
            Option.bind]

theorem eachLoc_lowerCallResult {locs : List CCValAssign} {rs : List Reg} {VTs : List MVT}
    (hloc : locs.map (·.loc) = rs.map .reg) (hVT : locs.map (·.valVT) = VTs) (i : Nat) :
    eachLoc (fun _ va =>
      match va.loc with
      | .reg r => some (r, va.valVT)
      | .mem _ => none) i locs = some (rs.zip VTs) := by
  induction locs generalizing rs VTs i with
  | nil =>
      cases rs with
      | nil => rfl
      | cons r rs => cases hloc
  | cons va locs ih =>
      cases rs with
      | nil => cases hloc
      | cons r rs =>
          subst hVT
          rw [List.map_cons, List.map_cons, List.cons.injEq] at hloc
          have hrest := ih hloc.2 rfl (i + 1)
          simp only [eachLoc, hloc.1, hrest, bind, Option.bind]
          rfl

theorem length_of_mem_zip {rs : List Reg} {vals : List (List Word)}
    (h : vals.map List.length = rs.map fun r => r.lanes.length) {p : Reg × List Word}
    (hp : p ∈ rs.zip vals) : p.2.length = p.1.lanes.length := by
  induction rs generalizing vals with
  | nil => cases hp
  | cons r rs ih =>
      cases vals with
      | nil => cases hp
      | cons v vals =>
          rw [List.map_cons, List.map_cons, List.cons.injEq] at h
          rcases List.mem_cons.mp hp with rfl | hp
          · exact h.1
          · exact ih h.2 hp

theorem InRegisters.read {VTs : List MVT} {rs : List Reg} {locs : List CCValAssign}
    (h : InRegisters VTs rs locs) (hlanes : rs.map (fun r => r.lanes.length) = VTs.map numLanes)
    {outVals : List (List Word)} (hvals : outVals.map List.length = VTs.map numLanes)
    (regs : RegFile) :
    rs.map (readReg (copyOut (rs.zip outVals) regs)) = outVals := by
  have hsame : outVals.map List.length = rs.map fun r => r.lanes.length := by rw [hvals, hlanes]
  have hlen : outVals.length = rs.length := by simpa using congrArg List.length hsame
  have hfst : (rs.zip outVals).map Prod.fst = rs := List.map_fst_zip (Nat.le_of_eq hlen.symm)
  have hsnd : (rs.zip outVals).map Prod.snd = outVals := List.map_snd_zip (Nat.le_of_eq hlen)
  have hread : (rs.zip outVals).map (fun p => readReg (copyOut (rs.zip outVals) regs) p.1) =
      (rs.zip outVals).map Prod.snd := by
    apply read_copyOut
    · rw [hfst]
      exact h.nonAliasing
    · exact fun p hp => length_of_mem_zip hsame hp
  calc rs.map (readReg (copyOut (rs.zip outVals) regs))
      = ((rs.zip outVals).map Prod.fst).map (readReg (copyOut (rs.zip outVals) regs)) := by
        rw [hfst]
    _ = (rs.zip outVals).map Prod.snd := by
        rw [List.map_map]
        exact hread
    _ = outVals := hsnd

theorem returnsBack_of_sum_le {VTs : List MVT} (h : (VTs.map numLanes).sum ≤ 4) :
    ReturnsBack VTs := by
  rcases Option.isSome_iff_exists.mp ((assignRets_isSome .none VTs).mpr h) with ⟨rs, hrs⟩
  obtain ⟨hlanes, _, hpair⟩ := assignRets_spec hrs
  have hlen : rs.length = VTs.length := by simpa using congrArg List.length hlanes
  have hin := inRegisters_retLocs hlen hpair
  have hanalysis : ∀ args : List ArgT, args.map (·.VT) = VTs →
      ∃ st, analyzeReturn args = some st ∧ st.locs = retLocs 0 VTs rs := by
    intro args hargs
    have hlocs := analyzeReturn_locs args
    rw [hargs, hrs] at hlocs
    exact Option.map_eq_some_iff.mp hlocs
  intro outs ins houts hins
  rcases hanalysis outs houts with ⟨callee, hcallee, hcalleeLocs⟩
  rcases hanalysis ins hins with ⟨caller, hcaller, hcallerLocs⟩
  rw [← hcalleeLocs] at hin
  refine ⟨callee, caller, rs, hcallee, hcaller, hin, ?_, ?_⟩
  · rw [hcallerLocs, ← hcalleeLocs]
    exact hin
  · intro outVals regs hvals
    have hcount : outVals.length = 0 + rs.length := by
      rw [Nat.zero_add, hlen]
      simpa using congrArg List.length hvals
    have hcopies : lowerReturn outs outVals = some (rs.zip outVals) := by
      rw [lowerReturn, hcallee]
      exact eachLoc_lowerReturn hin.loc outVals 0 hcount
    have hreads : lowerCallResult ins = some (rs.zip VTs) := by
      rw [lowerCallResult, hcaller]
      show eachLoc _ 0 caller.locs = _
      rw [hcallerLocs, ← hcalleeLocs]
      exact eachLoc_lowerCallResult hin.loc hin.valVT 0
    refine ⟨_, _, hcopies, hreads, List.map_snd_zip (Nat.le_of_eq hlen.symm), ?_⟩
    have hfst : (rs.zip VTs).map Prod.fst = rs := List.map_fst_zip (Nat.le_of_eq hlen)
    have hread := hin.read hlanes hvals regs
    rw [← hfst, List.map_map, hfst] at hread
    exact hread

def entryOf (VT : MVT) : ArgT := ⟨VT, ⟨false, 0, 0⟩, 0⟩

theorem analyzeReturn_eq_none {args : List ArgT}
    (h : 4 < ((args.map (·.VT)).map numLanes).sum) : analyzeReturn args = none := by
  have hnone : assignRets .none (args.map (·.VT)) = none := by
    rw [← Option.not_isSome_iff_eq_none, assignRets_isSome]
    exact Nat.not_le_of_gt h
  have hlocs := analyzeReturn_locs args
  rw [hnone] at hlocs
  exact Option.map_eq_none_iff.mp hlocs

/-- Return values come back exactly when they have at most four lanes together. -/
theorem returnsBack_iff (VTs : List MVT) : ReturnsBack VTs ↔ (VTs.map numLanes).sum ≤ 4 := by
  constructor
  · intro h
    by_contra hmore
    have hVTs : (VTs.map entryOf).map (·.VT) = VTs := by
      rw [List.map_map]
      exact List.map_id VTs
    rcases h (VTs.map entryOf) (VTs.map entryOf) hVTs hVTs with ⟨_, _, _, hsome, _⟩
    rw [analyzeReturn_eq_none (by rw [hVTs]; omega)] at hsome
    cases hsome
  · exact returnsBack_of_sum_le

/-- Five integers: the analysis aborts. -/
theorem five_integers_fail : ¬ ReturnsBack [.i32, .i32, .i32, .i32, .i32] := by
  intro h
  rcases h (List.replicate 5 (entryOf .i32)) (List.replicate 5 (entryOf .i32)) rfl rfl with
    ⟨_, _, _, hsome, _⟩
  rw [analyzeReturn_eq_none (by decide)] at hsome
  cases hsome

end Mandarin.CallConv
