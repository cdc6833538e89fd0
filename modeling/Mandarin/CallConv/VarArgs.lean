import Mandarin.CallConv.CallSite
import Mandarin.CallConv.StackArea
import Mandarin.Lib.Area

/-! # Variadic calls

A variadic call passes every operand on the stack, vectors as well as scalars and
aggregates, in the order of the entries. The offsets are those of the sequential
layout of what the entries ask for, so the caller's stores and copies fill one
area of memory at the stack pointer. Registers stay out of it.
-/

namespace Mandarin.CallConv

open Memory Layout

/-! ## The stack area -/

theorem toNat_atLeast (least a : Word) :
    (CCState.atLeast least a).toNat = max a.toNat least.toNat := by
  unfold CCState.atLeast
  by_cases h : a < least
  · rw [if_pos h]
    exact (Nat.max_eq_right (Nat.le_of_lt h)).symm
  · rw [if_neg h]
    exact (Nat.max_eq_left (Nat.le_of_not_lt h)).symm

def varRequest (a : ArgT) : Request :=
  if a.flags.isByVal then ⟨max a.flags.byValSize.toNat 4, max a.flags.byValAlign.toNat 4⟩
  else ⟨a.VT.getSizeInBits / 8, 4⟩

theorem aligned_varRequests (outs : List ArgT) : Aligned (outs.map varRequest) := by
  intro r hr
  rcases List.mem_map.mp hr with ⟨a, _, rfl⟩
  unfold varRequest
  split
  · exact Nat.lt_of_lt_of_le (by decide : 0 < 4) (Nat.le_max_right _ _)
  · exact (by decide : 0 < 4)

/-- `getByValAlign` is half a power of two: `0` where no alignment is given. -/
def ArgT.PowerAligned (a : ArgT) : Prop :=
  a.flags.isByVal = true → ∃ k, a.flags.byValAlign.toNat = 2 ^ k / 2

theorem atLeast_four_pow {a : Word} {k : Nat} (h : a.toNat = 2 ^ k / 2) :
    ∃ j, (CCState.atLeast 4 a).toNat = 2 ^ j := by
  rw [toNat_atLeast, h]
  cases k with
  | zero => exact ⟨2, rfl⟩
  | succ k =>
      rw [Nat.pow_succ, Nat.mul_div_cancel _ Nat.two_pos]
      rcases Nat.le_total k 2 with hk | hk
      · exact ⟨2, Nat.max_eq_right (Nat.pow_le_pow_right Nat.two_pos hk)⟩
      · exact ⟨k, Nat.max_eq_left (Nat.pow_le_pow_right Nat.two_pos hk)⟩

def varLoc (p : ArgT × Nat) (s : Nat) : CCValAssign :=
  .getMem p.2 p.1.VT (BitVec.ofNat 32 s) p.1.VT .Full

theorem assignStackCC_spec {st : CCState} {a : ArgT} (v : Nat) (ha : a.PowerAligned)
    (hfit : (varRequest a).stop st.stackOffset.toNat < 2 ^ 32) :
    (assignStackCC st v a).locs =
        st.locs ++ [varLoc (a, v) ((varRequest a).start st.stackOffset.toNat)] ∧
      (assignStackCC st v a).stackOffset.toNat = (varRequest a).stop st.stackOffset.toNat := by
  have hplace : ∀ (size align : Word) (k : Nat), align.toNat = 2 ^ k →
      varRequest a = ⟨size.toNat, align.toNat⟩ →
      assignStackCC st v a =
        (st.allocateStack size align).2.addLoc
          (.getMem v a.VT (st.allocateStack size align).1 a.VT .Full) →
      (assignStackCC st v a).locs =
          st.locs ++ [varLoc (a, v) ((varRequest a).start st.stackOffset.toNat)] ∧
        (assignStackCC st v a).stackOffset.toNat = (varRequest a).stop st.stackOffset.toNat := by
    intro size align k hk hreq hassign
    rw [hreq] at hfit ⊢
    rcases allocate_toNat hk hfit with ⟨hstart, hstop⟩
    rw [hassign]
    refine ⟨?_, hstop⟩
    rw [← hstart, varLoc, BitVec.ofNat_toNat, BitVec.setWidth_eq]
    rfl
  by_cases hb : a.flags.isByVal = true
  · rcases ha hb with ⟨k, hk⟩
    rcases atLeast_four_pow hk with ⟨j, hj⟩
    apply hplace (CCState.atLeast 4 a.flags.byValSize) _ j hj
    · rw [toNat_atLeast, toNat_atLeast, varRequest, if_pos hb]
      rfl
    · rw [assignStackCC, if_pos hb]
      rfl
  · have hsize : ∃ size : Word, size.toNat = a.VT.getSizeInBits / 8 ∧
        assignStackCC st v a = (st.allocateStack size 4).2.addLoc
          (.getMem v a.VT (st.allocateStack size 4).1 a.VT .Full) := by
      rw [assignStackCC, if_neg hb]
      generalize a.VT = vt
      cases vt <;> exact ⟨_, rfl, rfl⟩
    rcases hsize with ⟨size, hvt, hassign⟩
    apply hplace size 4 2 rfl _ hassign
    rw [varRequest, if_neg hb, hvt]
    rfl

/-- All entries together take the blocks of the layout in order. -/
theorem foldl_assignStackCC {st : CCState} {v : Nat} {outs : List ArgT}
    (halign : ∀ a ∈ outs, a.PowerAligned)
    (hfit : stop st.stackOffset.toNat (outs.map varRequest) < 2 ^ 32) :
    ((outs.zipIdx v).foldl (fun st p => assignStackCC st p.2 p.1) st).locs =
        st.locs ++ List.zipWith varLoc (outs.zipIdx v)
          (starts st.stackOffset.toNat (outs.map varRequest)) ∧
      ((outs.zipIdx v).foldl (fun st p => assignStackCC st p.2 p.1) st).stackOffset.toNat =
        stop st.stackOffset.toNat (outs.map varRequest) := by
  induction outs generalizing st v with
  | nil => exact ⟨(List.append_nil _).symm, rfl⟩
  | cons a outs ih =>
      rw [List.map_cons, stop] at hfit
      have hle := le_stop ((varRequest a).stop st.stackOffset.toNat) (aligned_varRequests outs)
      obtain ⟨hlocs, hoff⟩ := assignStackCC_spec v (halign a (by simp))
        (Nat.lt_of_le_of_lt hle hfit)
      rw [← hoff] at hfit
      obtain ⟨ihlocs, ihoff⟩ := @ih (assignStackCC st v a) (v + 1)
        (fun b hb => halign b (List.mem_cons_of_mem _ hb)) hfit
      rw [List.zipIdx_cons, List.foldl_cons, List.map_cons, starts, stop]
      rw [ihlocs, ihoff, hlocs, hoff, List.append_assoc]
      exact ⟨rfl, rfl⟩

/-! ## The caller -/

/-- An operand of a variadic call with its entry: the words of a scalar or of a
vector, lane 0 first, or the address of an aggregate. -/
structure VarArg where
  out : ArgT
  words : List Word
  length : words.length = if out.flags.isByVal then 1 else out.VT.getSizeInBits / 32
  align : out.PowerAligned

def varRequests (args : List VarArg) : List Request := (args.map VarArg.out).map varRequest

def varSize (args : List VarArg) : Nat := stop 0 (varRequests args)

def varMemOp (x : VarArg) (s : Nat) : MemOp (List Word) :=
  if x.out.flags.isByVal then
    .memcpy (BitVec.ofNat 32 s) (.value x.words) x.out.flags.byValSize x.out.flags.byValAlign
  else .store (BitVec.ofNat 32 s) (.value x.words)

def varMemOps (args : List VarArg) : List (MemOp (List Word)) :=
  List.zipWith varMemOp args (starts 0 (varRequests args))

def ArgNode.words : ArgNode (List Word) → List Word
  | value ws => ws
  | extend _ _ ws => ws

def MemOp.fill (sp : Word) : MemOp (List Word) → Update 32
  | store offset arg =>
      ⟨⟨sp + offset, 4 * arg.words.length⟩, fun _ i => wordByte (arg.words.getD (i / 4) 0) (i % 4)⟩
  | memcpy offset arg size _ =>
      ⟨⟨sp + offset, size.toNat⟩, fun m i => m (arg.words.headD 0 + BitVec.ofNat 32 i)⟩

/-- Memory holds the operand at `p`: its words in order, or a copy of the bytes
it points to in the caller's memory. -/
def VarArg.At (x : VarArg) (mem callerMem : Mem 32) (p : Word) : Prop :=
  if x.out.flags.isByVal then
    ∀ i < x.out.flags.byValSize.toNat,
      mem (p + BitVec.ofNat 32 i) = callerMem (x.words.headD 0 + BitVec.ofNat 32 i)
  else ∀ j v, x.words[j]? = some v → loadWord mem (p + BitVec.ofNat 32 (4 * j)) = v

/-- The stack area fits the address space and no aggregate is in it. -/
structure VarPassable (args : List VarArg) (sp : Word) : Prop where
  fits : sp.toNat + varSize args < 2 ^ 32
  source : ∀ x ∈ args, x.out.flags.isByVal = true → ∀ i < x.out.flags.byValSize.toNat,
    (x.words.headD 0 + BitVec.ofNat 32 i).toNat < sp.toNat ∨
      sp.toNat + varSize args ≤ (x.words.headD 0 + BitVec.ofNat 32 i).toNat

variable {args : List VarArg} {sp : Word}

theorem lowerOperand_varLoc {k : Nat} {x : VarArg} (hx : args[k]? = some x) (v s : Nat) :
    lowerOperand (args.map VarArg.out) (args.map VarArg.words) k (varLoc (x.out, v) s) =
      some (.memOp (varMemOp x s)) := by
  have hout : (args.map VarArg.out)[k]? = some x.out := by rw [List.getElem?_map, hx]; rfl
  have hwords : (args.map VarArg.words)[k]? = some x.words := by rw [List.getElem?_map, hx]; rfl
  simp only [lowerOperand, varLoc, CCValAssign.getMem, hwords, hout, promote, bind, Option.bind]
  unfold varMemOp
  split
  · rfl
  · rfl

theorem varRequests_getElem? {k : Nat} {x : VarArg} (hx : args[k]? = some x) :
    (varRequests args)[k]? = some (varRequest x.out) := by
  rw [varRequests, List.getElem?_map, List.getElem?_map, hx]
  rfl

theorem eachLoc_varLocs (args : List VarArg) :
    eachLoc (lowerOperand (args.map VarArg.out) (args.map VarArg.words)) 0
        (List.zipWith varLoc (args.map VarArg.out).zipIdx (starts 0 (varRequests args))) =
      some ((varMemOps args).map Transfer.memOp) := by
  have hloc : ∀ {k : Nat} {x : VarArg} {s : Nat}, args[k]? = some x →
      (starts 0 (varRequests args))[k]? = some s →
      (List.zipWith varLoc (args.map VarArg.out).zipIdx (starts 0 (varRequests args)))[k]? =
        some (varLoc (x.out, k) s) := by
    intro k x s hx hs
    rw [List.getElem?_zipWith_eq_some]
    exact ⟨(x.out, k), s, by simp [hx], hs, rfl⟩
  have hnone : ∀ {k : Nat}, args[k]? = none →
      (List.zipWith varLoc (args.map VarArg.out).zipIdx (starts 0 (varRequests args)))[k]? = none ∧
        (varMemOps args)[k]? = none := by
    intro k hx
    simp [varMemOps, List.getElem?_zipWith, hx]
  obtain ⟨ts, hts, _, hget⟩ := @eachLoc_eq_some _
    (lowerOperand (args.map VarArg.out) (args.map VarArg.words)) 0
    (List.zipWith varLoc (args.map VarArg.out).zipIdx (starts 0 (varRequests args)))
    fun k va hva => by
      cases hx : args[k]? with
      | none => simp [(hnone hx).1] at hva
      | some x =>
          rw [hloc hx (starts_getElem? (varRequests_getElem? hx)), Option.some.injEq] at hva
          rw [← hva, Nat.zero_add]
          exact ⟨_, lowerOperand_varLoc hx k _⟩
  rw [hts, Option.some.injEq]
  apply List.ext_getElem?
  intro k
  rw [hget, Nat.zero_add, List.getElem?_map]
  cases hx : args[k]? with
  | none =>
      rw [(hnone hx).1, (hnone hx).2]
      rfl
  | some x =>
      have hs := @starts_getElem? 0 k _ _ (varRequests_getElem? hx)
      have hop : (varMemOps args)[k]? = some (varMemOp x _) :=
        List.getElem?_zipWith_eq_some.mpr ⟨x, _, hx, hs, rfl⟩
      rw [hloc hx hs, hop, Option.bind_some, lowerOperand_varLoc hx]
      rfl

/-- A variadic call passes nothing in registers and reserves the whole area. -/
theorem lowerCall_varArgs (args : List VarArg) (hfit : varSize args < 2 ^ 32) :
    ∃ call, lowerCall true (args.map VarArg.out) (args.map VarArg.words) = some call ∧
      call.numBytes.toNat = varSize args ∧ call.memOps = varMemOps args ∧ call.regsToPass = [] := by
  have halign : ∀ a ∈ args.map VarArg.out, a.PowerAligned := by
    intro a ha
    rcases List.mem_map.mp ha with ⟨x, _, rfl⟩
    exact x.align
  rcases @foldl_assignStackCC .initial 0 (args.map VarArg.out) halign hfit with ⟨hlocs, hoff⟩
  have hwalk : eachLoc (lowerOperand (args.map VarArg.out) (args.map VarArg.words)) 0
      (analyzeVarArgs .initial (args.map VarArg.out)).locs =
        some ((varMemOps args).map Transfer.memOp) := by
    rw [← eachLoc_varLocs, ← List.nil_append (List.zipWith _ _ _)]
    exact congrArg _ hlocs
  refine ⟨⟨_, ((varMemOps args).map Transfer.memOp).filterMap Transfer.mem?,
    ((varMemOps args).map Transfer.memOp).filterMap Transfer.reg?⟩, ?_, hoff, ?_, ?_⟩
  · simp only [lowerCall, analyzeArguments, ↓reduceIte, bind, Option.bind, hwalk]
    rfl
  · simp [List.filterMap_map, Function.comp_def, Transfer.mem?]
  · simp [List.filterMap_map, Function.comp_def, Transfer.reg?]

/-! ## Memory at callee entry -/

theorem length_words_le {x : VarArg} (hb : ¬ x.out.flags.isByVal = true) :
    4 * x.words.length = x.out.VT.getSizeInBits / 8 := by
  have hlen := x.length
  rw [if_neg hb] at hlen
  rw [hlen]
  cases x.out.VT <;> rfl

/-- The caller's operations fill the area that the layout of the entries takes. -/
theorem VarPassable.fills (h : VarPassable args sp) :
    Fills sp (varRequests args) ((varMemOps args).map (MemOp.fill sp)) where
  aligned := aligned_varRequests _
  fits := h.fits
  length := by simp [varMemOps, varRequests]
  region := by
    intro k s u r hu hr hs
    rw [List.getElem?_map] at hu
    rcases Option.map_eq_some_iff.mp hu with ⟨op, hop, rfl⟩
    rcases List.getElem?_zipWith_eq_some.mp hop with ⟨x, s', hx, hs', rfl⟩
    rw [varRequests_getElem? hx, Option.some.injEq] at hr
    rw [hs, Option.some.injEq] at hs'
    subst hr hs'
    unfold varMemOp varRequest
    by_cases hb : x.out.flags.isByVal = true
    · rw [if_pos hb, if_pos hb]
      exact ⟨rfl, Nat.le_max_left _ _⟩
    · rw [if_neg hb, if_neg hb]
      exact ⟨rfl, Nat.le_of_eq (length_words_le hb)⟩

theorem VarPassable.readsOutside (h : VarPassable args sp) {x : VarArg} (hx : x ∈ args) (s : Nat) :
    ((varMemOp x s).fill sp).ReadsOutside ((varMemOps args).map (MemOp.fill sp)) := by
  intro m m' hsame i hi
  unfold varMemOp at hi ⊢
  by_cases hb : x.out.flags.isByVal = true
  · rw [if_pos hb] at hi ⊢
    apply hsame
    intro u hu
    exact h.fills.not_contains (h.source x hx hb i hi) hu
  · rw [if_neg hb]
    rfl

theorem VarPassable.arrived (h : VarPassable args sp) {ops : List (MemOp (List Word))}
    (hops : ops.Perm (varMemOps args)) (mem : Mem 32) {k s : Nat} {x : VarArg}
    (hx : args[k]? = some x) (hs : (starts 0 (varRequests args))[k]? = some s) :
    x.At (runAll (ops.map (MemOp.fill sp)) mem) mem (sp + BitVec.ofNat 32 s) := by
  have hmem : (varMemOp x s).fill sp ∈ (varMemOps args).map (MemOp.fill sp) := by
    apply List.mem_map_of_mem
    exact List.mem_of_getElem? (List.getElem?_zipWith_eq_some.mpr ⟨x, s, hx, hs, rfl⟩)
  have hreads := h.readsOutside (List.mem_of_getElem? hx) s
  have hbytes := fun i => @Fills.bytes 32 sp _ _ _ h.fills (hops.map (MemOp.fill sp)) mem _ hmem
    hreads i
  unfold varMemOp at hbytes
  unfold VarArg.At
  by_cases hb : x.out.flags.isByVal = true
  · rw [if_pos hb] at hbytes ⊢
    exact hbytes
  · rw [if_neg hb] at hbytes ⊢
    intro j v hj
    have hlen := (List.getElem?_eq_some_iff.mp hj).1
    apply loadWord_eq_of_bytes
    intro i hi
    have hbyte := hbytes (4 * j + i) (show 4 * j + i < 4 * x.words.length by omega)
    rw [BitVec.add_assoc, ← BitVec.ofNat_add]
    refine hbyte.trans ?_
    show wordByte (x.words.getD ((4 * j + i) / 4) 0) ((4 * j + i) % 4) = wordByte v i
    rw [show (4 * j + i) / 4 = j by omega, show (4 * j + i) % 4 = i by omega,
      List.getD_eq_getElem?_getD, hj]
    rfl

/-- Variadic calls: whatever the order of the memory operations, every operand is
found where the layout of the entries puts it, at a multiple of its alignment, and
memory outside the area the call reserves is unchanged. -/
theorem lowerCall_variadic (h : VarPassable args sp) (mem : Mem 32) :
    ∃ call, lowerCall true (args.map VarArg.out) (args.map VarArg.words) = some call ∧
      call.regsToPass = [] ∧
      ∀ ops : List (MemOp (List Word)), ops.Perm call.memOps →
        (∀ (k : Nat) (x : VarArg), args[k]? = some x →
          ∃ s, (starts 0 (varRequests args))[k]? = some s ∧ (varRequest x.out).align ∣ s ∧
            s + (varRequest x.out).size ≤ call.numBytes.toNat ∧
            x.At (runAll (ops.map (MemOp.fill sp)) mem) mem (sp + BitVec.ofNat 32 s)) ∧
        ∀ a : Word, a.toNat < sp.toNat ∨ sp.toNat + call.numBytes.toNat ≤ a.toNat →
          runAll (ops.map (MemOp.fill sp)) mem a = mem a := by
  have hfits := h.fits
  rcases lowerCall_varArgs args (by omega) with ⟨call, hcall, hbytes, hmemOps, hregs⟩
  refine ⟨call, hcall, hregs, ?_⟩
  intro ops hops
  rw [hmemOps] at hops
  rw [hbytes]
  constructor
  · intro k x hx
    have hr := varRequests_getElem? hx
    have hs := @starts_getElem? 0 k _ _ hr
    exact ⟨_, hs, dvd_start hr hs, start_add_size_le_stop (aligned_varRequests _) hr hs,
      h.arrived hops mem hx hs⟩
  · intro a ha
    exact h.fills.frame (hops.map (MemOp.fill sp)) mem ha

/-- A word, a vector of four and an aggregate of three bytes aligned to 8. -/
def exampleVarArgs : List VarArg :=
  [⟨⟨.i32, ⟨false, 0, 0⟩, 0⟩, [7], rfl, fun h => Bool.noConfusion h⟩,
    ⟨⟨.v4f32, ⟨false, 0, 0⟩, 1⟩, [1, 2, 3, 4], rfl, fun h => Bool.noConfusion h⟩,
    ⟨⟨.i32, ⟨true, 3, 8⟩, 2⟩, [0x100], rfl, fun _ => ⟨4, rfl⟩⟩]

theorem lowerCall_variadic_example :
    ∃ call, lowerCall true (exampleVarArgs.map VarArg.out) (exampleVarArgs.map VarArg.words) =
        some call ∧
      loadWord (runAll (call.memOps.map (MemOp.fill 0x1000)) fun a => a.setWidth 8) 0x1008 = 2 ∧
      runAll (call.memOps.map (MemOp.fill 0x1000)) (fun a => a.setWidth 8) 0x101a = 0x02 := by
  have h : VarPassable exampleVarArgs 0x1000 := by
    refine ⟨by decide, ?_⟩
    intro x hx hb i hi
    simp only [exampleVarArgs, List.mem_cons, List.not_mem_nil, or_false] at hx
    rcases hx with rfl | rfl | rfl
    · cases hb
    · cases hb
    · have hi' : i < 3 := hi
      interval_cases i <;> decide
  rcases lowerCall_variadic h fun a => a.setWidth 8 with ⟨call, hcall, _, harrive⟩
  rcases harrive call.memOps (List.Perm.refl _) with ⟨hat, _⟩
  rcases hat 1 _ rfl with ⟨s, hs, _, _, hvec⟩
  rcases hat 2 _ rfl with ⟨t, ht, _, _, hagg⟩
  cases hs
  cases ht
  exact ⟨call, hcall, hvec 1 2 rfl, hagg 2 (by decide)⟩

end Mandarin.CallConv
