import Mandarin.CallConv.Lowering
import Mandarin.CallConv.Positions
import Mandarin.Lib.Memory

/-! # Executing a call

A call site passes original arguments in order, each an aggregate by value or a
group of scalar words. The caller's stores and copies run on a register file and
a byte memory, and the callee's incoming values are read from the machine they
leave behind. Local objects of the callee do not matter here: an incoming value
is addressed from the incoming stack pointer.
-/

namespace Mandarin.CallConv

open Memory Layout

/-! ## Call sites -/

structure ScalarPart extends ScalarVT where
  value : Word

/-- An aggregate of `size` bytes at address `src`. -/
structure ByValArg where
  size : Word
  logAlign : Fin 32
  src : Word
  deriving DecidableEq, Repr

def ByValArg.part (b : ByValArg) : Part := .byVal .i32 b.size b.logAlign

/-- An original argument; a group of scalars may be empty, its number is skipped then. -/
inductive CallArg where
  | byVal (b : ByValArg)
  | scalars (parts : List ScalarPart)

def CallArg.parts : CallArg → List (Part × Word)
  | byVal b => [(b.part, b.src)]
  | scalars parts => parts.map fun p => (p.part, p.value)

def CallArg.entries (i : Nat) (c : CallArg) : List (ArgT × Word) :=
  c.parts.map fun p => (p.1.arg i, p.2)

def callEntries (i : Nat) : List CallArg → List (ArgT × Word)
  | [] => []
  | c :: cs => c.entries i ++ callEntries (i + 1) cs

/-- `Outs` of the call and `Ins` of the callee. -/
def callArgs (args : List CallArg) : List ArgT := (callEntries 0 args).map Prod.fst

/-- `OutVals`: a scalar's word or an aggregate's address. -/
def callVals (args : List CallArg) : List Word := (callEntries 0 args).map Prod.snd

/-- Total size of the stack area, not reduced to a word. -/
def stackSize (args : List ArgT) : Nat := stop 0 (stackRequests (slots 0 (argGroups args)))

/-! ## The machine at callee entry -/

/-- A 32-bit operand is its own extension to a 32-bit location. -/
def ArgNode.eval : ArgNode Word → Word
  | value a => a
  | extend _ _ a => a

/-- What a memory operation does, the stack pointer being `sp`. -/
def MemOp.update (sp : Word) : MemOp Word → Update 32
  | store offset arg => ⟨⟨sp + offset, 4⟩, fun _ => wordByte arg.eval⟩
  | memcpy offset arg size _ =>
      ⟨⟨sp + offset, size.toNat⟩, fun m i => m (arg.eval + BitVec.ofNat 32 i)⟩

def copyToReg (regs : RegFile) (p : Reg × ArgNode Word) : RegFile :=
  match p.1 with
  | .R n => Function.update regs n p.2.eval
  | _ => regs

def copyToRegs (ps : List (Reg × ArgNode Word)) (regs : RegFile) : RegFile := ps.foldl copyToReg regs

/-- The words of an incoming value; a frame index is the address of its object. -/
def InVal.eval (regs : RegFile) (mem : Mem 32) : InVal → List Word
  | copyFromReg (.R n) rc _ => (List.range rc.lanes).map fun i => regs (Fin.ofNat 32 (n + i))
  | copyFromReg _ _ _ => []
  | load _ object => [loadWord mem (regs 30 + object.offset)]
  | frameIndex object => [regs 30 + object.offset]

/-- The callee finds the operand `v` of the entry `a`: its value, or a copy of
the bytes it points to in the caller's memory. -/
def Received (regs : RegFile) (mem callerMem : Mem 32) (a : ArgT) (v : Word) (x : InVal) : Prop :=
  if a.flags.isByVal then
    ∃ p, x.eval regs mem = [p] ∧ ∀ i < a.flags.byValSize.toNat,
      mem (p + BitVec.ofNat 32 i) = callerMem (v + BitVec.ofNat 32 i)
  else x.eval regs mem = [v]

/-! ## Numbering -/

theorem mem_callEntries {i : Nat} {args : List CallArg} {p : ArgT × Word}
    (h : p ∈ callEntries i args) :
    (∃ j, i ≤ j ∧ j < i + args.length ∧ p.1.origArgIndex = BitVec.ofNat 32 j) ∧
      p.1.VT.isScalar = true ∧
      (p.1.flags.isByVal = true →
        ∃ b, CallArg.byVal b ∈ args ∧ p.1.flags = b.part.flags ∧ p.2 = b.src) := by
  induction args generalizing i with
  | nil => simp [callEntries] at h
  | cons c cs ih =>
      rw [callEntries, List.mem_append] at h
      rcases h with h | h
      · rcases List.mem_map.mp h with ⟨q, hq, rfl⟩
        refine ⟨⟨i, Nat.le_refl i, by simp, rfl⟩, ?_⟩
        cases c with
        | byVal b =>
            rw [CallArg.parts, List.mem_singleton] at hq
            subst hq
            exact ⟨rfl, fun _ => ⟨b, by simp, rfl, rfl⟩⟩
        | scalars parts =>
            rcases List.mem_map.mp hq with ⟨t, _, rfl⟩
            exact ⟨t.scalar, fun hb => by cases hb⟩
      · rcases ih h with ⟨⟨j, hlo, hhi, hj⟩, hscalar, hbyval⟩
        refine ⟨⟨j, by omega, by simp only [List.length_cons]; omega, hj⟩, hscalar, ?_⟩
        intro hb
        rcases hbyval hb with ⟨b, hmem, hflags, hsrc⟩
        exact ⟨b, by simp [hmem], hflags, hsrc⟩

theorem pairwise_callEntries {i : Nat} {args : List CallArg} (hi : i + args.length ≤ 2 ^ 32) :
    (callEntries i args).Pairwise fun p q =>
      p.1.origArgIndex.toNat ≤ q.1.origArgIndex.toNat ∧
        (p.1.origArgIndex = q.1.origArgIndex →
          p.1.flags.isByVal = false ∧ q.1.flags.isByVal = false) := by
  induction args generalizing i with
  | nil => exact List.Pairwise.nil
  | cons c cs ih =>
      rw [List.length_cons] at hi
      rw [callEntries, List.pairwise_append]
      refine ⟨?_, ih (by omega), ?_⟩
      · cases c with
        | byVal b => exact List.pairwise_singleton _ _
        | scalars parts =>
            rw [CallArg.entries, CallArg.parts, List.pairwise_map, List.pairwise_map]
            exact List.pairwise_of_forall fun p q => ⟨Nat.le_refl _, fun _ => ⟨rfl, rfl⟩⟩
      · intro p hp q hq
        have hpi : p.1.origArgIndex = BitVec.ofNat 32 i := by
          rcases List.mem_map.mp hp with ⟨t, _, rfl⟩
          rfl
        rcases (mem_callEntries hq).1 with ⟨j, hlo, hhi, hj⟩
        have hlt : p.1.origArgIndex.toNat < q.1.origArgIndex.toNat := by
          rw [hpi, hj, BitVec.toNat_ofNat, BitVec.toNat_ofNat, Nat.mod_eq_of_lt (by omega),
            Nat.mod_eq_of_lt (by omega)]
          omega
        refine ⟨Nat.le_of_lt hlt, ?_⟩
        intro heq
        rw [heq] at hlt
        exact absurd hlt (Nat.lt_irrefl _)

theorem wellNumbered_callArgs {args : List CallArg} (hcount : args.length < 2 ^ 32) :
    WellNumbered (callArgs args) := by
  have hpair := @pairwise_callEntries 0 args (by omega)
  have hentry : ∀ (k : Nat) (a : ArgT), (callArgs args)[k]? = some a →
      ∃ v, (callEntries 0 args)[k]? = some (a, v) := by
    intro k a ha
    rw [callArgs, List.getElem?_map] at ha
    rcases Option.map_eq_some_iff.mp ha with ⟨p, hp, rfl⟩
    exact ⟨p.2, hp⟩
  have hnext : ∀ (k : Nat) (a b : ArgT), (callArgs args)[k]? = some a →
      (callArgs args)[k + 1]? = some b → a.origArgIndex.toNat ≤ b.origArgIndex.toNat ∧
        (a.origArgIndex = b.origArgIndex → a.flags.isByVal = false ∧ b.flags.isByVal = false) := by
    intro k a b ha hb
    rcases hentry k a ha with ⟨v, hv⟩
    rcases hentry (k + 1) b hb with ⟨w, hw⟩
    obtain ⟨hk, hpa⟩ := List.getElem?_eq_some_iff.mp hv
    obtain ⟨hk', hpb⟩ := List.getElem?_eq_some_iff.mp hw
    have h := List.pairwise_iff_getElem.mp hpair k (k + 1) hk hk' (by omega)
    rw [hpa, hpb] at h
    exact h
  refine ⟨?_, ?_, ?_⟩
  · intro i hi
    have ha := List.getElem?_eq_getElem (show i < (callArgs args).length by omega)
    have hb := List.getElem?_eq_getElem hi
    simpa [argIndex, ha, hb] using (hnext i _ _ ha hb).1
  · intro a ha
    rw [List.head?_eq_getElem?] at ha
    rcases hentry 0 a ha with ⟨v, hv⟩
    rcases (mem_callEntries (List.mem_of_getElem? hv)).1 with ⟨j, _, hj, hindex⟩
    intro hmax
    have hval : (BitVec.ofNat 32 j).toNat = (~~~0 : Word).toNat := by rw [← hindex, ← hmax]
    rw [BitVec.toNat_ofNat, Nat.mod_eq_of_lt (by omega)] at hval
    have hmaxval : (~~~0 : Word).toNat = 2 ^ 32 - 1 := by decide
    omega
  · intro i a b ha hb heq
    exact (hnext i a b ha hb).2 heq

end Mandarin.CallConv
