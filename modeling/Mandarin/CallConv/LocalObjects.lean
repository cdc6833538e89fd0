import Mandarin.CallConv.RoundTrip

/-! # Local objects behind the incoming arguments

The callee's fixed objects say how far the incoming stack area reaches: an aggregate
has its size, but a scalar counts as one byte, the size being computed in words. Local
objects are laid out from the largest end of a fixed object on, so nothing but the
last three bytes of the topmost scalar can be overlaid.
-/

namespace Mandarin.CallConv

open Layout

def FixedObject.stop (x : FixedObject) : Nat := x.offset.toNat + x.size.toNat

/-- Where the frame layout starts placing local objects. -/
def localArea (objects : List FixedObject) : Nat := largest (objects.map FixedObject.stop)

/-- The entry `a` is value `k` and passed in memory at offset `o`. -/
def InMemory (args : List ArgT) (locs : List CCValAssign) (k : Nat) (a : ArgT) (o : Word) : Prop :=
  args[k]? = some a ∧ ∃ va, locs[k]? = some va ∧ va.loc = .mem o

def passedBytes (a : ArgT) : Nat := if a.flags.isByVal then a.flags.byValSize.toNat else 4

/-- Formal arguments are lowered, and no byte of one passed in memory belongs to a
local object. -/
def ArgumentsClear (args : List ArgT) (locals : List Request) : Prop :=
  ∃ cc formals, analyzeArguments false args = some cc ∧
    lowerFormalArguments false args = some formals ∧
    ∀ k a o, InMemory args cc.locs k a o → ∀ i < passedBytes a,
      ¬ Covered (blocks (localArea formals.fixedObjects) locals) (o.toNat + i)

/-! ## The fixed objects -/

/-- The object the callee creates for an entry at offset `o`. -/
def fixedObject (a : ArgT) (o : Word) : FixedObject :=
  ⟨if a.flags.isByVal then a.flags.byValSize else 1, o⟩

theorem lowerFormal_callArgs {args : List CallArg} {k : Nat} {va : CCValAssign}
    (hva : (slotLocs 0 0 0 (callSlots args))[k]? = some va) :
    ∃ a x, (callArgs args)[k]? = some a ∧ lowerFormal (callArgs args) k va = some x ∧
      ((∃ r, va.loc = .reg r ∧ x.object? = none) ∨
        ∃ o, va.loc = .mem o ∧ x.object? = some (fixedObject a o)) := by
  rcases (slotLocs_getElem? hva).2 with ⟨slot, hslot, _, hVT⟩
  have hk := (List.getElem?_eq_some_iff.mp hslot).1
  rw [length_callSlots] at hk
  have hp := List.getElem?_eq_getElem hk
  have hkind := callSlots_kind hp hslot
  have ha : (callArgs args)[k]? = some (callEntries 0 args)[k].1 := by
    rw [callArgs, List.getElem?_map, hp]
    rfl
  generalize (callEntries 0 args)[k] = p at ha hkind
  cases hloc : va.loc with
  | reg r =>
      exact ⟨p.1, .copyFromReg r (liveInClass va.locVT) va.locVT, ha,
        by simp only [lowerFormal, hloc], .inl ⟨r, rfl, rfl⟩⟩
  | mem o =>
      by_cases hb : p.1.flags.isByVal = true
      · refine ⟨p.1, .frameIndex ⟨p.1.flags.byValSize, o⟩, ha, ?_, .inr ⟨o, rfl, ?_⟩⟩
        · simp only [lowerFormal, hloc, ha, hb, bind, Option.bind, ↓reduceIte]
        · simp only [InVal.object?, fixedObject, hb, ↓reduceIte]
      · rw [if_neg hb] at hkind
        rcases hkind with ⟨vt, hscalar, hvt⟩
        have hsize : va.locVT.getSizeInBits / 32 = 1 := by
          rcases hvt with rfl | rfl <;> rw [hVT] <;>
            cases vt <;> simp_all [Slot.VT, MVT.isScalar, MVT.getSizeInBits]
        refine ⟨p.1, .load va.locVT ⟨1, o⟩, ha, ?_, .inr ⟨o, rfl, ?_⟩⟩
        · simp only [lowerFormal, hloc, ha, hb, hsize, bind, Option.bind, Bool.false_eq_true,
            ↓reduceIte]
          rfl
        · simp only [InVal.object?, fixedObject, hb, Bool.false_eq_true, ↓reduceIte]

/-- Formal arguments of a signature are lowered, and the fixed objects are those of
the values passed in memory. -/
theorem lowerFormalArguments_objects {args : List CallArg} (hcount : args.length < 2 ^ 32) :
    ∃ cc formals, analyzeArguments false (callArgs args) = some cc ∧
      lowerFormalArguments false (callArgs args) = some formals ∧
      cc.locs = slotLocs 0 0 0 (callSlots args) ∧
      ∀ object, object ∈ formals.fixedObjects ↔
        ∃ k a o, InMemory (callArgs args) cc.locs k a o ∧ object = fixedObject a o := by
  have hrun : analyzeArguments false (callArgs args) =
      some (CCState.initial.placeAll (callSlots args)) :=
    (wellNumbered_callArgs hcount).analyzeArguments_eq.2
  have hlocs := locs_placeAll_initial (callSlots args)
  have hformal := fun k va hva => @lowerFormal_callArgs args k va hva
  rcases @eachLoc_eq_some _ (lowerFormal (callArgs args)) 0 (slotLocs 0 0 0 (callSlots args))
    (fun k va hva => by
      rcases hformal k va hva with ⟨_, x, _, hx, _⟩
      exact ⟨x, by rw [Nat.zero_add, hx]⟩) with ⟨xs, hxs, hlen, hget⟩
  refine ⟨_, ⟨xs, xs.filterMap InVal.object?⟩, hrun, ?_, hlocs, ?_⟩
  · simp only [lowerFormalArguments, hrun, hlocs, hxs, bind, Option.bind, Bool.false_eq_true,
      ↓reduceIte]
  · intro object
    rw [hlocs, List.mem_filterMap]
    constructor
    · intro h
      rcases h with ⟨x, hx, hobject⟩
      rcases List.getElem?_of_mem hx with ⟨k, hk⟩
      rw [hget, Nat.zero_add, Option.bind_eq_some_iff] at hk
      rcases hk with ⟨va, hva, hlower⟩
      rcases hformal k va hva with ⟨a, x', ha, hx', hcase⟩
      rw [hlower, Option.some.injEq] at hx'
      subst hx'
      rcases hcase with ⟨r, _, hnone⟩ | ⟨o, hloc, hsome⟩
      · rw [hnone] at hobject
        cases hobject
      · rw [hsome, Option.some.injEq] at hobject
        exact ⟨k, a, o, ⟨ha, va, hva, hloc⟩, hobject.symm⟩
    · intro h
      rcases h with ⟨k, a, o, ⟨ha, va, hva, hloc⟩, rfl⟩
      rcases hformal k va hva with ⟨a', x, ha', hx, hcase⟩
      rw [ha, Option.some.injEq] at ha'
      subst ha'
      refine ⟨x, ?_, ?_⟩
      · apply List.mem_of_getElem? (i := k)
        rw [hget, hva, Nat.zero_add]
        exact hx
      · rcases hcase with ⟨r, hreg, _⟩ | ⟨o', hloc', hsome⟩
        · rw [hloc] at hreg
          cases hreg
        · rw [hloc] at hloc'
          cases hloc'
          exact hsome

/-! ## What can be overlaid -/

/-- Local objects of nonzero size start behind the word of every scalar passed in
memory. -/
def LocalsBehindScalars (args : List CallArg) (locals : List Request) : Prop :=
  ∀ cc formals, analyzeArguments false (callArgs args) = some cc →
    lowerFormalArguments false (callArgs args) = some formals →
    ∀ k a o, InMemory (callArgs args) cc.locs k a o → a.flags.isByVal = false →
      ∀ b ∈ blocks (localArea formals.fixedObjects) locals, 0 < b.2.size → o.toNat + 4 ≤ b.1

theorem argumentsClear_iff_behind {args : List CallArg} {locals : List Request}
    (hcount : args.length < 2 ^ 32) (hlocals : Aligned locals) :
    ArgumentsClear (callArgs args) locals ↔ LocalsBehindScalars args locals := by
  rcases lowerFormalArguments_objects hcount with ⟨cc, formals, hcc, hformals, _, hobjects⟩
  -- the object of a value ends where the locals may start
  have harea : ∀ k a o, InMemory (callArgs args) cc.locs k a o →
      (fixedObject a o).stop ≤ localArea formals.fixedObjects := by
    intro k a o hmem
    apply le_largest
    exact List.mem_map_of_mem ((hobjects _).mpr ⟨k, a, o, hmem, rfl⟩)
  have hstart : ∀ b ∈ blocks (localArea formals.fixedObjects) locals,
      localArea formals.fixedObjects ≤ b.1 := fun b hb => le_of_mem_blocks hlocals hb
  constructor
  · intro h cc' formals' hcc' hformals' k a o hmem hb b hblock hsize
    rcases h with ⟨cc'', formals'', hcc'', hformals'', hclear⟩
    rw [hcc, Option.some.injEq] at hcc' hcc''
    rw [hformals, Option.some.injEq] at hformals' hformals''
    subst hcc' hcc'' hformals' hformals''
    by_contra hover
    have hlow := Nat.le_trans (harea k a o hmem) (hstart b hblock)
    simp only [FixedObject.stop, fixedObject, hb, Bool.false_eq_true, ↓reduceIte] at hlow
    have hone : (1 : Word).toNat = 1 := rfl
    -- the first byte of the local object is one of the word
    have hbyte : b.1 - o.toNat < passedBytes a := by
      simp only [passedBytes, hb, Bool.false_eq_true, ↓reduceIte]
      omega
    exact hclear k a o hmem _ hbyte ⟨b, hblock, by omega, by omega⟩
  · intro h
    refine ⟨cc, formals, hcc, hformals, ?_⟩
    intro k a o hmem i hi hcovered
    rcases hcovered with ⟨b, hblock, hlow, hhigh⟩
    by_cases hb : a.flags.isByVal = true
    · have hend := Nat.le_trans (harea k a o hmem) (hstart b hblock)
      simp only [FixedObject.stop, fixedObject, hb, ↓reduceIte] at hend
      simp only [passedBytes, hb, ↓reduceIte] at hi
      omega
    · have hb' : a.flags.isByVal = false := by simpa using hb
      have hend := h cc formals hcc hformals k a o hmem hb' b hblock (by omega)
      simp only [passedBytes, hb', Bool.false_eq_true, ↓reduceIte] at hi
      omega

/-! ## Which local objects are laid out behind a word -/

/-- Up to and including the first local object of nonzero size, one is aligned to a
word, unless all of them are empty. -/
def ClearsWord : List Request → Prop
  | [] => True
  | r :: rs => 4 ≤ r.align ∨ (r.size = 0 ∧ ClearsWord rs)

theorem aligned_of_power {rs : List Request} (h : ∀ r ∈ rs, ∃ k, r.align = 2 ^ k) :
    Aligned rs := by
  intro r hr
  rcases h r hr with ⟨k, hk⟩
  rw [hk]
  exact Nat.two_pow_pos k

/-- Rounding up to a power of two behind the first byte of a word stays in front of its
last byte or leaves the word. -/
theorem roundUp_in_word {o off k : Nat} (ho : 4 ∣ o) (hoff : off = o + 1 ∨ off = o + 2) :
    (2 ^ k < 4 ∧ (roundUp off (2 ^ k) = o + 1 ∨ roundUp off (2 ^ k) = o + 2)) ∨
      (4 ≤ 2 ^ k ∧ o + 4 ≤ roundUp off (2 ^ k)) := by
  rcases ho with ⟨q, rfl⟩
  match k with
  | 0 =>
      left
      simp only [roundUp, Nat.pow_zero]
      omega
  | 1 =>
      left
      simp only [roundUp, Nat.pow_one]
      omega
  | k + 2 =>
      right
      have hpow : 4 ∣ 2 ^ (k + 2) := ⟨2 ^ k, by rw [Nat.pow_add, Nat.mul_comm]⟩
      have hle := le_roundUp off (Nat.two_pow_pos (k + 2))
      have hdvd := Nat.dvd_trans hpow (dvd_roundUp off (2 ^ (k + 2)))
      have hbig : 4 ≤ 2 ^ (k + 2) := Nat.le_of_dvd (Nat.two_pow_pos _) hpow
      omega

theorem blocks_behind_word_iff {o off : Nat} {locals : List Request} (ho : 4 ∣ o)
    (hoff : off = o + 1 ∨ off = o + 2) (hpower : ∀ r ∈ locals, ∃ k, r.align = 2 ^ k) :
    (∀ b ∈ blocks off locals, 0 < b.2.size → o + 4 ≤ b.1) ↔ ClearsWord locals := by
  induction locals generalizing off with
  | nil => simp [ClearsWord]
  | cons r rs ih =>
      rcases hpower r (by simp) with ⟨k, hk⟩
      have hpower' : ∀ q ∈ rs, ∃ k, q.align = 2 ^ k := fun q hq => hpower q (by simp [hq])
      have haligned := aligned_of_power hpower'
      have hstart : r.start off = roundUp off (2 ^ k) := by rw [Request.start, hk]
      rw [blocks_cons, List.forall_mem_cons, ClearsWord, hk]
      rcases roundUp_in_word (k := k) ho hoff with ⟨hsmall, hin⟩ | ⟨hbig, hout⟩
      · rw [← hstart] at hin
        by_cases hsize : r.size = 0
        · have hstop : r.stop off = r.start off := by rw [Request.stop, hsize, Nat.add_zero]
          rw [hstop, ih hin hpower']
          constructor
          · intro h
            exact .inr ⟨hsize, h.2⟩
          · intro h
            refine ⟨fun hpos => absurd hsize (Nat.ne_of_gt hpos), ?_⟩
            rcases h with h | h
            · omega
            · exact h.2
        · constructor
          · intro h
            have hhead := h.1 (Nat.pos_of_ne_zero hsize)
            omega
          · intro h
            omega
      · rw [← hstart] at hout
        constructor
        · intro _
          exact .inl hbig
        · intro _
          refine ⟨fun _ => hout, ?_⟩
          intro b hb _
          have hle := le_of_mem_blocks haligned hb
          unfold Request.stop at hle
          omega

/-! ## The value passed last on the stack -/

def OnStack (args : List ArgT) (k : Nat) : Prop :=
  ∃ a, args[k]? = some a ∧ (a.flags.isByVal = true ∨ ¬ InRegs args k)

def ScalarOnTop (args : List ArgT) : Prop :=
  ∃ k a, args[k]? = some a ∧ a.flags.isByVal = false ∧ OnStack args k ∧
    ∀ j, k < j → ¬ OnStack args j

/-- Value `k` is the entry `a` and has the block `r` of the stack area. -/
structure HasBlock (args : List CallArg) (k : Nat) (a : ArgT) (r : Request) : Prop where
  entry : (callArgs args)[k]? = some a
  request : ∃ x, (callSlots args)[k]? = some x ∧ x.request = some r
  byVal : a.flags.isByVal = true → a.flags.byValSize.toNat ≤ r.size
  scalar : a.flags.isByVal = false → r = ⟨4, 4⟩

theorem callSlots_getElem? {args : List CallArg} {k : Nat} {a : ArgT}
    (ha : (callArgs args)[k]? = some a) : (callSlots args)[k]? = slotAt (callArgs args) k := by
  have hk := (List.getElem?_eq_some_iff.mp ha).1
  rw [callSlots, slotsFrom_getElem? (slotAt_callArgs_ne_none args) hk, Nat.zero_add]

theorem onStack_iff_hasBlock {args : List CallArg} {k : Nat} :
    OnStack (callArgs args) k ↔ ∃ a r, HasBlock args k a r := by
  constructor
  · intro h
    rcases h with ⟨a, ha, hstack⟩
    have hx := callSlots_getElem? ha
    rw [slotAt_callArgs ha] at hx
    by_cases hb : a.flags.isByVal = true
    · rw [if_pos hb] at hx
      refine ⟨a, _, ha, ⟨_, hx, rfl⟩, fun _ => le_atLeast _, ?_⟩
      intro hb'
      rw [hb] at hb'
      cases hb'
    · rw [if_neg hb, if_neg (hstack.resolve_left hb)] at hx
      exact ⟨a, ⟨4, 4⟩, ha, ⟨_, hx, rfl⟩, fun hb' => absurd hb' hb, fun _ => rfl⟩
  · intro h
    rcases h with ⟨a, r, ha, ⟨x, hx, hr⟩, _, _⟩
    refine ⟨a, ha, ?_⟩
    rw [callSlots_getElem? ha, slotAt_callArgs ha, Option.some.injEq] at hx
    by_cases hb : a.flags.isByVal = true
    · exact .inl hb
    · right
      intro hregs
      rw [if_neg hb, if_pos hregs] at hx
      subst hx
      cases hr

def blockStart (args : List CallArg) (k : Nat) (r : Request) : Nat :=
  slotStart 0 (callSlots args) k r

theorem HasBlock.ordered {args : List CallArg} {j k : Nat} {a b : ArgT} {r q : Request}
    (hj : HasBlock args j a r) (hk : HasBlock args k b q) (hjk : j < k) :
    blockStart args j r + r.size ≤ blockStart args k q := by
  rcases hj.request with ⟨x, hx, hr⟩
  rcases hk.request with ⟨y, _, hq⟩
  exact slotStart_ordered hjk hx hr hq

/-- `LocalsBehindScalars` for the fixed objects of the frame. -/
def BehindScalars (args : List CallArg) (objects : List FixedObject) (locals : List Request) :
    Prop :=
  ∀ k a o, InMemory (callArgs args) (slotLocs 0 0 0 (callSlots args)) k a o →
    a.flags.isByVal = false →
    ∀ b ∈ blocks (localArea objects) locals, 0 < b.2.size → o.toNat + 4 ≤ b.1

theorem HasBlock.entry_unique {args : List CallArg} {k : Nat} {a b : ArgT} {r q : Request}
    (hj : HasBlock args k a r) (hk : HasBlock args k b q) : a = b := by
  have hab : some a = some b := hj.entry.symm.trans hk.entry
  exact Option.some.inj hab

theorem HasBlock.stop_le {args : List CallArg} {k : Nat} {a : ArgT} {r : Request} {o : Word}
    (h : HasBlock args k a r) (ho : o.toNat = blockStart args k r) :
    blockStart args k r ≤ (fixedObject a o).stop ∧
      (fixedObject a o).stop ≤ blockStart args k r + r.size := by
  rw [FixedObject.stop, fixedObject, ho]
  refine ⟨Nat.le_add_right _ _, Nat.add_le_add_left ?_ _⟩
  by_cases hb : a.flags.isByVal = true
  · rw [if_pos hb]
    exact h.byVal hb
  · rw [if_neg hb, h.scalar (by simpa using hb)]
    show (1 : Word).toNat ≤ 4
    decide

section
variable {args : List CallArg} (hcount : args.length < 2 ^ 32)
  (hfits : stackSize (callArgs args) < 2 ^ 32)
include hcount hfits

theorem HasBlock.inMemory {k : Nat} {a : ArgT} {r : Request} (h : HasBlock args k a r) :
    ∃ o, InMemory (callArgs args) (slotLocs 0 0 0 (callSlots args)) k a o ∧
      o.toNat = blockStart args k r := by
  have harea : stop (0 : Word).toNat (stackRequests (callSlots args)) < 2 ^ 32 := by
    rw [← stop_callSlots hcount] at hfits
    exact hfits
  rcases h.request with ⟨x, hx, hr⟩
  have hva := @slotLocs_mem 0 0 _ _ _ _ _ (callSlots_aligned args) harea hx hr
  have hend : blockStart args k r + r.size ≤ stop 0 (stackRequests (callSlots args)) :=
    slotStart_le_stop hx hr
  refine ⟨_, ⟨h.entry, _, hva, rfl⟩, ?_⟩
  apply Nat.mod_eq_of_lt
  exact Nat.lt_of_le_of_lt (Nat.le_trans (Nat.le_add_right _ _) hend) harea

theorem hasBlock_of_inMemory {k : Nat} {a : ArgT} {o : Word}
    (h : InMemory (callArgs args) (slotLocs 0 0 0 (callSlots args)) k a o) :
    ∃ r, HasBlock args k a r ∧ o.toNat = blockStart args k r := by
  rcases h with ⟨ha, va, hva, hmem⟩
  by_cases hstack : OnStack (callArgs args) k
  · rcases onStack_iff_hasBlock.mp hstack with ⟨b, r, hblock⟩
    rcases hblock.inMemory hcount hfits with ⟨o', ⟨hb, va', hva', hmem'⟩, ho'⟩
    have hab : some a = some b := ha.symm.trans hb
    have hvas : some va = some va' := hva.symm.trans hva'
    cases hab
    cases hvas
    rw [hmem] at hmem'
    cases hmem'
    exact ⟨r, hblock, ho'⟩
  · -- a register slot has a register location
    have hbyval : ¬ a.flags.isByVal = true := fun hb => hstack ⟨a, ha, .inl hb⟩
    have hregs : InRegs (callArgs args) k := by
      by_contra hregs
      exact hstack ⟨a, ha, .inr hregs⟩
    have hx := callSlots_getElem? ha
    rw [slotAt_callArgs ha, if_neg hbyval, if_pos hregs] at hx
    rw [slotLocs_reg hx, Option.some.injEq] at hva
    rw [← hva] at hmem
    cases hmem

variable {objects : List FixedObject} (hobjects : ∀ object, object ∈ objects ↔
  ∃ k a o, InMemory (callArgs args) (slotLocs 0 0 0 (callSlots args)) k a o ∧
    object = fixedObject a o)
include hobjects

theorem HasBlock.le_localArea {k : Nat} {a : ArgT} {r : Request} (h : HasBlock args k a r) :
    blockStart args k r ≤ localArea objects := by
  rcases h.inMemory hcount hfits with ⟨o, hmem, ho⟩
  apply Nat.le_trans (h.stop_le ho).1
  apply le_largest
  exact List.mem_map_of_mem ((hobjects _).mpr ⟨k, a, o, hmem, rfl⟩)

/-- With a scalar as the last value the locals start at its second byte. -/
theorem HasBlock.localArea_eq {k : Nat} {a : ArgT} (h : HasBlock args k a ⟨4, 4⟩)
    (hb : a.flags.isByVal = false) (hlast : ∀ j, k < j → ¬ OnStack (callArgs args) j) :
    localArea objects = blockStart args k ⟨4, 4⟩ + 1 := by
  have hscalar : ∀ o : Word, o.toNat = blockStart args k ⟨4, 4⟩ →
      (fixedObject a o).stop = blockStart args k ⟨4, 4⟩ + 1 := by
    intro o ho
    simp only [FixedObject.stop, fixedObject, hb, ho, Bool.false_eq_true, ↓reduceIte]
    rfl
  apply Nat.le_antisymm
  · apply largest_le
    intro n hn
    rcases List.mem_map.mp hn with ⟨object, hobject, rfl⟩
    rcases (hobjects object).mp hobject with ⟨j, b, o, hmem, rfl⟩
    rcases hasBlock_of_inMemory hcount hfits hmem with ⟨r, hj, ho⟩
    rcases Nat.lt_trichotomy j k with hjk | rfl | hkj
    · have hle := Nat.le_trans (hj.stop_le ho).2 (hj.ordered h hjk)
      exact Nat.le_succ_of_le hle
    · have hab := hj.entry_unique h
      subst hab
      have hr := hj.scalar hb
      subst hr
      exact Nat.le_of_eq (hscalar o ho)
    · exact absurd (onStack_iff_hasBlock.mpr ⟨b, r, hj⟩) (hlast j hkj)
  · rcases h.inMemory hcount hfits with ⟨o, hmem, ho⟩
    apply le_largest
    rw [← hscalar o ho]
    exact List.mem_map_of_mem ((hobjects _).mpr ⟨k, a, o, hmem, rfl⟩)

theorem HasBlock.behind_iff {locals : List Request} {k : Nat} {a : ArgT}
    (h : HasBlock args k a ⟨4, 4⟩) (hb : a.flags.isByVal = false)
    (hlast : ∀ j, k < j → ¬ OnStack (callArgs args) j)
    (hpower : ∀ r ∈ locals, ∃ k, r.align = 2 ^ k) :
    BehindScalars args objects locals ↔ ClearsWord locals := by
  have harea := h.localArea_eq hcount hfits hobjects hb hlast
  have hdvd : 4 ∣ blockStart args k ⟨4, 4⟩ := dvd_roundUp _ _
  rw [← blocks_behind_word_iff hdvd (.inl harea) hpower]
  constructor
  · intro hbehind b hmem hsize
    obtain ⟨o, ho, hoff⟩ := h.inMemory hcount hfits
    rw [← hoff]
    exact hbehind k a o ho hb b hmem hsize
  · intro hword j c o hmem hc b hmemb hsize
    have hstart := hword b hmemb hsize
    obtain ⟨r, hj, ho⟩ := hasBlock_of_inMemory hcount hfits hmem
    have hr := hj.scalar hc
    subst hr
    rcases Nat.lt_trichotomy j k with hjk | rfl | hkj
    · have hord : blockStart args j ⟨4, 4⟩ + 4 ≤ _ := hj.ordered h hjk
      omega
    · omega
    · exact absurd (onStack_iff_hasBlock.mpr ⟨c, _, hj⟩) (hlast j hkj)

/-- Otherwise another value follows every scalar, and the locals are behind its block. -/
theorem behind_of_not_scalarOnTop {locals : List Request}
    (htop : ¬ ScalarOnTop (callArgs args)) (hlocals : Aligned locals) :
    BehindScalars args objects locals := by
  intro j c o hmem hc b hmemb _
  obtain ⟨r, hj, ho⟩ := hasBlock_of_inMemory hcount hfits hmem
  have hr := hj.scalar hc
  subst hr
  have hnext : ∃ i, j < i ∧ OnStack (callArgs args) i := by
    by_contra hnone
    apply htop
    refine ⟨j, c, hj.entry, hc, onStack_iff_hasBlock.mpr ⟨c, _, hj⟩, ?_⟩
    intro i hji hi
    exact hnone ⟨i, hji, hi⟩
  obtain ⟨i, hji, hi⟩ := hnext
  obtain ⟨d, q, hblock⟩ := onStack_iff_hasBlock.mp hi
  have hord : blockStart args j ⟨4, 4⟩ + 4 ≤ _ := hj.ordered hblock hji
  have harea := hblock.le_localArea hcount hfits hobjects
  have hstart := le_of_mem_blocks hlocals hmemb
  omega

end

theorem localsBehindScalars_iff {args : List CallArg} {locals : List Request}
    (hcount : args.length < 2 ^ 32) (hfits : stackSize (callArgs args) < 2 ^ 32)
    (hpower : ∀ r ∈ locals, ∃ k, r.align = 2 ^ k) :
    LocalsBehindScalars args locals ↔ (ScalarOnTop (callArgs args) → ClearsWord locals) := by
  obtain ⟨cc, formals, hcc, hformals, hlocs, hobjects⟩ := lowerFormalArguments_objects hcount
  rw [hlocs] at hobjects
  have hbehind : LocalsBehindScalars args locals ↔
      BehindScalars args formals.fixedObjects locals := by
    unfold BehindScalars
    rw [← hlocs]
    constructor
    · intro h
      exact h cc formals hcc hformals
    · intro h cc' formals' hcc' hformals'
      rw [hcc, Option.some.injEq] at hcc'
      rw [hformals, Option.some.injEq] at hformals'
      subst hcc' hformals'
      exact h
  rw [hbehind]
  by_cases htop : ScalarOnTop (callArgs args)
  · obtain ⟨k, a, ha, hb, hstack, hlast⟩ := htop
    have hblock : HasBlock args k a ⟨4, 4⟩ := by
      obtain ⟨a', r, hblock⟩ := onStack_iff_hasBlock.mp hstack
      have haa : some a = some a' := ha.symm.trans hblock.entry
      cases haa
      rw [← hblock.scalar hb]
      exact hblock
    rw [hblock.behind_iff hcount hfits hobjects hb hlast hpower]
    constructor
    · intro h _
      exact h
    · intro h
      exact h ⟨k, a, ha, hb, hstack, hlast⟩
  · constructor
    · intro _ h
      exact absurd h htop
    · intro _
      exact behind_of_not_scalarOnTop hcount hfits hobjects htop (aligned_of_power hpower)

/-- Local objects overlay an argument exactly when one that is not empty starts in the
word of a scalar. In a stack area that fits the address space, and with powers of two as
alignments, this takes a scalar as the last value, and local objects of which the first
that is not empty is reached without an alignment to words. -/
theorem argumentsClear_iff {args : List CallArg} {locals : List Request}
    (hcount : args.length < 2 ^ 32) (hlocals : Aligned locals) :
    (ArgumentsClear (callArgs args) locals ↔ LocalsBehindScalars args locals) ∧
      (stackSize (callArgs args) < 2 ^ 32 → (∀ r ∈ locals, ∃ k, r.align = 2 ^ k) →
        (ArgumentsClear (callArgs args) locals ↔
          (ScalarOnTop (callArgs args) → ClearsWord locals))) := by
  have hbehind := argumentsClear_iff_behind hcount hlocals
  refine ⟨hbehind, ?_⟩
  intro hfits hpower
  rw [hbehind, localsBehindScalars_iff hcount hfits hpower]

/-- Five integers, of which one is passed on the stack. -/
def fiveIntegers : List CallArg := List.replicate 5 (.scalars [⟨⟨.i32, MVT.isScalar_i32⟩, 1⟩])

theorem argumentsClear_iff_five_integers :
    stackSize (callArgs fiveIntegers) = 4 ∧
      ArgumentsClear (callArgs fiveIntegers) [⟨0, 1⟩, ⟨8, 4⟩, ⟨1, 1⟩] := by
  have hpower : ∀ r ∈ [⟨0, 1⟩, ⟨8, 4⟩, (⟨1, 1⟩ : Request)], ∃ k, r.align = 2 ^ k := by
    intro r hr
    simp only [List.mem_cons, List.not_mem_nil, or_false] at hr
    rcases hr with rfl | rfl | rfl
    · exact ⟨0, rfl⟩
    · exact ⟨2, rfl⟩
    · exact ⟨0, rfl⟩
  have hclear := (@argumentsClear_iff fiveIntegers _ (by decide) (aligned_of_power hpower)).2
    (by decide) hpower
  refine ⟨by decide, hclear.mpr ?_⟩
  intro _
  exact .inr ⟨rfl, .inl (Nat.le_refl 4)⟩

/-- The fifth integer is at bytes 0 to 3, its fixed object is byte 0, and a byte array
starts at byte 1. -/
theorem fifth_integer_overlaid : ¬ ArgumentsClear (callArgs fiveIntegers) [⟨1, 1⟩] := by
  have hpower : ∀ r ∈ [(⟨1, 1⟩ : Request)], ∃ k, r.align = 2 ^ k := by
    intro r hr
    rw [List.mem_singleton] at hr
    subst hr
    exact ⟨0, rfl⟩
  rw [argumentsClear_iff_behind (by decide) (aligned_of_power hpower),
    localsBehindScalars_iff (by decide) (by decide) hpower]
  intro h
  have htop : ScalarOnTop (callArgs fiveIntegers) := by
    refine ⟨4, _, rfl, rfl, ⟨_, rfl, .inr (by decide)⟩, ?_⟩
    intro j hj hstack
    rcases hstack with ⟨a, ha, _⟩
    have hlt : j < 5 := (List.getElem?_eq_some_iff.mp ha).1
    omega
  rcases h htop with hword | ⟨hempty, _⟩
  · exact absurd hword (by decide)
  · exact absurd hempty (by decide)

end Mandarin.CallConv
