import Mandarin.CallConv.CallSite
import Mandarin.Lib.Area

/-! # Arguments arrive

For scalar and aggregate arguments every value gets a slot, so the walks of the
caller and the callee meet at each index: a register slot is written and read as
the same register, a stack slot as the same block of the stack area. The blocks
are apart and lie at or above the stack pointer, while the aggregates are read
below it, so the memory operations may run in any order.
-/

namespace Mandarin.CallConv

open Memory Layout

/-! ## One value -/

def slotTransfer (ss : List Slot) (k : Nat) (v : Word) : Slot → Transfer Word
  | .reg _ => .regToPass (argReg (regsBefore ss k)) (.value v)
  | .stack _ => .memOp (.store (BitVec.ofNat 32 (slotStart 0 ss k ⟨4, 4⟩)) (.value v))
  | .byVal _ flags =>
      .memOp (.memcpy (BitVec.ofNat 32 (slotStart 0 ss k
        ⟨(CCState.atLeast 2 flags.byValSize).toNat, (CCState.atLeast 2 flags.byValAlign).toNat⟩))
        (.value v) flags.byValSize flags.byValAlign)

def slotInVal (ss : List Slot) (k : Nat) : Slot → InVal
  | .reg vt => .copyFromReg (argReg (regsBefore ss k)) (liveInClass vt) vt
  | .stack vt => .load vt ⟨1, BitVec.ofNat 32 (slotStart 0 ss k ⟨4, 4⟩)⟩
  | .byVal _ flags =>
      .frameIndex ⟨flags.byValSize, BitVec.ofNat 32 (slotStart 0 ss k
        ⟨(CCState.atLeast 2 flags.byValSize).toNat, (CCState.atLeast 2 flags.byValAlign).toNat⟩)⟩

/-- The slots of a call: one for each value, of scalar type, aggregates in
aggregate slots, and all within the address space behind `sp`. -/
structure CallSlots (sp : Word) (es : List (ArgT × Word)) (ss : List Slot) : Prop where
  length : ss.length = es.length
  kind : ∀ (k : Nat) (p : ArgT × Word) (x : Slot), es[k]? = some p → ss[k]? = some x →
    if p.1.flags.isByVal then x = .byVal p.1.VT p.1.flags
    else ∃ vt, vt.isScalar = true ∧ (x = .reg vt ∨ x = .stack vt)
  aligned : PowerAligned ss
  regs : (regVTs ss).length ≤ nbRegs
  fits : sp.toNat + stop 0 (stackRequests ss) < 2 ^ 32
  source : ∀ p ∈ es, p.1.flags.isByVal = true → ∀ i < p.1.flags.byValSize.toNat,
    (p.2 + BitVec.ofNat 32 i).toNat < sp.toNat

variable {sp : Word} {es : List (ArgT × Word)} {ss : List Slot}

theorem CallSlots.lowerOperand_eq (h : CallSlots sp es ss) {k : Nat} {p : ArgT × Word} {x : Slot}
    (hp : es[k]? = some p) (hx : ss[k]? = some x) :
    ∃ va, (slotLocs 0 0 0 ss)[k]? = some va ∧
      lowerOperand (es.map Prod.fst) (es.map Prod.snd) k va = some (slotTransfer ss k p.2 x) ∧
      lowerFormal (es.map Prod.fst) k va = some (slotInVal ss k x) := by
  have hkind := h.kind k p x hp hx
  have hfit : stop (0 : Word).toNat (stackRequests ss) < 2 ^ 32 :=
    Nat.lt_of_le_of_lt (Nat.le_add_left _ _) h.fits
  have ha : (es.map Prod.fst)[k]? = some p.1 := by rw [List.getElem?_map, hp]; rfl
  have hv : (es.map Prod.snd)[k]? = some p.2 := by rw [List.getElem?_map, hp]; rfl
  by_cases hb : p.1.flags.isByVal = true
  · rw [if_pos hb] at hkind
    subst hkind
    have hl := @slotLocs_mem 0 0 k 0 ss _ _ h.aligned hfit hx rfl
    refine ⟨_, hl, ?_, ?_⟩
    · simp only [lowerOperand, hv, ha, CCValAssign.getMem, promote, hb, bind, Option.bind,
        ↓reduceIte]
      rfl
    · simp only [lowerFormal, ha, CCValAssign.getMem, hb, bind, Option.bind, ↓reduceIte]
      rfl
  · rw [if_neg hb] at hkind
    rcases hkind with ⟨vt, hscalar, rfl | rfl⟩
    · have hl := @slotLocs_reg 0 0 k 0 ss vt hx
      rw [Nat.zero_add, Nat.zero_add] at hl
      refine ⟨_, hl, ?_, ?_⟩
      · simp only [lowerOperand, hv, CCValAssign.getReg, promote, bind, Option.bind]
        rfl
      · simp only [lowerFormal, CCValAssign.getReg]
        rfl
    · have hl := @slotLocs_mem 0 0 k 0 ss _ _ h.aligned hfit hx rfl
      have hsize : vt.getSizeInBits / 32 = 1 := by
        cases vt <;> simp_all [MVT.isScalar, MVT.getSizeInBits]
      refine ⟨_, hl, ?_, ?_⟩
      · simp only [lowerOperand, hv, ha, CCValAssign.getMem, promote, bind, Option.bind]
        rw [if_neg hb]
        rfl
      · simp only [lowerFormal, ha, CCValAssign.getMem, bind, Option.bind]
        rw [if_neg hb]
        show (if vt.getSizeInBits / 32 > 1 then none
          else some (InVal.load vt ⟨BitVec.ofNat 32 (vt.getSizeInBits / 32), _⟩)) = _
        rw [hsize]
        rfl

theorem CallSlots.walks (h : CallSlots sp es ss) :
    ∃ ts xs, eachLoc (lowerOperand (es.map Prod.fst) (es.map Prod.snd)) 0 (slotLocs 0 0 0 ss) =
        some ts ∧
      eachLoc (lowerFormal (es.map Prod.fst)) 0 (slotLocs 0 0 0 ss) = some xs ∧
      ts.length = es.length ∧ xs.length = es.length ∧
      ∀ (k : Nat) (p : ArgT × Word) (x : Slot), es[k]? = some p → ss[k]? = some x →
        ts[k]? = some (slotTransfer ss k p.2 x) ∧ xs[k]? = some (slotInVal ss k x) := by
  have hat : ∀ (k : Nat) (va : CCValAssign), (slotLocs 0 0 0 ss)[k]? = some va →
      ∃ p x, es[k]? = some p ∧ ss[k]? = some x ∧
        lowerOperand (es.map Prod.fst) (es.map Prod.snd) k va = some (slotTransfer ss k p.2 x) ∧
        lowerFormal (es.map Prod.fst) k va = some (slotInVal ss k x) := by
    intro k va hva
    have hk := (List.getElem?_eq_some_iff.mp hva).1
    rw [length_slotLocs] at hk
    have hx := List.getElem?_eq_getElem hk
    have hp := List.getElem?_eq_getElem (h.length ▸ hk)
    rcases h.lowerOperand_eq hp hx with ⟨va', hva', hout, hin⟩
    rw [hva, Option.some.injEq] at hva'
    subst hva'
    exact ⟨_, _, hp, hx, hout, hin⟩
  have hout := @eachLoc_eq_some _ (lowerOperand (es.map Prod.fst) (es.map Prod.snd)) 0
    (slotLocs 0 0 0 ss) fun k va hva => by
      rcases hat k va hva with ⟨p, x, _, _, ht, _⟩
      exact ⟨_, by rw [Nat.zero_add, ht]⟩
  have hin := @eachLoc_eq_some _ (lowerFormal (es.map Prod.fst)) 0 (slotLocs 0 0 0 ss)
    fun k va hva => by
      rcases hat k va hva with ⟨p, x, _, _, _, ht⟩
      exact ⟨_, by rw [Nat.zero_add, ht]⟩
  rcases hout with ⟨ts, hts, htlen, hget⟩
  rcases hin with ⟨xs, hxs, hxlen, hget'⟩
  rw [length_slotLocs, h.length] at htlen hxlen
  refine ⟨ts, xs, hts, hxs, htlen, hxlen, ?_⟩
  intro k p x hp hx
  rcases h.lowerOperand_eq hp hx with ⟨va, hva, ht, hi⟩
  rw [hget, hget', hva, Nat.zero_add]
  exact ⟨ht, hi⟩

/-! ## Blocks of the stack area -/

theorem CallSlots.start_toNat (h : CallSlots sp es ss) {k : Nat} {x : Slot} {r : Request}
    (hx : ss[k]? = some x) (hr : x.request = some r) :
    (sp + BitVec.ofNat 32 (slotStart 0 ss k r)).toNat = sp.toNat + slotStart 0 ss k r ∧
      sp.toNat + slotStart 0 ss k r + r.size < 2 ^ 32 := by
  have hle := @slotStart_le_stop 0 k ss x r hx hr
  have hfits := h.fits
  refine ⟨?_, by omega⟩
  rw [BitVec.toNat_add, BitVec.toNat_ofNat, Nat.mod_eq_of_lt (show slotStart 0 ss k r < 2 ^ 32 by omega),
    Nat.mod_eq_of_lt (by omega)]

/-- A memory operation stays within the block its slot asked for. -/
theorem slotTransfer_mem {k : Nat} {v : Word} {x : Slot} {op : MemOp Word} (sp : Word)
    (h : (slotTransfer ss k v x).mem? = some op) :
    ∃ r, x.request = some r ∧
      (op.update sp).region.start = sp + BitVec.ofNat 32 (slotStart 0 ss k r) ∧
      (op.update sp).region.size ≤ r.size := by
  cases x with
  | reg vt => cases h
  | stack vt =>
      cases h
      exact ⟨_, rfl, rfl, Nat.le_refl 4⟩
  | byVal vt flags =>
      cases h
      exact ⟨_, rfl, rfl, le_atLeast flags.byValSize⟩

/-- A memory operation reads its operand, or the bytes of the aggregate it copies. -/
theorem CallSlots.reads (h : CallSlots sp es ss) {k : Nat} {p : ArgT × Word} {x : Slot}
    {op : MemOp Word} (hp : es[k]? = some p) (hx : ss[k]? = some x)
    (hop : (slotTransfer ss k p.2 x).mem? = some op) {i : Nat}
    (hi : i < (op.update sp).region.size) {m m' : Mem 32}
    (hsame : p.1.flags.isByVal = true → i < p.1.flags.byValSize.toNat →
      m (p.2 + BitVec.ofNat 32 i) = m' (p.2 + BitVec.ofNat 32 i)) :
    (op.update sp).data m i = (op.update sp).data m' i := by
  have hkind := h.kind k p x hp hx
  cases x with
  | reg vt => cases hop
  | stack vt =>
      cases hop
      rfl
  | byVal vt flags =>
      cases hop
      by_cases hb : p.1.flags.isByVal = true
      · rw [if_pos hb] at hkind
        cases hkind
        exact hsame hb hi
      · rw [if_neg hb] at hkind
        rcases hkind with ⟨w, _, hw | hw⟩ <;> cases hw

def Transfers (es : List (ArgT × Word)) (ss : List Slot) (ts : List (Transfer Word)) : Prop :=
  ts.length = es.length ∧ ∀ (k : Nat) (p : ArgT × Word) (x : Slot), es[k]? = some p →
    ss[k]? = some x → ts[k]? = some (slotTransfer ss k p.2 x)

variable {ts : List (Transfer Word)}

theorem Transfers.getElem (ht : Transfers es ss ts) (h : CallSlots sp es ss) {k : Nat}
    (hk : k < ts.length) : ∃ p x, es[k]? = some p ∧ ss[k]? = some x ∧
      ts[k] = slotTransfer ss k p.2 x := by
  have hp := List.getElem?_eq_getElem (ht.1 ▸ hk)
  have hx := List.getElem?_eq_getElem (h.length ▸ ht.1 ▸ hk)
  have htk := ht.2 k _ _ hp hx
  rw [List.getElem?_eq_getElem hk, Option.some.injEq] at htk
  exact ⟨_, _, hp, hx, htk⟩

theorem Transfers.mem (ht : Transfers es ss ts) (h : CallSlots sp es ss) {t : Transfer Word}
    (hmem : t ∈ ts) : ∃ k p x, es[k]? = some p ∧ ss[k]? = some x ∧ t = slotTransfer ss k p.2 x := by
  rcases List.getElem_of_mem hmem with ⟨k, hk, rfl⟩
  exact ⟨k, ht.getElem h hk⟩

/-! ## Memory at callee entry -/

/-- The memory operations fill the blocks the slots ask for. -/
theorem Transfers.fills (ht : Transfers es ss ts) (h : CallSlots sp es ss) :
    Fills sp (stackRequests ss) ((ts.filterMap Transfer.mem?).map (MemOp.update sp)) := by
  have hlen : ts.length = ss.length := ht.1.trans h.length.symm
  have hstep : List.Forall₂
      (fun t x => ((Transfer.mem? t).map (MemOp.update sp)).isSome = x.request.isSome) ts ss := by
    rw [List.forall₂_iff_get]
    refine ⟨hlen, ?_⟩
    intro k hk hk'
    rcases ht.getElem h hk with ⟨p, x, _, hx, htk⟩
    obtain ⟨_, rfl⟩ := List.getElem?_eq_some_iff.mp hx
    rw [List.get_eq_getElem, List.get_eq_getElem, htk, Option.isSome_map]
    cases ss[k] <;> rfl
  rw [List.map_filterMap]
  refine Fills.of_filterMap hstep (aligned_stackRequests ss) h.fits ?_
  intro k t x u r ht' hx hu hr
  obtain ⟨op, hop, rfl⟩ := Option.map_eq_some_iff.mp hu
  obtain ⟨hk, rfl⟩ := List.getElem?_eq_some_iff.mp ht'
  rcases ht.getElem h hk with ⟨p, x', _, hx', htk⟩
  rw [hx, Option.some.injEq] at hx'
  subst hx'
  rw [htk] at hop
  rcases slotTransfer_mem sp hop with ⟨r', hr', hstart, hsize⟩
  rw [hr, Option.some.injEq] at hr'
  subst hr'
  exact ⟨hstart, hsize⟩

variable {ops : List (MemOp Word)}

theorem Transfers.mem_ops (ht : Transfers es ss ts) (h : CallSlots sp es ss) {u : Update 32}
    (hu : u ∈ (ts.filterMap Transfer.mem?).map (MemOp.update sp)) :
    ∃ k p x op, es[k]? = some p ∧ ss[k]? = some x ∧ (slotTransfer ss k p.2 x).mem? = some op ∧
      u = op.update sp := by
  rcases List.mem_map.mp hu with ⟨op, hop, rfl⟩
  rcases List.mem_filterMap.mp hop with ⟨t, htmem, hmem⟩
  rcases ht.mem h htmem with ⟨k, p, x, hp, hx, rfl⟩
  exact ⟨k, p, x, op, hp, hx, hmem, rfl⟩

theorem Transfers.below_unchanged (ht : Transfers es ss ts) (h : CallSlots sp es ss)
    (hops : ops.Perm (ts.filterMap Transfer.mem?)) (mem : Mem 32) {a : Word}
    (ha : a.toNat < sp.toNat) : runAll (ops.map (MemOp.update sp)) mem a = mem a :=
  (ht.fills h).frame (hops.map (MemOp.update sp)) mem (Or.inl ha)

/-- Every operation leaves its bytes behind, whatever the order. -/
theorem Transfers.bytes (ht : Transfers es ss ts) (h : CallSlots sp es ss)
    (hops : ops.Perm (ts.filterMap Transfer.mem?)) (mem : Mem 32) {k : Nat} {p : ArgT × Word}
    {x : Slot} {op : MemOp Word} (hp : es[k]? = some p) (hx : ss[k]? = some x)
    (hop : (slotTransfer ss k p.2 x).mem? = some op) {i : Nat}
    (hi : i < (op.update sp).region.size) :
    runAll (ops.map (MemOp.update sp)) mem
        ((op.update sp).region.start + BitVec.ofNat 32 i) = (op.update sp).data mem i := by
  have hmem : op.update sp ∈ (ts.filterMap Transfer.mem?).map (MemOp.update sp) := by
    apply List.mem_map_of_mem
    exact List.mem_filterMap.mpr ⟨_, List.mem_of_getElem? (ht.2 k p x hp hx), hop⟩
  -- aggregates are read below the stack pointer, where nothing is written
  have hreads : (op.update sp).ReadsOutside
      ((ts.filterMap Transfer.mem?).map (MemOp.update sp)) := by
    intro m m' hsame j hj
    apply h.reads hp hx hop hj
    intro hb hj'
    apply hsame
    intro u hu
    exact (ht.fills h).not_contains
      (Or.inl (h.source p (List.mem_of_getElem? hp) hb j hj')) hu
  exact (ht.fills h).bytes (hops.map (MemOp.update sp)) mem hmem hreads hi

/-! ## Registers at callee entry -/

theorem copyToReg_other {regs : RegFile} {p : Reg × ArgNode Word} {n : Fin 32} (h : p.1 ≠ .R n) :
    copyToReg regs p n = regs n := by
  rcases p with ⟨r, arg⟩
  cases r with
  | R m =>
      have hne : n ≠ m := by
        intro heq
        exact h (by rw [heq])
      exact Function.update_of_ne hne _ _
  | NoRegister => rfl
  | CC_FLAG => rfl
  | RD m => rfl
  | RQ m => rfl

theorem copyToRegs_other {ps : List (Reg × ArgNode Word)} {n : Fin 32} (regs : RegFile)
    (h : ∀ p ∈ ps, p.1 ≠ .R n) : copyToRegs ps regs n = regs n := by
  induction ps generalizing regs with
  | nil => rfl
  | cons p ps ih =>
      show copyToRegs ps (copyToReg regs p) n = regs n
      rw [ih _ fun q hq => h q (by simp [hq]), copyToReg_other (h p (by simp))]

theorem copyToRegs_mem {ps : List (Reg × ArgNode Word)} {n : Fin 32} {arg : ArgNode Word}
    (regs : RegFile) (hnodup : ps.Pairwise fun p q => p.1 ≠ q.1) (hmem : (Reg.R n, arg) ∈ ps) :
    copyToRegs ps regs n = arg.eval := by
  induction ps generalizing regs with
  | nil => cases hmem
  | cons p ps ih =>
      show copyToRegs ps (copyToReg regs p) n = arg.eval
      rw [List.pairwise_cons] at hnodup
      rcases List.mem_cons.mp hmem with rfl | hmem
      · rw [copyToRegs_other _ fun q hq => (hnodup.1 q hq).symm]
        exact Function.update_self n arg.eval regs
      · exact ih _ hnodup.2 hmem

theorem CallSlots.argReg_eq (h : CallSlots sp es ss) {k : Nat} {vt : MVT}
    (hx : ss[k]? = some (.reg vt)) :
    ∃ hlt : regsBefore ss k < 4, argReg (regsBefore ss k) = .R ⟨regsBefore ss k, by omega⟩ := by
  have hlt := (List.getElem?_eq_some_iff.mp (regVTs_regsBefore hx)).1
  have hregs := h.regs
  have hnb : nbRegs = 4 := rfl
  exact ⟨by omega, CallConv.argReg_eq (by omega)⟩

theorem slotTransfer_reg {k : Nat} {v : Word} {x : Slot} {p : Reg × ArgNode Word}
    (h : (slotTransfer ss k v x).reg? = some p) :
    ∃ vt, x = .reg vt ∧ p = (argReg (regsBefore ss k), .value v) := by
  cases x with
  | reg vt =>
      cases h
      exact ⟨vt, rfl, rfl⟩
  | stack vt => cases h
  | byVal vt flags => cases h

theorem Transfers.regs_distinct (ht : Transfers es ss ts) (h : CallSlots sp es ss) :
    (ts.filterMap Transfer.reg?).Pairwise fun p q => p.1 ≠ q.1 := by
  rw [List.pairwise_filterMap, List.pairwise_iff_getElem]
  intro j k hj hk hjk p hp q hq
  rcases ht.getElem h hj with ⟨_, x, _, hx, htj⟩
  rcases ht.getElem h hk with ⟨_, y, _, hy, htk⟩
  rw [htj] at hp
  rw [htk] at hq
  rcases slotTransfer_reg hp with ⟨vt, rfl, rfl⟩
  rcases slotTransfer_reg hq with ⟨vt', rfl, rfl⟩
  have hlt := regsBefore_lt hjk hx
  rcases h.argReg_eq hx with ⟨_, hrj⟩
  rcases h.argReg_eq hy with ⟨_, hrk⟩
  show argReg (regsBefore ss j) ≠ argReg (regsBefore ss k)
  rw [hrj, hrk]
  intro heq
  simp only [Reg.R.injEq, Fin.mk.injEq] at heq
  omega

/-- Only `R0` to `R3` are copied to. -/
theorem Transfers.stackPointer_kept (ht : Transfers es ss ts) (h : CallSlots sp es ss)
    (regs : RegFile) : copyToRegs (ts.filterMap Transfer.reg?) regs 30 = regs 30 := by
  apply copyToRegs_other
  intro p hp
  rcases List.mem_filterMap.mp hp with ⟨t, htmem, hreg⟩
  rcases ht.mem h htmem with ⟨k, _, x, _, hx, rfl⟩
  rcases slotTransfer_reg hreg with ⟨vt, rfl, rfl⟩
  rcases h.argReg_eq hx with ⟨_, hr⟩
  show argReg (regsBefore ss k) ≠ .R 30
  rw [hr]
  intro heq
  simp only [Reg.R.injEq, Fin.ext_iff] at heq
  have h30 : ((30 : Fin 32) : Nat) = 30 := rfl
  omega

/-! ## The round trip -/

theorem Transfers.received (ht : Transfers es ss ts) (h : CallSlots sp es ss)
    (hops : ops.Perm (ts.filterMap Transfer.mem?)) (regs : RegFile) (hsp : regs 30 = sp)
    (mem : Mem 32) {k : Nat} {p : ArgT × Word} {x : Slot} (hp : es[k]? = some p)
    (hx : ss[k]? = some x) :
    Received (copyToRegs (ts.filterMap Transfer.reg?) regs)
      (runAll (ops.map (MemOp.update sp)) mem) mem p.1 p.2 (slotInVal ss k x) := by
  have hkind := h.kind k p x hp hx
  have hsp' : copyToRegs (ts.filterMap Transfer.reg?) regs 30 = sp := by
    rw [ht.stackPointer_kept h, hsp]
  unfold Received
  by_cases hb : p.1.flags.isByVal = true
  · rw [if_pos hb] at hkind ⊢
    subst hkind
    refine ⟨_, rfl, ?_⟩
    intro i hi
    rw [hsp']
    exact @Transfers.bytes sp es ss ts ops ht h hops mem k p _ _ hp hx rfl i hi
  · rw [if_neg hb] at hkind ⊢
    rcases hkind with ⟨vt, hscalar, rfl | rfl⟩
    · rcases h.argReg_eq hx with ⟨hlt, hreg⟩
      have hmem : (Reg.R ⟨regsBefore ss k, by omega⟩, ArgNode.value p.2) ∈
          ts.filterMap Transfer.reg? := by
        refine List.mem_filterMap.mpr ⟨_, List.mem_of_getElem? (ht.2 k p _ hp hx), ?_⟩
        rw [slotTransfer, Transfer.reg?, hreg]
      have hclass : (liveInClass vt).lanes = 1 := by
        cases vt <;> simp_all [MVT.isScalar, liveInClass, RegClass.lanes]
      have hval := copyToRegs_mem regs (ht.regs_distinct h) hmem
      have hfin : Fin.ofNat 32 (regsBefore ss k + 0) = ⟨regsBefore ss k, by omega⟩ := by
        apply Fin.ext
        rw [Fin.val_ofNat, Nat.add_zero]
        exact Nat.mod_eq_of_lt (by omega)
      rw [slotInVal, hreg, InVal.eval, hclass]
      show [copyToRegs _ regs (Fin.ofNat 32 (regsBefore ss k + 0))] = [p.2]
      rw [hfin, hval]
      rfl
    · show [loadWord _ (_ + _)] = [p.2]
      rw [hsp']
      congr 1
      apply loadWord_eq_of_bytes
      intro i hi
      exact @Transfers.bytes sp es ss ts ops ht h hops mem k p _ _ hp hx rfl i hi

/-- A call with scalar and aggregate arguments whose stack area fits the address
space, the aggregates lying below the stack pointer. -/
structure Passable (args : List CallArg) (sp : Word) : Prop where
  count : args.length < 2 ^ 32
  fits : sp.toNat + stackSize (callArgs args) < 2 ^ 32
  source : ∀ b, CallArg.byVal b ∈ args → ∀ i < b.size.toNat,
    (b.src + BitVec.ofNat 32 i).toNat < sp.toNat

theorem headVT_scalar {args : List ArgT} (h : ∀ a ∈ args, a.VT.isScalar = true) (k : Nat) :
    (headVT args k).isScalar = true := by
  unfold headVT
  cases ha : args[headPos args k]? with
  | none => rfl
  | some a => exact h a (List.mem_of_getElem? ha)

theorem callArgs_scalar {args : List CallArg} : ∀ a ∈ callArgs args, a.VT.isScalar = true := by
  intro a ha
  rcases List.mem_map.mp ha with ⟨p, hp, rfl⟩
  exact (mem_callEntries hp).2.1

theorem slotAt_callArgs {args : List CallArg} {k : Nat} {a : ArgT}
    (ha : (callArgs args)[k]? = some a) :
    slotAt (callArgs args) k = some (if a.flags.isByVal then .byVal a.VT a.flags
      else if InRegs (callArgs args) k then .reg (headVT (callArgs args) k)
      else .stack (headVT (callArgs args) k)) := by
  unfold slotAt
  rw [ha]
  by_cases hb : a.flags.isByVal = true
  · simp [hb]
  · by_cases hr : InRegs (callArgs args) k
    · simp [hb, hr]
    · simp [hb, hr, headVT_scalar callArgs_scalar k]

theorem slotAt_callArgs_ne_none (args : List CallArg) :
    ∀ i, 0 ≤ i → i < 0 + (callArgs args).length → slotAt (callArgs args) i ≠ none := by
  intro i _ hi
  rw [slotAt_callArgs (List.getElem?_eq_getElem (by omega))]
  simp

def callSlots (args : List CallArg) : List Slot :=
  slotsFrom (slotAt (callArgs args)) (callArgs args).length 0

theorem slots_callArgs {args : List CallArg} (hcount : args.length < 2 ^ 32) :
    slots 0 (argGroups (callArgs args)) = callSlots args :=
  (wellNumbered_callArgs hcount).analyzeArguments_eq.1

theorem stop_callSlots {args : List CallArg} (hcount : args.length < 2 ^ 32) :
    stop 0 (stackRequests (callSlots args)) = stackSize (callArgs args) := by
  rw [← slots_callArgs hcount]
  rfl

theorem length_callSlots (args : List CallArg) :
    (callSlots args).length = (callEntries 0 args).length := by
  rw [callSlots, length_slotsFrom (slotAt_callArgs_ne_none args), callArgs, List.length_map]

theorem callSlots_kind {args : List CallArg} {k : Nat} {p : ArgT × Word} {x : Slot}
    (hp : (callEntries 0 args)[k]? = some p) (hx : (callSlots args)[k]? = some x) :
    if p.1.flags.isByVal then x = .byVal p.1.VT p.1.flags
    else ∃ vt, vt.isScalar = true ∧ (x = .reg vt ∨ x = .stack vt) := by
  have hlt := (List.getElem?_eq_some_iff.mp hx).1
  have ha : (callArgs args)[k]? = some p.1 := by
    rw [callArgs, List.getElem?_map, hp]
    rfl
  rw [callSlots, length_slotsFrom (slotAt_callArgs_ne_none args)] at hlt
  rw [callSlots, slotsFrom_getElem? (slotAt_callArgs_ne_none args) hlt, Nat.zero_add,
    slotAt_callArgs ha, Option.some.injEq] at hx
  by_cases hb : p.1.flags.isByVal = true
  · rw [if_pos hb] at hx ⊢
    exact hx.symm
  · rw [if_neg hb] at hx ⊢
    refine ⟨headVT (callArgs args) k, headVT_scalar callArgs_scalar k, ?_⟩
    by_cases hr : InRegs (callArgs args) k
    · rw [if_pos hr] at hx
      exact Or.inl hx.symm
    · rw [if_neg hr] at hx
      exact Or.inr hx.symm

theorem callSlots_aligned (args : List CallArg) : PowerAligned (callSlots args) := by
  intro vt flags hmem
  rcases List.getElem?_of_mem hmem with ⟨k, hx⟩
  have hk := (List.getElem?_eq_some_iff.mp hx).1
  rw [length_callSlots] at hk
  have hp := List.getElem?_eq_getElem hk
  have hkind := callSlots_kind hp hx
  by_cases hb : (callEntries 0 args)[k].1.flags.isByVal = true
  · rw [if_pos hb] at hkind
    cases hkind
    rcases (mem_callEntries (List.getElem_mem hk)).2.2 hb with ⟨b, _, hflags, _⟩
    refine ⟨b.logAlign, ?_⟩
    rw [hflags]
    exact Part.byVal_align .i32 b.size b.logAlign
  · rw [if_neg hb] at hkind
    rcases hkind with ⟨vt', _, heq | heq⟩
    · cases heq
    · cases heq

theorem Passable.callSlots {args : List CallArg} (h : Passable args sp) :
    CallSlots sp (callEntries 0 args) (callSlots args) where
  length := length_callSlots args
  kind := fun _ _ _ hp hx => callSlots_kind hp hx
  aligned := callSlots_aligned args
  regs := by
    rw [← slots_callArgs h.count]
    exact length_regVTs_slots 0 _
  fits := by
    rw [stop_callSlots h.count]
    exact h.fits
  source := by
    intro p hp hb i hi
    rcases (mem_callEntries hp).2.2 hb with ⟨b, hmem, hflags, hsrc⟩
    rw [hsrc]
    apply h.source b hmem i
    rw [hflags] at hi
    exact hi

/-- Both sides of the call, as slots. -/
theorem Passable.lowered {args : List CallArg} (h : Passable args sp) :
    ∃ numBytes ts xs, Transfers (callEntries 0 args) (CallConv.callSlots args) ts ∧
      lowerCall false (callArgs args) (callVals args) =
        some ⟨numBytes, ts.filterMap Transfer.mem?, ts.filterMap Transfer.reg?⟩ ∧
      lowerFormalArguments false (callArgs args) = some ⟨xs, xs.filterMap InVal.object?⟩ ∧
      xs.length = (callEntries 0 args).length ∧
      ∀ (k : Nat) (p : ArgT × Word) (x : Slot), (callEntries 0 args)[k]? = some p →
        (CallConv.callSlots args)[k]? = some x →
          xs[k]? = some (slotInVal (CallConv.callSlots args) k x) := by
  rcases h.callSlots.walks with ⟨ts, xs, hts, hxs, htlen, hxlen, hvalue⟩
  have hrun := (wellNumbered_callArgs h.count).analyzeArguments_eq.2
  have hanalysis : analyzeArguments false (callArgs args) =
      some (CCState.initial.placeAll (CallConv.callSlots args)) := hrun
  have hout : eachLoc (lowerOperand (callArgs args) (callVals args)) 0
      (slotLocs 0 0 0 (CallConv.callSlots args)) = some ts := hts
  have hin : eachLoc (lowerFormal (callArgs args)) 0 (slotLocs 0 0 0 (CallConv.callSlots args)) =
      some xs := hxs
  refine ⟨(CCState.initial.placeAll (CallConv.callSlots args)).getNextStackOffset, ts, xs,
    ⟨htlen, fun k p x hp hx => (hvalue k p x hp hx).1⟩, ?_, ?_, hxlen,
    fun k p x hp hx => (hvalue k p x hp hx).2⟩
  · simp only [lowerCall, hanalysis, bind, Option.bind, locs_placeAll_initial, hout]
  · simp only [lowerFormalArguments, hanalysis, bind, Option.bind, locs_placeAll_initial,
      Bool.false_eq_true, ↓reduceIte, hin]

/-- Argument passing round trip: whatever the order of the memory operations, at
callee entry every incoming value is the operand of its index, and nothing below
the stack pointer has been written. -/
theorem lowerCall_round_trip {args : List CallArg} {regs : RegFile}
    (h : Passable args (regs 30)) (mem : Mem 32) :
    ∃ call formals, lowerCall false (callArgs args) (callVals args) = some call ∧
      lowerFormalArguments false (callArgs args) = some formals ∧
      formals.inVals.length = (callVals args).length ∧
      ∀ ops : List (MemOp Word), ops.Perm call.memOps →
        (∀ (k : Nat) (a : ArgT) (v : Word) (x : InVal), (callArgs args)[k]? = some a →
          (callVals args)[k]? = some v → formals.inVals[k]? = some x →
          Received (copyToRegs call.regsToPass regs)
            (runAll (ops.map (MemOp.update (regs 30))) mem) mem a v x) ∧
        ∀ a : Word, a.toNat < (regs 30).toNat →
          runAll (ops.map (MemOp.update (regs 30))) mem a = mem a := by
  have hslots := h.callSlots
  rcases h.lowered with ⟨numBytes, ts, xs, ht, hcall, hformals, hlen, hvalue⟩
  refine ⟨_, _, hcall, hformals, ?_, ?_⟩
  · rw [callVals, List.length_map, hlen]
  · intro ops hops
    refine ⟨?_, fun a ha => ht.below_unchanged hslots hops mem ha⟩
    intro k a v x ha hv hx
    rw [callArgs, List.getElem?_map] at ha
    rcases Option.map_eq_some_iff.mp ha with ⟨p, hp, rfl⟩
    rw [callVals, List.getElem?_map, hp] at hv
    cases hv
    have hk := (List.getElem?_eq_some_iff.mp hp).1
    have hslot := List.getElem?_eq_getElem (hslots.length ▸ hk)
    have hinval := hvalue k p _ hp hslot
    rw [hx, Option.some.injEq] at hinval
    rw [hinval]
    exact ht.received hslots hops regs rfl mem hp hslot

/-- Five words and an aggregate of three bytes: the last word goes to the stack. -/
def exampleArgs : List CallArg :=
  [.byVal ⟨3, 0, 0x100⟩, .scalars [⟨⟨.i32, MVT.isScalar_i32⟩, 1⟩, ⟨⟨.f32, MVT.isScalar_f32⟩, 2⟩],
    .scalars [⟨⟨.i32, MVT.isScalar_i32⟩, 3⟩],
    .scalars [⟨⟨.i32, MVT.isScalar_i32⟩, 4⟩], .scalars [⟨⟨.i32, MVT.isScalar_i32⟩, 5⟩]]

theorem lowerCall_round_trip_example :
    ∃ call formals, lowerCall false (callArgs exampleArgs) (callVals exampleArgs) = some call ∧
      lowerFormalArguments false (callArgs exampleArgs) = some formals ∧
      formals.inVals.length = 6 := by
  have h : Passable exampleArgs ((fun _ => 0x1000 : RegFile) 30) := by
    refine ⟨by decide, by decide, ?_⟩
    intro b hb i hi
    simp only [exampleArgs, List.mem_cons, CallArg.byVal.injEq, reduceCtorEq, or_false,
      List.not_mem_nil] at hb
    subst hb
    have hi' : i < 3 := hi
    interval_cases i <;> decide
  obtain ⟨call, formals, hcall, hformals, hlen, _⟩ :=
    @lowerCall_round_trip exampleArgs (fun _ => 0x1000) h (fun _ => 0)
  exact ⟨call, formals, hcall, hformals, hlen⟩

end Mandarin.CallConv
