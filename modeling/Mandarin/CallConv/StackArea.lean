import Mandarin.CallConv.Grouping
import Mandarin.CallConv.Locations

/-! # Where each slot ends up

The register slots take the registers in order, the others ask for a block of the
stack area. As long as the whole area fits the address space the recorded
offsets are those of the sequential layout of these requests.
-/

namespace Mandarin.CallConv

open Layout

/-! ## The analysis as a list of slots -/

theorem parseFunctionArgs_of_analyzeArguments {args : List ArgT} {cc : CCState}
    (h : analyzeArguments false args = some cc) : ∃ counts, parseFunctionArgs args = some counts := by
  cases hparse : parseFunctionArgs args with
  | none => simp [analyzeArguments, hparse] at h
  | some counts => exact ⟨counts, rfl⟩

theorem analyzeArguments_eq_placeAll {args : List ArgT} {counts : List Nat}
    (h : parseFunctionArgs args = some counts) (hok : ∀ g ∈ argGroups args, GroupOk g) :
    analyzeArguments false args =
      some (CCState.initial.placeAll (slots 0 (argGroups args))) := by
  obtain ⟨hcounts, hflat, _⟩ := argGroups_spec h
  obtain ⟨s, hrun, hcc⟩ := @foldlM_assignGroup args [] (argGroups args) 0 .initial hflat hok rfl rfl
    (Or.inl ⟨rfl, rfl⟩)
  simp only [analyzeArguments, Bool.false_eq_true, ↓reduceIte, h, bind, Option.bind]
  rw [hcounts, hrun]
  exact congrArg some hcc

/-! ## Register slots and requests -/

def Slot.regVT? : Slot → Option MVT
  | .reg vt => some vt
  | _ => none

def regVTs (ss : List Slot) : List MVT := ss.filterMap Slot.regVT?

/-- The block of the stack area a slot asks for. -/
def Slot.request : Slot → Option Request
  | .byVal _ flags =>
      some ⟨(CCState.atLeast 2 flags.byValSize).toNat, (CCState.atLeast 2 flags.byValAlign).toNat⟩
  | .reg _ => none
  | .stack _ => some ⟨4, 4⟩

def stackRequests (ss : List Slot) : List Request := ss.filterMap Slot.request

def regsBefore (ss : List Slot) (k : Nat) : Nat := (regVTs (ss.take k)).length

/-- Start of the block of slot `k`, which asks for `r`. -/
def slotStart (off : Nat) (ss : List Slot) (k : Nat) (r : Request) : Nat :=
  r.start (stop off (stackRequests (ss.take k)))

/-- Aggregates are aligned to powers of two. -/
def PowerAligned (ss : List Slot) : Prop :=
  ∀ vt flags, Slot.byVal vt flags ∈ ss → ∃ k, flags.byValAlign.toNat = 2 ^ k

@[simp] theorem stackRequests_cons_none {x : Slot} (ss : List Slot) (h : x.request = none) :
    stackRequests (x :: ss) = stackRequests ss := by
  simp [stackRequests, h]

@[simp] theorem stackRequests_cons_some {x : Slot} {r : Request} (ss : List Slot)
    (h : x.request = some r) : stackRequests (x :: ss) = r :: stackRequests ss := by
  simp [stackRequests, h]

theorem stackRequests_append (ss ts : List Slot) :
    stackRequests (ss ++ ts) = stackRequests ss ++ stackRequests ts := List.filterMap_append

theorem regVTs_append (ss ts : List Slot) : regVTs (ss ++ ts) = regVTs ss ++ regVTs ts :=
  List.filterMap_append

theorem regVTs_replicate (n : Nat) (vt : MVT) :
    regVTs (List.replicate n (.reg vt)) = List.replicate n vt := by
  unfold regVTs
  rw [List.filterMap_replicate]
  rfl

theorem regVTs_replicate_stack (n : Nat) (vt : MVT) :
    regVTs (List.replicate n (.stack vt)) = [] := by
  unfold regVTs
  rw [List.filterMap_replicate]
  rfl

theorem regsBefore_cons (x : Slot) (ss : List Slot) (k : Nat) :
    regsBefore (x :: ss) (k + 1) = regsBefore ss k + (regVTs [x]).length := by
  unfold regsBefore
  rw [List.take_succ_cons, show x :: ss.take k = [x] ++ ss.take k from rfl, regVTs_append,
    List.length_append, Nat.add_comm]

theorem two_le_atLeast (a : Word) : 2 ≤ (CCState.atLeast 2 a).toNat := by
  unfold CCState.atLeast
  by_cases h : a < 2
  · rw [if_pos h]
    decide
  · rw [if_neg h]
    exact Nat.le_of_not_lt h

theorem toNat_atLeast_two (a : Word) : (CCState.atLeast 2 a).toNat = max a.toNat 2 := by
  unfold CCState.atLeast
  by_cases h : a < 2
  · rw [if_pos h]
    exact (Nat.max_eq_right (Nat.le_of_lt h)).symm
  · rw [if_neg h]
    exact (Nat.max_eq_left (Nat.le_of_not_lt h)).symm

theorem atLeast_two_pow {a : Word} {k : Nat} (h : a.toNat = 2 ^ k) :
    ∃ j, (CCState.atLeast 2 a).toNat = 2 ^ j := by
  unfold CCState.atLeast
  split
  · exact ⟨1, rfl⟩
  · exact ⟨k, h⟩

theorem le_atLeast (a : Word) : a.toNat ≤ (CCState.atLeast 2 a).toNat := by
  unfold CCState.atLeast
  by_cases h : a < 2
  · rw [if_pos h]
    exact Nat.le_of_lt h
  · rw [if_neg h]

theorem request_align_pos {x : Slot} {r : Request} (h : x.request = some r) : 0 < r.align := by
  cases x with
  | byVal vt flags =>
      have ha := two_le_atLeast flags.byValAlign
      simp only [Slot.request, Option.some.injEq] at h
      rw [← h]
      show 0 < (CCState.atLeast 2 flags.byValAlign).toNat
      omega
  | reg vt => simp [Slot.request] at h
  | stack vt =>
      simp only [Slot.request, Option.some.injEq] at h
      rw [← h]
      exact (by decide : 0 < 4)

theorem aligned_stackRequests (ss : List Slot) : Aligned (stackRequests ss) := by
  intro r hr
  obtain ⟨x, _, hx⟩ := List.mem_filterMap.mp hr
  exact request_align_pos hx

/-- One allocation of the analysis is one step of the layout. -/
theorem allocate_toNat {off size align : Word} {k : Nat} (hk : align.toNat = 2 ^ k)
    (hfit : (Request.mk size.toNat align.toNat).stop off.toNat < 2 ^ 32) :
    (alignUp off align).toNat = (Request.mk size.toNat align.toNat).start off.toNat ∧
      (alignUp off align + size).toNat = (Request.mk size.toNat align.toNat).stop off.toNat := by
  unfold Request.stop at hfit ⊢
  unfold Request.start at hfit ⊢
  have hup : (alignUp off align).toNat = roundUp off.toNat align.toNat :=
    toNat_alignUp hk off (Nat.lt_of_le_of_lt (Nat.le_add_right _ _) hfit)
  refine ⟨hup, ?_⟩
  rw [BitVec.toNat_add, hup, Nat.mod_eq_of_lt hfit]

theorem slotLocs_reg {n v k : Nat} {off : Word} {ss : List Slot} {vt : MVT}
    (hx : ss[k]? = some (.reg vt)) :
    (slotLocs n v off ss)[k]? =
      some (.getReg (v + k) vt (argReg (n + regsBefore ss k)) vt .Full) := by
  induction ss generalizing n v off k with
  | nil => simp at hx
  | cons y ss ih =>
      cases k with
      | zero =>
          simp only [List.getElem?_cons_zero, Option.some.injEq] at hx
          subst hx
          rfl
      | succ k =>
          rw [List.getElem?_cons_succ] at hx
          have hv : v + 1 + k = v + (k + 1) := by omega
          rw [regsBefore_cons]
          cases y with
          | byVal w flags =>
              simp only [slotLocs, List.getElem?_cons_succ, ih hx, hv]
              rfl
          | reg w =>
              simp only [slotLocs, List.getElem?_cons_succ, ih hx, hv]
              rw [show n + 1 + regsBefore ss k = n + (regsBefore ss k + 1) by omega]
              rfl
          | stack w =>
              simp only [slotLocs, List.getElem?_cons_succ, ih hx, hv]
              rfl

/-- A slot that asks for a block gets the next one of the layout, and the offset
moves to the block's end. -/
theorem slotLocs_cons_request {y : Slot} {q : Request} (hq : y.request = some q) {off : Word}
    (hpower : ∀ vt flags, y = .byVal vt flags → ∃ k, flags.byValAlign.toNat = 2 ^ k)
    (hstop : q.stop off.toNat < 2 ^ 32) (n v : Nat) (ss : List Slot) :
    ∃ next : Word, next.toNat = q.stop off.toNat ∧ slotLocs n v off (y :: ss) =
      .getMem v y.VT (BitVec.ofNat 32 (q.start off.toNat)) y.VT .Full ::
        slotLocs n (v + 1) next ss := by
  cases y with
  | byVal vt flags =>
      rcases hpower vt flags rfl with ⟨j, hj⟩
      rcases atLeast_two_pow hj with ⟨i, hi⟩
      simp only [Slot.request, Option.some.injEq] at hq
      subst hq
      obtain ⟨hstart, hend⟩ := allocate_toNat hi hstop
      refine ⟨_, hend, ?_⟩
      rw [← hstart, BitVec.ofNat_toNat, BitVec.setWidth_eq]
      rfl
  | reg vt => simp [Slot.request] at hq
  | stack vt =>
      simp only [Slot.request, Option.some.injEq] at hq
      subst hq
      obtain ⟨hstart, hend⟩ := @allocate_toNat off 4 4 2 rfl hstop
      refine ⟨_, hend, ?_⟩
      show _ = CCValAssign.getMem v vt (BitVec.ofNat 32
        ((Request.mk (4 : Word).toNat (4 : Word).toNat).start off.toNat)) vt .Full :: _
      rw [← hstart, BitVec.ofNat_toNat, BitVec.setWidth_eq]
      rfl

theorem slotLocs_mem {n v k : Nat} {off : Word} {ss : List Slot} {x : Slot} {r : Request}
    (hp : PowerAligned ss) (hfit : stop off.toNat (stackRequests ss) < 2 ^ 32)
    (hx : ss[k]? = some x) (hr : x.request = some r) :
    (slotLocs n v off ss)[k]? =
      some (.getMem (v + k) x.VT (BitVec.ofNat 32 (slotStart off.toNat ss k r)) x.VT .Full) := by
  induction ss generalizing n v off k with
  | nil => simp at hx
  | cons y ss ih =>
      have hp' : PowerAligned ss := fun vt flags hm => hp vt flags (by simp [hm])
      have hpower : ∀ vt flags, y = .byVal vt flags → ∃ k, flags.byValAlign.toNat = 2 ^ k :=
        fun vt flags hy => hp vt flags (by simp [hy])
      have hstop : ∀ q, y.request = some q → q.stop off.toNat < 2 ^ 32 := by
        intro q hq
        have hle := le_stop (q.stop off.toNat) (aligned_stackRequests ss)
        rw [stackRequests_cons_some ss hq] at hfit
        exact Nat.lt_of_le_of_lt hle hfit
      cases k with
      | zero =>
          simp only [List.getElem?_cons_zero, Option.some.injEq] at hx
          subst hx
          rcases slotLocs_cons_request hr hpower (hstop r hr) n v ss with ⟨next, _, hlocs⟩
          rw [hlocs, List.getElem?_cons_zero]
          rfl
      | succ k =>
          rw [List.getElem?_cons_succ] at hx
          have hv : v + 1 + k = v + (k + 1) := by omega
          cases hq : y.request with
          | none =>
              cases y with
              | reg vt =>
                  rw [stackRequests_cons_none ss hq] at hfit
                  simp only [slotLocs, List.getElem?_cons_succ]
                  rw [ih hp' hfit hx, hv]
                  simp only [slotStart, List.take_succ_cons, stackRequests_cons_none _ hq]
              | byVal vt flags => simp [Slot.request] at hq
              | stack vt => simp [Slot.request] at hq
          | some q =>
              rcases slotLocs_cons_request hq hpower (hstop q hq) n v ss with ⟨next, hnext, hlocs⟩
              rw [stackRequests_cons_some ss hq, stop, ← hnext] at hfit
              rw [hlocs, List.getElem?_cons_succ, ih hp' hfit hx, hv, hnext]
              simp only [slotStart, List.take_succ_cons, stackRequests_cons_some _ hq, stop]

/-- The stack area of the analysis ends where the layout of the requests does. -/
theorem stackOffset_placeAll {st : CCState} {ss : List Slot} (hp : PowerAligned ss)
    (hfit : stop st.stackOffset.toNat (stackRequests ss) < 2 ^ 32) :
    (st.placeAll ss).stackOffset.toNat = stop st.stackOffset.toNat (stackRequests ss) := by
  induction ss generalizing st with
  | nil => rfl
  | cons x ss ih =>
      have hp' : PowerAligned ss := fun vt flags hm => hp vt flags (List.mem_cons_of_mem _ hm)
      have hplace : ∀ {r : Request} {size align : Word} {k : Nat}, x.request = some r →
          r = ⟨size.toNat, align.toNat⟩ → align.toNat = 2 ^ k →
          (st.place x).stackOffset = alignUp st.stackOffset align + size →
          ((st.place x).placeAll ss).stackOffset.toNat =
            stop st.stackOffset.toNat (stackRequests (x :: ss)) := by
        intro r size align k hr hreq hk hoff
        rw [stackRequests_cons_some ss hr, stop, hreq] at hfit ⊢
        have hle := le_stop ((Request.mk size.toNat align.toNat).stop st.stackOffset.toNat)
          (aligned_stackRequests ss)
        obtain ⟨_, hend⟩ := allocate_toNat hk (Nat.lt_of_le_of_lt hle hfit)
        rw [← hend, ← hoff] at hfit ⊢
        exact ih hp' hfit
      cases x with
      | byVal vt flags =>
          obtain ⟨j, hj⟩ := hp vt flags List.mem_cons_self
          obtain ⟨k, hk⟩ := atLeast_two_pow hj
          exact hplace rfl rfl hk rfl
      | reg vt =>
          have hkeep : (st.place (.reg vt)).stackOffset = st.stackOffset := by simp [CCState.place]
          rw [stackRequests_cons_none ss rfl, ← hkeep] at hfit ⊢
          exact ih hp' hfit
      | stack vt => exact @hplace ⟨4, 4⟩ 4 4 2 rfl rfl rfl rfl

/-! ## Registers -/

theorem eq_take_append {α : Type} {l : List α} {i : Nat} {x : α} (h : l[i]? = some x) :
    l = l.take i ++ x :: l.drop (i + 1) := by
  obtain ⟨hlt, rfl⟩ := List.getElem?_eq_some_iff.mp h
  rw [← List.drop_eq_getElem_cons hlt, List.take_append_drop]

theorem regVTs_regsBefore {ss : List Slot} {k : Nat} {vt : MVT} (h : ss[k]? = some (.reg vt)) :
    (regVTs ss)[regsBefore ss k]? = some vt := by
  have hsplit : regVTs ss = regVTs (ss.take k) ++ vt :: regVTs (ss.drop (k + 1)) := by
    conv_lhs => rw [eq_take_append h]
    rw [regVTs_append]
    rfl
  rw [hsplit]
  unfold regsBefore
  rw [List.getElem?_append_right (Nat.le_refl _), Nat.sub_self, List.getElem?_cons_zero]

theorem exists_slot_of_regVTs {ss : List Slot} {n : Nat} {vt : MVT} (h : (regVTs ss)[n]? = some vt) :
    ∃ k, ss[k]? = some (.reg vt) ∧ regsBefore ss k = n := by
  induction ss generalizing n with
  | nil => simp [regVTs] at h
  | cons x ss ih =>
      cases hx : x.regVT? with
      | none =>
          have hlen : (regVTs [x]).length = 0 := by simp [regVTs, hx]
          have hrest : (regVTs ss)[n]? = some vt := by simpa [regVTs, hx] using h
          obtain ⟨k, hk, hn⟩ := ih hrest
          exact ⟨k + 1, hk, by rw [regsBefore_cons, hlen, hn, Nat.add_zero]⟩
      | some w =>
          have hlen : (regVTs [x]).length = 1 := by simp [regVTs, hx]
          have hreg : x = .reg w := by cases x <;> simp_all [Slot.regVT?]
          have hcons : regVTs (x :: ss) = w :: regVTs ss := by simp [regVTs, hx]
          rw [hcons] at h
          cases n with
          | zero =>
              simp only [List.getElem?_cons_zero, Option.some.injEq] at h
              subst h
              exact ⟨0, by rw [hreg]; rfl, rfl⟩
          | succ n =>
              obtain ⟨k, hk, hn⟩ := ih h
              exact ⟨k + 1, hk, by rw [regsBefore_cons, hlen, hn]⟩

theorem regsBefore_lt {ss : List Slot} {j k : Nat} {vt : MVT} (hjk : j < k)
    (h : ss[j]? = some (.reg vt)) : regsBefore ss j < regsBefore ss k := by
  have hj : (ss.take k)[j]? = some (.reg vt) := by rw [List.getElem?_take_of_lt hjk, h]
  have hget := regVTs_regsBefore hj
  have hlt := (List.getElem?_eq_some_iff.mp hget).1
  have htake : regsBefore (ss.take k) j = regsBefore ss j := by
    unfold regsBefore
    rw [List.take_take, Nat.min_eq_left (Nat.le_of_lt hjk)]
  rw [htake] at hlt
  exact hlt

/-- No more registers are handed out than there are. -/
theorem length_regVTs_slots (before : Nat) (gs : List (List ArgT)) :
    (regVTs (slots before gs)).length ≤ nbRegs - before := by
  induction gs generalizing before with
  | nil => exact Nat.zero_le _
  | cons g gs ih =>
      cases g with
      | nil => exact ih before
      | cons a g =>
          rw [slots]
          split
          · exact Nat.zero_le _
          · have hrest := ih (before + candidates a (g.length + 1))
            rw [regVTs_append, List.length_append]
            unfold groupSlots
            unfold candidates at hrest ⊢
            by_cases hb : a.flags.isByVal = true
            · rw [if_pos hb, if_pos hb, Nat.add_zero]
              rw [if_pos hb, Nat.add_zero] at hrest
              show 0 + _ ≤ _
              omega
            · rw [if_neg hb, if_neg hb]
              rw [if_neg hb] at hrest
              by_cases hfit : before + (g.length + 1) ≤ nbRegs
              · rw [if_pos (decide_eq_true hfit), regVTs_replicate, List.length_replicate]
                omega
              · rw [if_neg (by simpa using hfit)]
                have hnone : (regVTs (if a.VT.isScalar = true then
                    List.replicate (g.length + 1) (.stack a.VT) else [])).length = 0 := by
                  split
                  · rw [regVTs_replicate_stack]
                    rfl
                  · rfl
                omega

def CCValAssign.reg? (l : CCValAssign) : Option Reg :=
  match l.loc with
  | .reg r => some r
  | .mem _ => none

/-- Locations depend on the slots in front of them only. -/
theorem take_slotLocs (n v m : Nat) (off : Word) (ss : List Slot) :
    (slotLocs n v off ss).take m = slotLocs n v off (ss.take m) := by
  induction ss generalizing n v m off with
  | nil => simp [slotLocs]
  | cons x ss ih =>
      cases m with
      | zero => simp [slotLocs]
      | succ m => cases x <;> simp [slotLocs, ih]

/-- The registers are handed out in order without gaps. -/
theorem regs_slotLocs (n v : Nat) (off : Word) (ss : List Slot) :
    (slotLocs n v off ss).filterMap CCValAssign.reg? =
      (List.range' n (regVTs ss).length).map argReg := by
  induction ss generalizing n v off with
  | nil => rfl
  | cons x ss ih =>
      cases x with
      | byVal vt flags => exact ih n (v + 1) _
      | stack vt => exact ih n (v + 1) _
      | reg vt =>
          have hlen : (regVTs (.reg vt :: ss)).length = (regVTs ss).length + 1 := rfl
          rw [hlen, List.range'_succ, List.map_cons, ← ih (n + 1) (v + 1) off]
          rfl

/-! ## Separation -/

theorem stop_stackRequests_of_getElem? {off i : Nat} {ss : List Slot} {x : Slot} {r : Request}
    (hx : ss[i]? = some x) (hr : x.request = some r) :
    stop off (stackRequests ss) =
      stop (slotStart off ss i r + r.size) (stackRequests (ss.drop (i + 1))) := by
  have hsplit : stackRequests ss =
      stackRequests (ss.take i) ++ r :: stackRequests (ss.drop (i + 1)) := by
    conv_lhs => rw [eq_take_append hx]
    rw [stackRequests_append, stackRequests_cons_some _ hr]
  rw [hsplit, stop_append]
  rfl

theorem slotStart_le_stop {off i : Nat} {ss : List Slot} {x : Slot} {r : Request}
    (hx : ss[i]? = some x) (hr : x.request = some r) :
    slotStart off ss i r + r.size ≤ stop off (stackRequests ss) := by
  rw [stop_stackRequests_of_getElem? hx hr]
  exact le_stop _ (aligned_stackRequests _)

theorem slotStart_ordered {off i j : Nat} {ss : List Slot} {x y : Slot} {r q : Request}
    (hij : i < j) (hx : ss[i]? = some x) (hr : x.request = some r) (hq : y.request = some q) :
    slotStart off ss i r + r.size ≤ slotStart off ss j q := by
  have hx' : (ss.take j)[i]? = some x := by rw [List.getElem?_take_of_lt hij, hx]
  have hle := @slotStart_le_stop off i (ss.take j) x r hx' hr
  have htake : (ss.take j).take i = ss.take i := by
    rw [List.take_take, Nat.min_eq_left (Nat.le_of_lt hij)]
  unfold slotStart at hle ⊢
  rw [htake] at hle
  exact Nat.le_trans hle (le_roundUp _ (request_align_pos hq))

end Mandarin.CallConv
