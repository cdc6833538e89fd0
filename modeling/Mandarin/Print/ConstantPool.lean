import Mandarin.Lib.Layout
import Mandarin.Target.Register

/-! # Constant pools

The printer writes the pool of each function into the data section, behind the pools
of the functions before it. It pads every entry to its alignment counting from the
start of the pool, not of the section. The count is a word, and it may wrap; padding
only needs the offset modulo the alignment. An entry is therefore aligned exactly
when its pool starts at a multiple of its alignment.
-/

namespace Mandarin.Print

open Layout

/-! ## Emission -/

/-- The allocation size of an entry's type and its alignment, a power of two. -/
structure MachineConstantPoolEntry where
  allocSize : Nat
  alignment : Word
  power : ∃ k, alignment.toNat = 2 ^ k

structure CPISymbol where
  function : Nat
  index : Nat
  deriving DecidableEq, Repr

/-- What is written into the section: `string byte[size] 0`, or a symbol and the value
of the entry behind it. -/
inductive Chunk where
  | padding (size : Word)
  | constant (symbol : CPISymbol) (CPE : MachineConstantPoolEntry)

def Chunk.size : Chunk → Nat
  | padding size => size.toNat
  | constant _ CPE => CPE.allocSize

/-- The loop of `EmitConstantPool` from entry `i` on. -/
def emitEntries (function : Nat) (Offset : Word) (i : Nat) :
    List MachineConstantPoolEntry → List Chunk
  | [] => []
  | CPE :: CP =>
      let AlignMask := CPE.alignment - 1
      let NewOffset := (Offset + AlignMask) &&& ~~~AlignMask
      (if NewOffset - Offset ≠ 0 then [.padding (NewOffset - Offset)] else []) ++
        .constant ⟨function, i⟩ CPE ::
          emitEntries function (NewOffset + BitVec.ofNat 32 CPE.allocSize) (i + 1) CP

/-- `Offset` starts at 0 for every function. -/
def EmitConstantPool (function : Nat) (CP : List MachineConstantPoolEntry) : List Chunk :=
  if CP.isEmpty then [] else emitEntries function 0 0 CP

def emitFrom (function : Nat) : List (List MachineConstantPoolEntry) → List Chunk
  | [] => []
  | CP :: pools => EmitConstantPool function CP ++ emitFrom (function + 1) pools

def dataSection (pools : List (List MachineConstantPoolEntry)) : List Chunk := emitFrom 0 pools

/-! ## One pool -/

def MachineConstantPoolEntry.request (CPE : MachineConstantPoolEntry) : Request :=
  ⟨CPE.allocSize, CPE.alignment.toNat⟩

/-- The bytes of a pool whose entries lie at multiples of their alignments. -/
def poolSize (CP : List MachineConstantPoolEntry) : Nat :=
  stop 0 (CP.map MachineConstantPoolEntry.request)

/-- The loop behind `p` bytes of the pool, which the word `Offset` counts: its first
round pads to the entry and passes the end of the entry on. -/
theorem emitEntries_cons (function : Nat) {Offset : Word} {p : Nat} (hp : p % 2 ^ 32 = Offset.toNat)
    (i : Nat) (CPE : MachineConstantPoolEntry) (CP : List MachineConstantPoolEntry) :
    ∃ pad next, emitEntries function Offset i (CPE :: CP) =
        pad ++ .constant ⟨function, i⟩ CPE :: emitEntries function next (i + 1) CP ∧
      (∀ c ∈ pad, ∃ size, c = .padding size) ∧
      p + totalSize Chunk.size pad = CPE.request.start p ∧
      CPE.request.stop p % 2 ^ 32 = next.toNat := by
  obtain ⟨k, hk⟩ := CPE.power
  have hpad := toNat_alignUp_sub hk hp
  have hle : p ≤ roundUp p CPE.alignment.toNat :=
    le_roundUp p (by rw [hk]; exact Nat.two_pow_pos k)
  have hup : (alignUp Offset CPE.alignment).toNat = roundUp p CPE.alignment.toNat % 2 ^ 32 := by
    rw [← BitVec.sub_add_cancel (alignUp Offset CPE.alignment) Offset, BitVec.toNat_add, hpad, ← hp,
      Nat.add_mod_mod, Nat.sub_add_cancel hle]
  refine ⟨if alignUp Offset CPE.alignment - Offset ≠ 0 then
      [.padding (alignUp Offset CPE.alignment - Offset)] else [],
    alignUp Offset CPE.alignment + BitVec.ofNat 32 CPE.allocSize, rfl, ?_, ?_, ?_⟩
  · intro c hc
    split at hc
    · exact ⟨_, List.mem_singleton.mp hc⟩
    · cases hc
  · have hsize : totalSize Chunk.size (if alignUp Offset CPE.alignment - Offset ≠ 0 then
        [.padding (alignUp Offset CPE.alignment - Offset)] else []) =
        (alignUp Offset CPE.alignment - Offset).toNat := by
      split
      · exact Nat.add_zero _
      · next h0 =>
        rw [not_not.mp h0]
        rfl
    rw [hsize, hpad]
    exact Nat.add_sub_cancel' hle
  · rw [BitVec.toNat_add, hup, BitVec.toNat_ofNat, ← Nat.add_mod]
    rfl

/-! ## Labels -/

structure Label where
  offset : Nat
  symbol : CPISymbol
  CPE : MachineConstantPoolEntry

def label? : Nat × Chunk → Option Label
  | (offset, .constant symbol CPE) => some ⟨offset, symbol, CPE⟩
  | (_, .padding _) => none

def labels (pos : Nat) (cs : List Chunk) : List Label := (place Chunk.size pos cs).filterMap label?

theorem labels_append (pos : Nat) (cs ds : List Chunk) :
    labels pos (cs ++ ds) = labels pos cs ++ labels (pos + totalSize Chunk.size cs) ds := by
  unfold labels
  rw [place_append, List.filterMap_append]

theorem labels_padding {cs : List Chunk} (h : ∀ c ∈ cs, ∃ size, c = .padding size) (pos : Nat) :
    labels pos cs = [] := by
  induction cs generalizing pos with
  | nil => rfl
  | cons c cs ih =>
      obtain ⟨size, rfl⟩ := h c List.mem_cons_self
      exact ih (fun c hc => h c (List.mem_cons_of_mem _ hc)) _

/-- The labels of a pool that starts at offset `base`, from entry `i` on, `p` bytes of
the pool being written. -/
def poolLabels (function base p i : Nat) : List MachineConstantPoolEntry → List Label
  | [] => []
  | CPE :: CP =>
      ⟨base + CPE.request.start p, ⟨function, i⟩, CPE⟩ ::
        poolLabels function base (CPE.request.stop p) (i + 1) CP

theorem labels_emitEntries (function base : Nat) {Offset : Word} {p : Nat}
    (hp : p % 2 ^ 32 = Offset.toNat) (i : Nat) (CP : List MachineConstantPoolEntry) :
    labels (base + p) (emitEntries function Offset i CP) = poolLabels function base p i CP ∧
      p + totalSize Chunk.size (emitEntries function Offset i CP) =
        stop p (CP.map MachineConstantPoolEntry.request) := by
  induction CP generalizing Offset p i with
  | nil => exact ⟨rfl, rfl⟩
  | cons CPE CP ih =>
      obtain ⟨pad, next, hemit, hpadding, hstart, hnext⟩ := emitEntries_cons function hp i CPE CP
      obtain ⟨hlabels, hstop⟩ := ih hnext (i + 1)
      have hbehind : base + p + totalSize Chunk.size pad + CPE.allocSize =
          base + CPE.request.stop p := by
        unfold Request.stop
        rw [← hstart, Nat.add_assoc base, Nat.add_assoc base]
        rfl
      have hfirst : base + p + totalSize Chunk.size pad = base + CPE.request.start p := by
        rw [← hstart, Nat.add_assoc]
      constructor
      · rw [hemit, labels_append, labels_padding hpadding, poolLabels, ← hlabels, ← hbehind, ← hfirst]
        rfl
      · rw [List.map_cons, stop, ← hstop, hemit]
        unfold Request.stop
        rw [← hstart]
        simp only [totalSize, List.map_append, List.map_cons, List.sum_append, List.sum_cons]
        show p + (_ + (CPE.allocSize + _)) = p + _ + CPE.allocSize + _
        omega

/-- A pool is laid out from offset 0 of its own, wherever it is. -/
theorem labels_EmitConstantPool (function pos : Nat) (CP : List MachineConstantPoolEntry) :
    labels pos (EmitConstantPool function CP) = poolLabels function pos 0 0 CP ∧
      totalSize Chunk.size (EmitConstantPool function CP) = poolSize CP := by
  unfold EmitConstantPool
  cases CP with
  | nil => exact ⟨rfl, rfl⟩
  | cons CPE CP =>
      have hpool := @labels_emitEntries function pos 0 0 rfl 0 (CPE :: CP)
      rw [Nat.add_zero, Nat.zero_add] at hpool
      exact hpool

theorem poolLabels_aligned_iff (function base p i : Nat) (CP : List MachineConstantPoolEntry) :
    (∀ l ∈ poolLabels function base p i CP, l.CPE.alignment.toNat ∣ l.offset) ↔
      ∀ CPE ∈ CP, CPE.alignment.toNat ∣ base := by
  induction CP generalizing p i with
  | nil => exact iff_of_true (fun l hl => by cases hl) fun CPE hCPE => by cases hCPE
  | cons CPE CP ih =>
      have hstart : CPE.alignment.toNat ∣ CPE.request.start p := dvd_roundUp p _
      rw [poolLabels, List.forall_mem_cons, List.forall_mem_cons, ih]
      exact and_congr_left fun _ => (Nat.dvd_add_iff_left hstart).symm

/-! ## All pools -/

def poolStart (pools : List (List MachineConstantPoolEntry)) (function : Nat) : Nat :=
  totalSize poolSize (pools.take function)

theorem labels_emitFrom (function pos : Nat) (CP : List MachineConstantPoolEntry)
    (pools : List (List MachineConstantPoolEntry)) :
    labels pos (emitFrom function (CP :: pools)) =
      poolLabels function pos 0 0 CP ++
        labels (pos + poolSize CP) (emitFrom (function + 1) pools) := by
  obtain ⟨hlabels, hsize⟩ := labels_EmitConstantPool function pos CP
  rw [emitFrom, labels_append, hlabels, hsize]

def StartsAligned (pools : List (List MachineConstantPoolEntry)) : Prop :=
  ∀ (function : Nat) (CP : List MachineConstantPoolEntry), pools[function]? = some CP →
    ∀ CPE ∈ CP, CPE.alignment.toNat ∣ poolStart pools function

theorem emitFrom_aligned_iff (function pos : Nat) (pools : List (List MachineConstantPoolEntry)) :
    (∀ l ∈ labels pos (emitFrom function pools), l.CPE.alignment.toNat ∣ l.offset) ↔
      ∀ (k : Nat) (CP : List MachineConstantPoolEntry), pools[k]? = some CP →
        ∀ CPE ∈ CP, CPE.alignment.toNat ∣ pos + poolStart pools k := by
  induction pools generalizing function pos with
  | nil =>
      apply iff_of_true
      · intro l hl
        cases hl
      · intro k CP hCP
        simp at hCP
  | cons CP pools ih =>
      have hnext : ∀ k, pos + poolStart (CP :: pools) (k + 1) =
          pos + poolSize CP + poolStart pools k := by
        intro k
        simp [poolStart, totalSize, Nat.add_assoc]
      rw [labels_emitFrom, List.forall_mem_append, poolLabels_aligned_iff, ih]
      constructor
      · rintro ⟨hfirst, hrest⟩ k CP' hCP'
        cases k with
        | zero =>
            cases hCP'
            exact hfirst
        | succ k =>
            rw [hnext]
            exact hrest k CP' hCP'
      · intro hall
        constructor
        · exact hall 0 CP rfl
        · intro k CP' hCP'
          have hk := hall (k + 1) CP' hCP'
          rw [hnext] at hk
          exact hk

theorem mem_poolLabels (function base p i : Nat) {CP : List MachineConstantPoolEntry} {j : Nat}
    {CPE : MachineConstantPoolEntry} (h : CP[j]? = some CPE) :
    ∃ offset, ⟨offset, ⟨function, i + j⟩, CPE⟩ ∈ poolLabels function base p i CP := by
  induction CP generalizing p i j with
  | nil => simp at h
  | cons CPE' CP ih =>
      cases j with
      | zero =>
          cases h
          exact ⟨_, List.mem_cons_self⟩
      | succ j =>
          obtain ⟨offset, hmem⟩ := ih (CPE'.request.stop p) (i + 1) h
          rw [Nat.add_right_comm, Nat.add_assoc] at hmem
          exact ⟨offset, List.mem_cons_of_mem _ hmem⟩

theorem mem_labels_emitFrom (function pos : Nat) {pools : List (List MachineConstantPoolEntry)}
    {k : Nat} {CP : List MachineConstantPoolEntry} (hCP : pools[k]? = some CP) {j : Nat}
    {CPE : MachineConstantPoolEntry} (h : CP[j]? = some CPE) :
    ∃ offset, ⟨offset, ⟨function + k, j⟩, CPE⟩ ∈ labels pos (emitFrom function pools) := by
  induction pools generalizing function pos k with
  | nil => simp at hCP
  | cons CP' pools ih =>
      rw [labels_emitFrom]
      cases k with
      | zero =>
          cases hCP
          obtain ⟨offset, hmem⟩ := mem_poolLabels function pos 0 0 h
          rw [Nat.zero_add] at hmem
          exact ⟨offset, List.mem_append_left _ hmem⟩
      | succ k =>
          obtain ⟨offset, hmem⟩ := ih (function + 1) (pos + poolSize CP') hCP
          rw [Nat.add_right_comm, Nat.add_assoc] at hmem
          exact ⟨offset, List.mem_append_right _ hmem⟩

/-! ## The condition -/

/-- Every entry has a label at a multiple of its alignment, and nothing in the section
overlaps. -/
structure PoolsAligned (pools : List (List MachineConstantPoolEntry)) : Prop where
  labelled : ∀ (function i : Nat) (CP : List MachineConstantPoolEntry)
    (CPE : MachineConstantPoolEntry), pools[function]? = some CP → CP[i]? = some CPE →
      ∃ offset, ⟨offset, ⟨function, i⟩, CPE⟩ ∈ labels 0 (dataSection pools)
  aligned : ∀ l ∈ labels 0 (dataSection pools), l.CPE.alignment.toNat ∣ l.offset
  disjoint : (place Chunk.size 0 (dataSection pools)).Pairwise fun p q => p.1 + p.2.size ≤ q.1

/-- Constant pools are aligned in the section exactly when every pool starts at a
multiple of the alignments of its entries. -/
theorem poolsAligned_iff (pools : List (List MachineConstantPoolEntry)) :
    PoolsAligned pools ↔ StartsAligned pools := by
  have haligned := emitFrom_aligned_iff 0 0 pools
  simp only [Nat.zero_add] at haligned
  constructor
  · intro h
    exact haligned.mp h.aligned
  · intro h
    constructor
    · intro function i CP CPE hCP hCPE
      have hmem := mem_labels_emitFrom 0 0 hCP hCPE
      rw [Nat.zero_add] at hmem
      exact hmem
    · exact haligned.mpr h
    · exact pairwise_place Chunk.size 0 _

/-- A byte in the pool of one function, a word in the pool of the next. -/
def byteThenWord : List (List MachineConstantPoolEntry) :=
  [[⟨1, 1, 0, by decide⟩], [⟨4, 4, 2, by decide⟩]]

/-- The word lies at offset 1. -/
theorem byteThenWord_not_aligned : ¬ PoolsAligned byteThenWord := by
  intro h
  have hword := h.aligned ⟨1, ⟨1, 0⟩, ⟨4, 4, 2, by decide⟩⟩ (by
    show _ ∈ [_, _]
    exact List.mem_cons_of_mem _ List.mem_cons_self)
  exact absurd hword (by decide)

end Mandarin.Print
