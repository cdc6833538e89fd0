import Mandarin.Isel.Lowering
import Mandarin.Lib.KnownBits

/-! # Known bits of selects

The search for known bits goes through a select into both operands, one level deeper
each time, and gives up at a depth. What it finds is what all nodes it ends at agree on.
-/

namespace Mandarin.Isel

open KnownBits
open Branch (CondCodes)

variable {F : Type} {vt : CmpVT}

/-- The lowered selects of a DAG, and what is known of any other node when so many levels
are left. -/
structure SelectDag (F : Type) (vt : CmpVT) where
  select : Nat → Option (SelectCC F vt Nat)
  other : Nat → Nat → KnownBits 32

/-- `mask` finds what is known one level deeper. -/
def computeMaskedBitsForTargetNode (mask : Nat → KnownBits 32) (Op : SelectCC F vt Nat) :
    KnownBits 32 := (mask Op.FalseVal).meet (mask Op.TrueVal)

/-- Nothing is known of what lies too deep. -/
def ComputeMaskedBits (D : SelectDag F vt) : (left i : Nat) → KnownBits 32
  | 0, _ => unknown
  | left + 1, i =>
      match D.select i with
      | some Op => computeMaskedBitsForTargetNode (ComputeMaskedBits D left) Op
      | none => D.other (left + 1) i

/-! ## Where the search ends -/

/-- From node `i` the search comes to node `j`, with `left'` levels left. -/
inductive Reaches (D : SelectDag F vt) : (left i left' j : Nat) → Prop where
  | refl {left i : Nat} : Reaches D left i left i
  | FalseVal {left i left' j : Nat} {Op : SelectCC F vt Nat} (h : D.select i = some Op)
      (rest : Reaches D left Op.FalseVal left' j) : Reaches D (left + 1) i left' j
  | TrueVal {left i left' j : Nat} {Op : SelectCC F vt Nat} (h : D.select i = some Op)
      (rest : Reaches D left Op.TrueVal left' j) : Reaches D (left + 1) i left' j

def Ends (D : SelectDag F vt) (left j : Nat) : Prop := left = 0 ∨ D.select j = none

def endBits (D : SelectDag F vt) : (left j : Nat) → KnownBits 32
  | 0, _ => unknown
  | left + 1, j => D.other (left + 1) j

theorem computeMaskedBits_end {D : SelectDag F vt} {left j : Nat} (h : Ends D left j) :
    ComputeMaskedBits D left j = endBits D left j := by
  cases left with
  | zero => rfl
  | succ left =>
      rcases h with h | h
      · cases h
      · unfold ComputeMaskedBits
        rw [h]
        rfl

theorem computeMaskedBits_select {D : SelectDag F vt} {left i : Nat} {Op : SelectCC F vt Nat}
    (h : D.select i = some Op) : ComputeMaskedBits D (left + 1) i =
      (ComputeMaskedBits D left Op.FalseVal).meet (ComputeMaskedBits D left Op.TrueVal) := by
  rw [ComputeMaskedBits, h]
  rfl

theorem Reaches.of_end {D : SelectDag F vt} {left i left' j : Nat} (hend : Ends D left i)
    (h : Reaches D left i left' j) : left' = left ∧ j = i := by
  cases h with
  | refl => exact ⟨rfl, rfl⟩
  | FalseVal h _ =>
      rcases hend with hend | hend
      · cases hend
      · rw [h] at hend
        cases hend
  | TrueVal h _ =>
      rcases hend with hend | hend
      · cases hend
      · rw [h] at hend
        cases hend

/-- A bit is known exactly if it is known wherever the search ends. -/
theorem computeMaskedBits_knows (D : SelectDag F vt) (k : Nat) (b : Bool) (left i : Nat) :
    (ComputeMaskedBits D left i).Knows k b ↔
      ∀ left' j, Reaches D left i left' j → Ends D left' j → (endBits D left' j).Knows k b := by
  induction left generalizing i with
  | zero =>
      have hend : Ends D 0 i := .inl rfl
      rw [computeMaskedBits_end hend]
      constructor
      · intro h left' j hreach _
        rcases hreach.of_end hend with ⟨rfl, rfl⟩
        exact h
      · exact fun h => h 0 i .refl hend
  | succ left ih =>
      cases hsel : D.select i with
      | none =>
          have hend : Ends D (left + 1) i := .inr hsel
          rw [computeMaskedBits_end hend]
          constructor
          · intro h left' j hreach _
            rcases hreach.of_end hend with ⟨rfl, rfl⟩
            exact h
          · exact fun h => h (left + 1) i .refl hend
      | some Op =>
          rw [computeMaskedBits_select hsel, knows_meet, ih, ih]
          constructor
          · rintro ⟨hfalse, htrue⟩ left' j hreach hend
            cases hreach with
            | refl =>
                rcases hend with hend | hend
                · cases hend
                · rw [hsel] at hend
                  cases hend
            | FalseVal h rest =>
                rw [hsel] at h
                cases h
                exact hfalse left' j rest hend
            | TrueVal h rest =>
                rw [hsel] at h
                cases h
                exact htrue left' j rest hend
          · intro h
            exact ⟨fun left' j rest => h left' j (.FalseVal hsel rest),
              fun left' j rest => h left' j (.TrueVal hsel rest)⟩

/-! ## What is found -/

def Selects (D : SelectDag F vt) (vals : Nat → Word) : Prop :=
  ∀ i Op, D.select i = some Op → ∃ unordered flag, vals i = vals (Op.value unordered flag)

theorem computeMaskedBits_describes {D : SelectDag F vt} {vals : Nat → Word}
    (hselects : Selects D vals)
    (hother : ∀ left j, D.select j = none → (D.other left j).Describes (vals j)) (left i : Nat) :
    (ComputeMaskedBits D left i).Describes (vals i) := by
  induction left generalizing i with
  | zero => exact unknown_describes _
  | succ left ih =>
      cases hsel : D.select i with
      | none =>
          rw [computeMaskedBits_end (.inr hsel)]
          exact hother (left + 1) i hsel
      | some Op =>
          rcases hselects i Op hsel with ⟨unordered, flag, hval⟩
          rw [computeMaskedBits_select hsel, hval]
          unfold SelectCC.value
          split
          · exact (ih Op.TrueVal).meet_right _
          · exact (ih Op.FalseVal).meet_left _

/-- The search is sound and as good as it can be: every bit it finds is one of the value,
and it finds exactly the bits that are the same in all values that the nodes it ends at
may have, nothing if it is cut off anywhere. -/
theorem computeMaskedBits_exact {D : SelectDag F vt} {vals : Nat → Word}
    (hselects : Selects D vals)
    (hother : ∀ left j, D.select j = none → (D.other left j).Describes (vals j)) (left i : Nat) :
    (ComputeMaskedBits D left i).Describes (vals i) ∧
      ∀ k < 32, ∀ b, (ComputeMaskedBits D left i).Knows k b ↔
        ∀ left' j, Reaches D left i left' j → Ends D left' j →
          ∀ v, (endBits D left' j).Describes v → v.getLsbD k = b := by
  refine ⟨computeMaskedBits_describes hselects hother left i, ?_⟩
  intro k hk b
  rw [computeMaskedBits_knows]
  constructor
  · intro h left' j hreach hend v hv
    exact hv k b (h left' j hreach hend)
  · intro h left' j hreach hend
    exact (knows_iff hk).mpr (h left' j hreach hend)

theorem constant_disjoint (c : Word) : ~~~c &&& c = 0#32 := by simp

def constantBits (c : Word) : KnownBits 32 := ⟨~~~c, c, constant_disjoint c⟩

theorem constantBits_describes (c : Word) : (constantBits c).Describes c := by
  intro i b h
  cases b with
  | true => exact h
  | false =>
      have hzero : (~~~c).getLsbD i = true := h
      rw [BitVec.getLsbD_not] at hzero
      simp only [Bool.and_eq_true, Bool.not_eq_true'] at hzero
      exact hzero.2

def fiveOrSeven : SelectDag Unit .i32 where
  select := fun i => if i = 2 then some ⟨0, 1, .COND_EQ, .ICMP (.node 3) (.node 4)⟩ else none
  other := fun _ j => if j = 0 then constantBits 5 else if j = 1 then constantBits 7 else unknown

theorem computeMaskedBits_exact_fiveOrSeven : (ComputeMaskedBits fiveOrSeven 6 2).Describes 5 := by
  have hexact := @computeMaskedBits_exact Unit .i32 fiveOrSeven
    (fun i => if i = 1 then 7 else 5) ?_ ?_ 6 2
  · exact hexact.1
  · intro i Op h
    unfold fiveOrSeven at h
    by_cases hi : i = 2
    · subst hi
      cases h
      exact ⟨fun _ => false, .equal, rfl⟩
    · simp only [hi, if_false] at h
      cases h
  · intro left j _
    unfold fiveOrSeven
    by_cases h0 : j = 0
    · subst h0
      exact constantBits_describes 5
    · by_cases h1 : j = 1
      · subst h1
        exact constantBits_describes 7
      · simp only [h0, h1, if_false]
        exact unknown_describes _

end Mandarin.Isel
