import Mandarin.Lib.Memory
import Mathlib.Data.List.Chain
import Mathlib.Data.List.Nodup

/-! # Schedules of a dependency graph

The nodes of a graph wait for other nodes, and a node may be glued to one: it then
comes directly behind it. A schedule lists nodes in an order that respects both.
Nodes glued one to the next stand together in every schedule, with nothing in
between. Nodes that update memory may have any others among them, as long as these
keep the memory the updates read and write.
-/

namespace Mandarin.Schedule

open Memory

/-! ## Orders -/

structure Graph (ν : Type) where
  preds : ν → List ν
  glue : ν → Option ν

variable {ν σ : Type} {G : Graph ν} {order : List ν}

/-- Every node of the order comes behind the nodes it waits for, and directly behind
the node it is glued to. -/
structure Scheduled (G : Graph ν) (order : List ν) : Prop where
  nodup : order.Nodup
  after : ∀ (before behind : List ν) (a p : ν), order = before ++ a :: behind → p ∈ G.preds a →
    p ∈ before
  glued : ∀ (before behind : List ν) (a g : ν), order = before ++ a :: behind →
    G.glue a = some g → ∃ front, before = front ++ [g]

/-- Glued nodes stand together. -/
theorem Scheduled.glued_run (h : Scheduled G order) {a : ν} {ns : List ν}
    (hrun : (a :: ns).IsChain fun p n => G.glue n = some p) (hmem : ∀ n ∈ a :: ns, n ∈ order) :
    ∃ before behind, order = before ++ a :: ns ++ behind := by
  induction ns generalizing a with
  | nil =>
      rcases List.append_of_mem (hmem a (by simp)) with ⟨before, behind, heq⟩
      exact ⟨before, behind, by simpa using heq⟩
  | cons b ns ih =>
      rw [List.isChain_cons_cons] at hrun
      rcases ih hrun.2 fun n hn => hmem n (List.mem_cons_of_mem a hn) with ⟨before, behind, heq⟩
      rcases h.glued before (ns ++ behind) b a (by simpa using heq) hrun.1 with ⟨front, hfront⟩
      refine ⟨front, behind, ?_⟩
      rw [heq, hfront, List.append_assoc, List.append_assoc, List.append_assoc]
      rfl

theorem Scheduled.front {rest : List ν} (h : Scheduled G (order ++ rest)) : Scheduled G order where
  nodup := (List.nodup_append.mp h.nodup).1
  after := fun before behind a _ heq hp => h.after before (behind ++ rest) a _ (by simp [heq]) hp
  glued := fun before behind a _ heq hg => h.glued before (behind ++ rest) a _ (by simp [heq]) hg

theorem Scheduled.pred_mem (h : Scheduled G order) {a p : ν} (ha : a ∈ order)
    (hp : p ∈ G.preds a) : p ∈ order := by
  rcases List.append_of_mem ha with ⟨before, behind, heq⟩
  rw [heq]
  exact List.mem_append_left _ (h.after before behind a p heq hp)

theorem Scheduled.mem_behind {before behind : List ν} {a p : ν}
    (h : Scheduled G (before ++ p :: behind)) (ha : a ∈ before ++ p :: behind)
    (hp : p ∈ G.preds a) : a ∈ behind := by
  have hnodup := (List.nodup_append.mp h.nodup).2.2
  have hfresh : p ∉ before := fun hmem => hnodup p hmem p (by simp) rfl
  rw [List.mem_append, List.mem_cons] at ha
  rcases ha with hmem | rfl | hmem
  · exact absurd (h.front.pred_mem hmem hp) hfresh
  · exact absurd (h.after before behind a a rfl hp) hfresh
  · exact hmem

/-- Nodes that only refer to earlier ones can be taken in the order of their numbers. -/
theorem scheduled_range {G : Graph Nat} {n : Nat}
    (h : ∀ k < n, (∀ p ∈ G.preds k, p < k) ∧ ∀ g, G.glue k = some g → g + 1 = k) :
    Scheduled G (List.range n) := by
  have hsplit : ∀ {before behind : List Nat} {a : Nat}, List.range n = before ++ a :: behind →
      a < n ∧ before = List.range a := by
    intro before behind a heq
    have hlt : before.length < n := by
      have hlen := congrArg List.length heq
      rw [List.length_range, List.length_append, List.length_cons] at hlen
      omega
    have hget : (List.range n)[before.length]? = some a := by simp [heq]
    rw [List.getElem?_range hlt, Option.some.injEq] at hget
    have htake : before = (List.range n).take before.length := by simp [heq]
    rw [List.take_range, Nat.min_eq_left (Nat.le_of_lt hlt)] at htake
    exact ⟨hget ▸ hlt, hget ▸ htake⟩
  refine ⟨List.nodup_range, ?_, ?_⟩
  · intro before behind a p heq hp
    rcases hsplit heq with ⟨ha, rfl⟩
    exact List.mem_range.mpr ((h a ha).1 p hp)
  · intro before behind a g heq hg
    rcases hsplit heq with ⟨ha, rfl⟩
    rw [← (h a ha).2 g hg]
    exact ⟨List.range g, List.range_succ⟩

/-! ## Running an order -/

def exec (step : ν → σ → σ) (order : List ν) (s : σ) : σ := order.foldl (fun s n => step n s) s

@[simp] theorem exec_nil (step : ν → σ → σ) (s : σ) : exec step [] s = s := rfl

@[simp] theorem exec_cons (step : ν → σ → σ) (n : ν) (ns : List ν) (s : σ) :
    exec step (n :: ns) s = exec step ns (step n s) := rfl

theorem exec_append (step : ν → σ → σ) (ns ms : List ν) (s : σ) :
    exec step (ns ++ ms) s = exec step ms (exec step ns s) := List.foldl_append ..

theorem exec_inv {step : ν → σ → σ} {I : σ → Prop} {ns : List ν}
    (h : ∀ n ∈ ns, ∀ s, I s → I (step n s)) {s : σ} (hs : I s) : I (exec step ns s) := by
  induction ns generalizing s with
  | nil => exact hs
  | cons n ns ih => exact ih (fun m hm => h m (by simp [hm])) (h n (by simp) s hs)

/-! ## Updates among other nodes -/

variable {w : Nat}

/-- While the invariant `I` holds, a node either runs its update or keeps the memory
of `P`, and the updates stay within `P`. -/
structure Interleaved (P : BitVec w → Prop) (I : σ → Prop) (mem : σ → Mem w) (step : ν → σ → σ)
    (update : ν → Option (Update w)) (ns : List ν) : Prop where
  inv : ∀ n ∈ ns, ∀ s, I s → I (step n s)
  run : ∀ n ∈ ns, ∀ s u, I s → update n = some u → mem (step n s) = u.run (mem s)
  keep : ∀ n ∈ ns, ∀ s, I s → update n = none → ∀ a, P a → mem (step n s) a = mem s a
  writes : ∀ n ∈ ns, ∀ u, update n = some u → ∀ a, u.region.Contains a → P a
  reads : ∀ n ∈ ns, ∀ u, update n = some u → ∀ m m' : Mem w, (∀ a, P a → m a = m' a) →
    ∀ i < u.region.size, u.data m i = u.data m' i

/-- Up to memory outside `P`, the other nodes might have run first. -/
theorem Interleaved.updates {P : BitVec w → Prop} {I : σ → Prop} {mem : σ → Mem w}
    {step : ν → σ → σ} {update : ν → Option (Update w)} {ns : List ν}
    (h : Interleaved P I mem step update ns) {s : σ} (hs : I s) :
    ∃ m, (∀ a, P a → m a = mem s a) ∧
      mem (exec step ns s) = runAll (ns.filterMap update) m := by
  induction ns generalizing s with
  | nil => exact ⟨mem s, fun _ _ => rfl, rfl⟩
  | cons n ns ih =>
      have htail : Interleaved P I mem step update ns :=
        ⟨fun k hk => h.inv k (by simp [hk]), fun k hk => h.run k (by simp [hk]),
          fun k hk => h.keep k (by simp [hk]), fun k hk => h.writes k (by simp [hk]),
          fun k hk => h.reads k (by simp [hk])⟩
      have hn : n ∈ n :: ns := by simp
      rcases ih htail (h.inv n hn s hs) with ⟨m, hm, hrun⟩
      cases hu : update n with
      | none =>
          refine ⟨m, fun a ha => ?_, ?_⟩
          · rw [hm a ha, h.keep n hn s hs hu a ha]
          · rw [exec_cons, hrun, List.filterMap_cons, hu]
      | some u =>
          rw [h.run n hn s u hs hu] at hm
          -- the memory in front of the update: `m` outside its region
          let m' : Mem w := fun a => if u.region.Contains a then mem s a else m a
          have hm' : ∀ a, P a → m' a = mem s a := by
            intro a ha
            by_cases hc : u.region.Contains a
            · exact if_pos hc
            · show (if u.region.Contains a then mem s a else m a) = mem s a
              rw [if_neg hc, hm a ha]
              exact Update.run_of_not_contains u _ hc
          have hsame : u.run m' = m := by
            funext a
            by_cases hc : u.region.Contains a
            · rw [hm a (h.writes n hn u hu a hc), Update.run_of_contains u _ hc,
                Update.run_of_contains u _ hc]
              exact h.reads n hn u hu m' (mem s) hm' _ hc
            · rw [Update.run_of_not_contains u _ hc]
              exact if_neg hc
          refine ⟨m', hm', ?_⟩
          rw [exec_cons, hrun, List.filterMap_cons, hu]
          show _ = runAll (ns.filterMap update) (u.run m')
          rw [hsame]

end Mandarin.Schedule
