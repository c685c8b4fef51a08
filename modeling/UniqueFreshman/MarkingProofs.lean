import Mathlib.Data.Multiset.AddSub
import Mathlib.Data.Finset.Insert
import Mathlib.Logic.Relation

/-! # Marking — what a search of a graph finds, in any order

    A search marks the nodes of a graph.  It keeps a bag of nodes that are still
    to be looked at: looking at a marked node does nothing, and a node that is not
    marked is marked and its successors go into the bag.  New roots may come at any
    time, and nothing is said about the order in which the bag is worked off, so
    that it can be a stack, a queue, or the work of many threads.

    Whenever the bag is empty, the marked nodes are those that can be reached from
    the roots (`Sound.marked_iff`). -/

namespace Marking

variable {V : Type} [DecidableEq V] {succ : V → List V}

/-- The roots so far, the marked nodes, and the nodes to be looked at. -/
structure State (V : Type) where
  roots : List V
  marked : Finset V
  pending : Multiset V

/-- Nothing was asked for. -/
def State.fresh : State V := ⟨[], ∅, 0⟩

inductive Step (succ : V → List V) (s : State V) : State V → Prop where
  | call (v : V) : Step succ s { s with roots := v :: s.roots, pending := v ::ₘ s.pending }
  | skip {v : V} (hpending : v ∈ s.pending) (hmarked : v ∈ s.marked) :
      Step succ s { s with pending := s.pending.erase v }
  | mark {v : V} (hpending : v ∈ s.pending) (hmarked : v ∉ s.marked) :
      Step succ s { s with
        marked := insert v s.marked
        pending := s.pending.erase v + (succ v : Multiset V) }

/-- `v` can be reached from `r`. -/
def Leads (succ : V → List V) : V → V → Prop := Relation.ReflTransGen fun a b => b ∈ succ a

/-- `v` can be reached from one of the roots. -/
def State.Reached (succ : V → List V) (s : State V) (v : V) : Prop :=
  ∃ r ∈ s.roots, Leads succ r v

/-- Only reachable nodes are marked or in the bag, and what is missing is in the bag. -/
structure Sound (succ : V → List V) (s : State V) : Prop where
  marked : ∀ v ∈ s.marked, s.Reached succ v
  pending : ∀ v ∈ s.pending, s.Reached succ v
  roots : ∀ r ∈ s.roots, r ∈ s.marked ∨ r ∈ s.pending
  closed : ∀ v ∈ s.marked, ∀ u ∈ succ v, u ∈ s.marked ∨ u ∈ s.pending

omit [DecidableEq V] in
theorem sound_fresh : Sound succ (State.fresh : State V) := by
  constructor
  · intro v hv
    exact absurd hv (Finset.notMem_empty v)
  · intro v hv
    exact absurd hv (Multiset.notMem_zero v)
  · intro r hr
    exact absurd hr List.not_mem_nil
  · intro v hv
    exact absurd hv (Finset.notMem_empty v)

/-- What was in the bag is still there, unless it is the node looked at. -/
theorem mem_or_erase {v u : V} {marked : Finset V} {pending : Multiset V} (hv : v ∈ marked)
    (h : u ∈ marked ∨ u ∈ pending) : u ∈ marked ∨ u ∈ pending.erase v := by
  by_cases hu : u = v
  · exact .inl (hu ▸ hv)
  · exact h.imp_right (Multiset.mem_erase_of_ne hu).mpr

/-- **ONE STEP** keeps the search sound. -/
theorem Sound.step {s s' : State V} (h : Sound succ s) (hstep : Step succ s s') :
    Sound succ s' := by
  cases hstep with
  | call v =>
      have hreached {u : V} : s.Reached succ u →
          State.Reached succ { s with roots := v :: s.roots, pending := v ::ₘ s.pending } u := by
        rintro ⟨r, hr, hlead⟩
        exact ⟨r, List.mem_cons_of_mem v hr, hlead⟩
      refine ⟨fun u hu => hreached (h.marked u hu), fun u hu => ?_, fun r hr => ?_,
        fun u hu x hx => (h.closed u hu x hx).imp_right (Multiset.mem_cons_of_mem ·)⟩
      · rcases Multiset.mem_cons.mp hu with rfl | hu
        · exact ⟨u, List.mem_cons_self, .refl⟩
        · exact hreached (h.pending u hu)
      · rcases List.mem_cons.mp hr with rfl | hr
        · exact .inr (Multiset.mem_cons_self r s.pending)
        · exact (h.roots r hr).imp_right (Multiset.mem_cons_of_mem ·)
  | @skip v hpending hmarked =>
      exact ⟨h.marked, fun u hu => h.pending u (Multiset.mem_of_mem_erase hu),
        fun r hr => mem_or_erase hmarked (h.roots r hr),
        fun u hu x hx => mem_or_erase hmarked (h.closed u hu x hx)⟩
  | @mark v hpending hmarked =>
      -- the node becomes marked, and all its successors are in the bag
      have hkeep {u : V} (hu : u ∈ s.marked ∨ u ∈ s.pending) :
          u ∈ insert v s.marked ∨ u ∈ s.pending.erase v + (succ v : Multiset V) :=
        (mem_or_erase (Finset.mem_insert_self v s.marked)
          (hu.imp_left (Finset.mem_insert_of_mem ·))).imp_right
          fun hu => Multiset.mem_add.mpr (.inl hu)
      have hv : s.Reached succ v := h.pending v hpending
      refine ⟨fun u hu => ?_, fun u hu => ?_, fun r hr => hkeep (h.roots r hr),
        fun u hu x hx => ?_⟩
      · rcases Finset.mem_insert.mp hu with rfl | hu
        · exact hv
        · exact h.marked u hu
      · rcases Multiset.mem_add.mp hu with hu | hu
        · exact h.pending u (Multiset.mem_of_mem_erase hu)
        · obtain ⟨r, hr, hlead⟩ := hv
          exact ⟨r, hr, hlead.tail (Multiset.mem_coe.mp hu)⟩
      · rcases Finset.mem_insert.mp hu with rfl | hu
        · exact .inr (Multiset.mem_add.mpr (.inr (Multiset.mem_coe.mpr hx)))
        · exact hkeep (h.closed u hu x hx)

omit [DecidableEq V] in
/-- **THE SEARCH IS COMPLETE** when nothing is left to be looked at. -/
theorem Sound.marked_iff {s : State V} (h : Sound succ s) (hidle : s.pending = 0) (v : V) :
    v ∈ s.marked ↔ s.Reached succ v := by
  refine ⟨h.marked v, ?_⟩
  have hdone {u : V} (hu : u ∈ s.marked ∨ u ∈ s.pending) : u ∈ s.marked := by
    rw [hidle] at hu
    exact hu.resolve_right (Multiset.notMem_zero u)
  rintro ⟨r, hr, hlead⟩
  -- along the way from the root
  induction hlead with
  | refl => exact hdone (h.roots r hr)
  | tail _ hu ih => exact hdone (h.closed _ ih _ hu)

end Marking
