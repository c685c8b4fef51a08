import UniqueFreshman.QueueShapeProofs

/-! # The root list of the queue — `min_node` at its left end

    `deleteMinNode`, `maintainMin`, `consolidate` and the last loop of `pop` all
    take `min_node` for the left end of the root list.  `RootList` is what they
    rely on: a doubly linked list with null ends, whose first node is `min_node`
    and has a least value.

    The last loop of `pop` walks to the left end, swaps the node it finds there
    with `min_node`, and makes it `min_node`.  If the two were different nodes,
    the swap would leave the least value in front and `min_node` behind it; they
    are not, since `consolidate` leaves the minimum at the left end. -/

namespace PriorityQueue

open BinomialTree LinkedList CallSequence

variable {T : Type} [LinearOrder T]

/-- The roots from `min_node` on are `roots`. -/
structure RootList (q : Queue T) (roots : List Addr) : Prop where
  nodup : roots.Nodup
  first : q.min_node = roots.head?
  /-- The right links run through the roots, and the last one is null. -/
  row : Trail q.heap.right roots
  /-- `x->right->left == x`. -/
  back : ∀ a ∈ roots, ∀ b, q.heap.right a = some b → q.heap.left b = some a
  leftEnd : ∀ a, q.min_node = some a → q.heap.left a = none
  least : ∀ a, q.min_node = some a → ∃ v, q.heap.value a = some v ∧
    ∀ b ∈ roots, ∃ w, q.heap.value b = some w ∧ v ≤ w

/-- A `pop` of `q` that gets to its last loop has `min_node` at the left end of
    the root list by then: the loop and the swap leave the queue as it is. -/
def LastLoopIdle (q : Queue T) : Prop :=
  ∀ q₁ q₂, q.removeMin = .ok q₁ → q₁.min_node ≠ none → q₁.reroot = .ok q₂ →
    (∃ roots, RootList q₂ roots) ∧ q₂.walkSwap = .ok q₂ ∧ q.pop = .ok q₂

section Rep

variable {M : Multiset T} {q : Queue T} {ts : List (Tree Addr T)}

/-- The roots of a queue, over its links. -/
theorem Rep.rootList (hq : Rep M q ts) : RootList q (ts.map Tree.addr) := by
  have hlinks := hq.rooted.links
  have hvalue {t : Tree Addr T} (ht : t ∈ ts) : q.heap.value t.addr = some t.value :=
    (hq.rooted.stored.body t ht).value
  refine ⟨hlinks.nodup, hq.min_node, hlinks.seg.trail, fun a ha b hb => hlinks.back ha hb,
    fun a ha => ?_, fun a ha => ?_⟩
  · rw [hq.min_node] at ha
    exact hlinks.seg.left_head a ha
  · cases ts with
    | nil =>
        rw [hq.min_node] at ha
        cases ha
    | cons t us =>
        obtain rfl : t.addr = a := Option.some.inj (hq.min_node.symm.trans ha)
        refine ⟨t.value, hvalue (List.mem_cons_self ..), fun b hb => ?_⟩
        obtain ⟨u, hu, rfl⟩ := List.mem_map.mp hb
        -- the value of a root is one of the elements
        have hmem : u.value ∈ M := hq.values ▸ mem_contents.mpr
          ⟨u, hu, Multiset.mem_cons_self ..⟩
        exact ⟨u.value, hvalue hu, hq.first t rfl u.value hmem⟩

/-- The first part of a `pop` leaves the trees of the remaining values. -/
theorem Rep.of_removeMin (hq : Rep M q ts) (hcount : M.card < 2 ^ 64) (hfits : Fits ts)
    {q₁ : Queue T} (hremove : q.removeMin = .ok q₁) :
    ∃ M₁ ts₁, M₁.card < 2 ^ 64 ∧ Unordered M₁ q₁ ts₁ ∧ Fits ts₁ := by
  have hM : M ≠ 0 := by
    rintro rfl
    have hzero : q.size_ = 0 := hq.size
    rw [Queue.removeMin, if_pos hzero] at hremove
    cases hremove
  obtain ⟨v, q', ts₁, -, hmem, hremove', hq₁, hfits₁⟩ := hq.removeMin hM hcount hfits
  obtain rfl : q' = q₁ := Except.ok.inj (hremove'.symm.trans hremove)
  have hcard := Multiset.card_erase_add_one hmem
  exact ⟨M.erase v, ts₁, by omega, hq₁, hfits₁⟩

/-- `pop` gets to its last loop with the minimum in front already. -/
theorem Rep.lastLoopIdle (hq : Rep M q ts) (hcount : M.card < 2 ^ 64) (hfits : Fits ts) :
    LastLoopIdle q := by
  intro q₁ q₂ hremove hroot hreroot
  obtain ⟨M₁, ts₁, hcount₁, hq₁, hfits₁⟩ := hq.of_removeMin hcount hfits hremove
  cases ts₁ with
  | nil => exact absurd hq₁.min_node hroot
  | cons t ts₁ =>
      rcases hq₁.reroot hcount₁ hfits₁ with ⟨q'', hreroot', r, rs, hq₂, -, -⟩ | ⟨herr, -⟩
      · obtain rfl : q'' = q₂ := Except.ok.inj (hreroot'.symm.trans hreroot)
        refine ⟨⟨_, hq₂.rootList⟩, hq₂.walkSwap, ?_⟩
        rw [pop_eq, hremove, ok_bind, if_neg hroot, hreroot, ok_bind, hq₂.walkSwap]
      · cases herr.symm.trans hreroot

end Rep

/-- **THE ROOT LIST.**  After a sequence of calls the roots are a doubly linked
    list with a least one at its left end, at `min_node`, and the last loop of a
    `pop` does not move `min_node`, just when no `pop` of the sequence leaves
    `2 ^ 31` elements or more. -/
theorem root_list_iff_pops_fit (cs : List (Call T)) (hcs : Throughout spec Legal 0 cs) :
    (∃ q answers roots, (Queue.fresh : Queue T).calls cs = .ok (q, answers) ∧
      RootList q roots ∧ LastLoopIdle q) ↔ Throughout spec PopFits 0 cs := by
  constructor
  · rintro ⟨q, answers, roots, hrun, -⟩
    exact throughout_of_run kept_call kept_call_overflow kept_fresh hcs hrun
  · intro hroom
    obtain ⟨q, hrun, ⟨ts, hq, hfits⟩, hcount⟩ :=
      run_refines kept_call kept_fresh (hcs.and hroom)
    exact ⟨q, _, _, hrun, hq.rootList, hq.lastLoopIdle hcount hfits⟩

theorem root_list_of_seven_calls :
    ∃ q answers roots,
      (Queue.fresh : Queue Nat).calls
          [.push 3, .push 1, .push 2, .push 1, .pop, .push 0, .pop] = .ok (q, answers) ∧
        RootList q roots ∧ LastLoopIdle q :=
  (root_list_iff_pops_fit _ (by decide)).mpr (by decide)

/-- `2 ^ 31 + 1` times `push`, and one `pop`. -/
def tooManyElements : List (Call Nat) :=
  List.replicate (2 ^ 31 + 1) (.push 0) ++ [.pop]

/-- **NO ROOT LIST** comes out of it. -/
theorem no_root_list_of_too_many_elements :
    Throughout spec Legal 0 tooManyElements ∧
      ¬ ∃ q answers roots, (Queue.fresh : Queue Nat).calls tooManyElements = .ok (q, answers) ∧
        RootList q roots := by
  obtain ⟨hlegal, hover⟩ := pop_after_pushes (0 : Nat) (n := 2 ^ 31 + 1) (by decide) (by decide)
  refine ⟨hlegal, ?_⟩
  rintro ⟨q, answers, roots, hrun, -⟩
  rw [tooManyElements, hover] at hrun
  cases hrun

end PriorityQueue
