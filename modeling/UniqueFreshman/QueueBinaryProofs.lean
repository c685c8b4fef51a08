import UniqueFreshman.QueueRootsProofs
import Mathlib.Combinatorics.Colex

/-! # Consolidation as binary addition — bounds and bits

    `tree_size` has a slot for each rank that `size_` leaves room for, and a root
    of rank `k` stands for the digit `2 ^ k`.  Two facts about `consolidate`
    follow from that in every state that calls can reach:

    * no index leaves `tree_size`, and a root that takes a carry has a child
      already, as long as every degree is an `int`: up to `2 ^ 31` elements;
    * after a `pop` the degrees of the roots are the powers of two in the binary
      expansion of `size_`, each of them once. -/

namespace PriorityQueue

open BinomialTree LinkedList CallSequence

variable {T : Type} [LinearOrder T] {M : Multiset T} {q : Queue T} {ts : List (Tree Addr T)}

/-! ## Bounds -/

/-- A `pop` of `q` that gets to `consolidate` gets through it: every index is inside of
    `tree_size`, no pointer it follows is null, and every degree is an `int`. -/
def ConsolidatesInBounds (q : Queue T) : Prop :=
  ∀ q₁ h min_node, q.removeMin = .ok q₁ → q₁.min_node ≠ none →
    maintainMin q₁.heap q₁.min_node q₁.min_node = .ok (h, min_node) →
    ∃ r, consolidate h min_node q₁.size_ = .ok r

/-- `consolidate` gets through just where the second part of a `pop` does. -/
theorem consolidate_ok_iff {q₁ : Queue T} {h : Heap T} {min_node : Ptr}
    (hmaintain : maintainMin q₁.heap q₁.min_node q₁.min_node = .ok (h, min_node)) :
    (∃ r, consolidate h min_node q₁.size_ = .ok r) ↔ ∃ q₂, q₁.reroot = .ok q₂ := by
  rw [Queue.reroot, hmaintain, ok_bind]
  show _ ↔ ∃ q₂, (consolidate h min_node q₁.size_ >>= _) = .ok q₂
  constructor
  · rintro ⟨r, hr⟩
    rw [hr, ok_bind]
    exact ⟨_, rfl⟩
  · rintro ⟨q₂, hq₂⟩
    obtain ⟨r, hr, -⟩ := bind_eq_ok.mp hq₂
    exact ⟨r, hr⟩

/-- **IN BOUNDS** just when the `pop` leaves fewer than `2 ^ 31` elements. -/
theorem Rep.consolidatesInBounds_iff (hq : Rep M q ts) (hM : M ≠ 0) (hcount : M.card < 2 ^ 64)
    (hfits : Fits ts) : ConsolidatesInBounds q ↔ PopFits M (.pop : Call T) := by
  obtain ⟨v, q₁, ts₁, -, hmem, hremove, hq₁, hfits₁⟩ := hq.removeMin hM hcount hfits
  have hcard := Multiset.card_erase_add_one hmem
  cases ts₁ with
  | nil =>
      -- the last element: there is nothing to consolidate
      have hnil : (M.erase v).card = 0 := by
        rw [← hq₁.values]
        rfl
      refine iff_of_true (fun q₁' h min_node hremove' hroot => ?_) fun _ => by omega
      obtain rfl : q₁ = q₁' := Except.ok.inj (hremove.symm.trans hremove')
      exact absurd hq₁.min_node hroot
  | cons t ts₁ =>
      have hmin : q₁.min_node = some t.addr := hq₁.min_node
      obtain ⟨h₁, u, us, hmaintain, -⟩ := maintainMin_spec hq₁.rooted
      rw [← hmin] at hmaintain
      have hreroot := hq₁.reroot (by omega) hfits₁
      constructor
      · intro h _
        obtain ⟨q₂, hq₂⟩ := (consolidate_ok_iff hmaintain).mp
          (h q₁ h₁ _ hremove (by rw [hmin]; exact Option.some_ne_none _) hmaintain)
        rcases hreroot with ⟨q₂', -, r, rs, hrep, hnd, hfits₂⟩ | ⟨herror, -⟩
        · have hlt := hfits₂.card_lt hnd
          rw [hrep.values] at hlt
          omega
        · cases herror.symm.trans hq₂
      · intro hroom q₁' h min_node hremove' _ hmaintain'
        obtain rfl : q₁ = q₁' := Except.ok.inj (hremove.symm.trans hremove')
        have hfit := hroom rfl
        obtain ⟨q₂, hq₂, -⟩ := hreroot.returns (by omega)
        exact (consolidate_ok_iff hmaintain').mpr ⟨q₂, hq₂⟩

/-- A call that a queue serves returns or overflows. -/
theorem kept_call_unless (M : Multiset T) (q : Queue T) (c : Call T) (hq : Kept M q)
    (hc : Legal M c) : Unless True Fault.overflow (q.call c) fun r =>
      r.2 = (spec M c).2 ∧ Kept (spec M c).1 r.1 := by
  obtain ⟨⟨ts, hq, hfits⟩, hcount⟩ := hq
  rcases hq.call hcount hfits hc with ⟨r, hr, hanswer, ts', hq', hfits', -, hcount'⟩ | ⟨hr, -⟩
  · exact .inl ⟨r, hr, hanswer, ⟨ts', hq', hfits'⟩, hcount'⟩
  · exact .inr ⟨hr, trivial⟩

/-- **IN BOUNDS.**  After a sequence of calls the `consolidate` of a further `pop` stays in
    bounds, and so did those before, just when no `pop` of the sequence and not the further one
    leaves `2 ^ 31` elements or more; and the first thing to go wrong is never an index or a
    null pointer, but a degree that leaves `int`. -/
theorem consolidate_in_bounds_iff_pops_fit (cs : List (Call T))
    (hcs : Throughout spec Legal 0 (cs ++ [.pop])) :
    ((∃ q answers, (Queue.fresh : Queue T).calls cs = .ok (q, answers) ∧
      ConsolidatesInBounds q) ↔ Throughout spec PopFits 0 (cs ++ [.pop])) ∧
    ∀ e, (Queue.fresh : Queue T).calls (cs ++ [.pop]) = .error e → e = .overflow := by
  obtain ⟨hpre, hlegal⟩ := throughout_snoc.mp hcs
  refine ⟨⟨?_, fun hroom => ?_⟩, fun e he => ?_⟩
  · rintro ⟨q, answers, hrun, hbounds⟩
    have hroom := throughout_of_run kept_call kept_call_overflow kept_fresh hpre hrun
    obtain ⟨q', hrun', ⟨ts, hq, hfits⟩, hcount⟩ :=
      run_refines kept_call kept_fresh (hpre.and hroom)
    obtain ⟨rfl, -⟩ := Prod.mk.inj (Except.ok.inj (hrun'.symm.trans hrun))
    exact throughout_snoc.mpr
      ⟨hroom, (hq.consolidatesInBounds_iff hlegal hcount hfits).mp hbounds⟩
  · obtain ⟨hroom, hfit⟩ := throughout_snoc.mp hroom
    obtain ⟨q, hrun, ⟨ts, hq, hfits⟩, hcount⟩ :=
      run_refines kept_call kept_fresh (hpre.and hroom)
    exact ⟨q, _, hrun, (hq.consolidatesInBounds_iff hlegal hcount hfits).mpr hfit⟩
  · rcases run_unless kept_call_unless kept_fresh hcs with ⟨r, hrun, -⟩ | ⟨hrun, -⟩
    · cases he.symm.trans hrun
    · exact Except.error.inj (he.symm.trans hrun)

theorem consolidate_in_bounds_of_six_calls :
    ∃ q answers, (Queue.fresh : Queue Nat).calls
        [.push 4, .push 2, .push 3, .push 1, .push 5, .pop] = .ok (q, answers) ∧
      ConsolidatesInBounds q :=
  (consolidate_in_bounds_iff_pops_fit [.push 4, .push 2, .push 3, .push 1, .push 5, .pop]
    (by decide)).1.mpr (by decide)

/-- **OUT OF BOUNDS**: after `2 ^ 31 + 1` times `push`, the `consolidate` of a `pop` does not
    get through. -/
theorem consolidate_of_too_many_elements :
    Throughout spec Legal 0 tooManyElements ∧
      ¬ ∃ q answers, (Queue.fresh : Queue Nat).calls (List.replicate (2 ^ 31 + 1) (.push 0)) =
        .ok (q, answers) ∧ ConsolidatesInBounds q := by
  have hpushes := throughout_pushes (0 : Nat) (n := 2 ^ 31 + 1) (M := 0) (by decide)
  have hcard := specRun_pushes (0 : Nat) (2 ^ 31 + 1) 0
  obtain ⟨q, hrun, ⟨ts, hq, hfits⟩, hcount⟩ := run_refines kept_call kept_fresh hpushes
  refine ⟨(pop_after_pushes (0 : Nat) (n := 2 ^ 31 + 1) (by decide) (by decide)).1, ?_⟩
  rintro ⟨q', answers, hrun', hbounds⟩
  obtain ⟨rfl, -⟩ := Prod.mk.inj (Except.ok.inj (hrun.symm.trans hrun'))
  have hM : (specRun spec 0 (List.replicate (2 ^ 31 + 1) (.push 0))).1 ≠ (0 : Multiset Nat) := by
    intro hzero
    rw [hzero] at hcard
    cases hcard
  have hfit := (hq.consolidatesInBounds_iff hM hcount hfits).mp hbounds rfl
  rw [hcard, Multiset.card_zero] at hfit
  omega

/-! ## Bits -/

/-- The roots are the binary digits of `size_`. -/
structure BinaryRoots (q : Queue T) (roots : List Addr) : Prop where
  list : RootList q roots
  distinct : (roots.map q.heap.degree).Nodup
  /-- The degrees are just the powers of two in the binary expansion of `size_`. -/
  bits : ∀ d, d ∈ roots.map q.heap.degree ↔
    ∃ k, q.size_.toNat.testBit k = true ∧ d = 2 ^ k
  count : roots.length ≤ Nat.log2 q.size_.toNat + 1

/-- Trees of different ranks: their ranks are the bits of the number of values. -/
theorem mem_ranks_iff (hnd : (ts.map Tree.rank).Nodup) (k : Nat) :
    k ∈ ts.map Tree.rank ↔ (contents ts).card.testBit k = true := by
  have hsum : ∑ k ∈ (ts.map Tree.rank).toFinset, 2 ^ k = (contents ts).card := by
    rw [List.sum_toFinset _ hnd, List.map_map]
    exact sum_two_pow_ranks ts
  rw [← Nat.mem_bitIndices, ← hsum, ← List.mem_toFinset, ← List.mem_toFinset,
    Finset.toFinset_bitIndices_sum_two_pow]

/-- Numbers of one list that are all bits of `n` are at most as many as `n` has digits. -/
theorem length_le_of_testBit {ks : List Nat} {n : Nat} (hnd : ks.Nodup)
    (hbit : ∀ k ∈ ks, n.testBit k = true) : ks.length ≤ Nat.log2 n + 1 := by
  have hsub : ks ⊆ List.range (Nat.log2 n + 1) := by
    intro k hk
    have hle : 2 ^ k ≤ n := Nat.ge_two_pow_of_testBit (hbit k hk)
    have hn : n ≠ 0 := by
      have := Nat.two_pow_pos k
      omega
    exact List.mem_range.mpr (Nat.lt_succ_of_le ((Nat.le_log2 hn).mpr hle))
  have hlen := (hnd.subperm hsub).length_le
  rwa [List.length_range] at hlen

/-- Roots of different ranks are the digits of `size_`. -/
theorem Rep.binaryRoots (hq : Rep M q ts) (hcount : M.card < 2 ^ 64)
    (hnd : (ts.map Tree.rank).Nodup) : BinaryRoots q (ts.map Tree.addr) := by
  have hsize : q.size_.toNat = (contents ts).card := by
    rw [hq.toNat_size hcount, hq.values]
  have hdegrees : (ts.map Tree.addr).map q.heap.degree = (ts.map Tree.rank).map (2 ^ ·) := by
    rw [List.map_map, List.map_map]
    exact List.map_congr_left fun t ht => (hq.rooted.stored.body t ht).degree
  constructor
  · exact hq.rootList
  · rw [hdegrees]
    exact hnd.map (Nat.pow_right_injective le_rfl)
  · intro d
    rw [hdegrees, hsize, List.mem_map]
    constructor
    · rintro ⟨k, hk, rfl⟩
      exact ⟨k, (mem_ranks_iff hnd k).mp hk, rfl⟩
    · rintro ⟨k, hk, rfl⟩
      exact ⟨k, (mem_ranks_iff hnd k).mpr hk, rfl⟩
  · rw [hsize, List.length_map, ← List.length_map (f := Tree.rank)]
    exact length_le_of_testBit hnd fun k hk => (mem_ranks_iff hnd k).mp hk

/-- **BINARY ADDITION.**  After a sequence of calls whose last one is a `pop` the roots are
    the binary digits of `size_`, just when no `pop` of the sequence leaves `2 ^ 31`
    elements or more. -/
theorem binary_roots_iff_pops_fit (cs : List (Call T))
    (hcs : Throughout spec Legal 0 (cs ++ [.pop])) :
    (∃ q answers roots, (Queue.fresh : Queue T).calls (cs ++ [.pop]) = .ok (q, answers) ∧
      BinaryRoots q roots) ↔ Throughout spec PopFits 0 (cs ++ [.pop]) := by
  constructor
  · rintro ⟨q, answers, roots, hrun, -⟩
    exact throughout_of_run kept_call kept_call_overflow kept_fresh hcs hrun
  · intro hroom
    -- the queue before the last call, and the roots that `pop` leaves
    obtain ⟨hpre, hlegal, hfit⟩ := throughout_snoc.mp (hcs.and hroom)
    obtain ⟨q, hrun, ⟨ts, hq, hfits⟩, hcount⟩ := run_refines kept_call kept_fresh hpre
    obtain ⟨q', hpop, ts', hq', -, hnd, hcount'⟩ :=
      hq.call_of_popFits hcount hfits hlegal hfit
    have hlast := run_snoc hrun .pop
    rw [hpop, ok_bind] at hlast
    exact ⟨q', _, _, hlast, hq'.binaryRoots hcount' (hnd rfl)⟩

theorem binary_roots_of_eight_calls :
    ∃ q answers roots,
      (Queue.fresh : Queue Nat).calls
          [.push 3, .push 1, .push 2, .push 1, .pop, .push 0, .push 7, .pop] =
        .ok (q, answers) ∧ BinaryRoots q roots :=
  (binary_roots_iff_pops_fit
    [.push 3, .push 1, .push 2, .push 1, .pop, .push 0, .push 7] (by decide)).mpr (by decide)

/-- **NO BINARY DIGITS** come out of `2 ^ 31 + 1` times `push` and one `pop`. -/
theorem no_binary_roots_of_too_many_elements :
    Throughout spec Legal 0 tooManyElements ∧
      ¬ ∃ q answers roots, (Queue.fresh : Queue Nat).calls tooManyElements = .ok (q, answers) ∧
        BinaryRoots q roots := by
  obtain ⟨hlegal, hover⟩ := pop_after_pushes (0 : Nat) (n := 2 ^ 31 + 1) (by decide) (by decide)
  refine ⟨hlegal, ?_⟩
  rintro ⟨q, answers, roots, hrun, -⟩
  rw [tooManyElements, hover] at hrun
  cases hrun

end PriorityQueue
