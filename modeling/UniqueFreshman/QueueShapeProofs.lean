import UniqueFreshman.QueueRefinementProofs

/-! # The shape of the queue — what is found behind `min_node`

    `Rep` speaks of trees; here is the same invariant in terms of the nodes
    alone, as one finds them from `min_node` along `right` and `child`.  Each
    node has a degree `2 ^ k` and `k` children of the degrees `2 ^ (k - 1)`, …,
    `2`, `1`, and it has no larger value than any of them.

    The degree is an `int` and `size_` is not: a `pop` that leaves `2 ^ 31`
    elements has to build a tree of at least as many nodes, and overflows. -/

namespace PriorityQueue

open BinomialTree LinkedList CallSequence

variable {T : Type} {h : Heap T}

/-- The nodes found from `p` along `right` and `child`. -/
inductive Reach (h : Heap T) (p : Ptr) : Addr → Prop where
  | start {a : Addr} : p = some a → Reach h p a
  | right {a b : Addr} : Reach h p a → h.right a = some b → Reach h p b
  | child {a b : Addr} : Reach h p a → h.child a = some b → Reach h p b

/-- The node at `a` has the value `v`, the degree `2 ^ k` and the children `kids`,
    and `below` are the nodes below it. -/
structure HeapNode [LinearOrder T] (h : Heap T) (a : Addr) (v : T) (k : Nat)
    (kids below : List Addr) : Prop where
  value : h.value a = some v
  degree : h.degree a = 2 ^ k
  first : h.child a = kids.head?
  row : Trail h.right kids
  degrees : kids.map h.degree = (List.range k).reverse.map (2 ^ ·)
  ordered : ∀ b ∈ kids, ∃ w, h.value b = some w ∧ v ≤ w
  reach : ∀ b, b ∈ below ↔ Reach h (h.child a) b
  nodup : (a :: below).Nodup
  size : (a :: below).length = 2 ^ k

/-- The nodes of the queue are `nodes`, its roots are `roots`. -/
structure HeapShape [LinearOrder T] (q : Queue T) (nodes roots : List Addr) : Prop where
  reach : ∀ a, a ∈ nodes ↔ Reach q.heap q.min_node a
  nodup : nodes.Nodup
  count : nodes.length = q.size_.toNat
  first : q.min_node = roots.head?
  row : Trail q.heap.right roots
  degrees : (roots.map q.heap.degree).sum = q.size_.toNat
  node : ∀ a ∈ nodes, ∃ v k kids below, HeapNode q.heap a v k kids below

/-! ## Nodes of a forest -/

/-- What is below a node that is reached is reached. -/
theorem Reach.trans {p : Ptr} {a b : Addr} (hb : Reach h (h.child a) b) (ha : Reach h p a) :
    Reach h p b := by
  induction hb with
  | start heq => exact ha.child heq
  | right _ heq ih => exact ih.right heq
  | child _ heq ih => exact ih.child heq

theorem Reach.skip {p : Ptr} {a b : Addr} (hb : Reach h (h.right a) b) (ha : Reach h p a) :
    Reach h p b := by
  induction hb with
  | start heq => exact ha.right heq
  | right _ heq ih => exact ih.right heq
  | child _ heq ih => exact ih.child heq

/-- No link leads out of a forest. -/
theorem Chain.closed {F : Forest Addr T} (hc : Chain h F) {a b : Addr} (ha : a ∈ F.addrs)
    (hab : h.right a = some b ∨ h.child a = some b) : b ∈ F.addrs := by
  induction F with
  | nil => nomatch ha
  | cons c v kids rest ihk ihr =>
      obtain ⟨-, -, hch, hr, hkids, hrest⟩ := hc
      show b ∈ c :: (kids.addrs ++ rest.addrs)
      refine List.mem_cons_of_mem c ?_
      rcases List.mem_cons.mp ha with rfl | ha
      · rw [hch, hr] at hab
        rcases hab with hab | hab
        · exact List.mem_append_right _ (Forest.mem_addrs_of_head hab)
        · exact List.mem_append_left _ (Forest.mem_addrs_of_head hab)
      · rcases List.mem_append.mp ha with ha | ha
        · exact List.mem_append_left _ (ihk hkids ha)
        · exact List.mem_append_right _ (ihr hrest ha)

/-- From the first node of a forest just its nodes are found. -/
theorem Chain.mem_addrs_iff {F : Forest Addr T} (hc : Chain h F) (a : Addr) :
    a ∈ F.addrs ↔ Reach h F.head a := by
  constructor
  · intro ha
    induction F with
    | nil => nomatch ha
    | cons c v kids rest ihk ihr =>
        obtain ⟨-, -, hch, hr, hkids, hrest⟩ := hc
        have hstart : Reach h (some c) c := .start rfl
        show Reach h (some c) a
        rcases List.mem_cons.mp ha with rfl | ha
        · exact hstart
        · rcases List.mem_append.mp ha with ha | ha
          · exact (hch ▸ ihk hkids ha).trans hstart
          · exact (hr ▸ ihr hrest ha).skip hstart
  · intro ha
    induction ha with
    | start heq => exact Forest.mem_addrs_of_head heq
    | right _ heq ih => exact hc.closed ih (.inl heq)
    | child _ heq ih => exact hc.closed ih (.inr heq)

/-- A forest has as many addresses as nodes. -/
theorem Forest.length_addrs (F : Forest Addr T) : F.addrs.length = F.size := by
  induction F with
  | nil => rfl
  | cons a v kids rest ihk ihr =>
      show (a :: (kids.addrs ++ rest.addrs)).length = kids.size + 1 + rest.size
      rw [List.length_cons, List.length_append, ihk, ihr]
      omega

variable [LinearOrder T] {t : Tree Addr T} {ts : List (Tree Addr T)}

/-- Each node of a row of trees is the root of a tree, which is a part of the row. -/
theorem Chain.exists_tree {F : Forest Addr T} (hc : Chain h F) (hF : F = ofTrees ts) {a : Addr}
    (ha : a ∈ F.addrs) :
    ∃ t : Tree Addr T, t.addr = a ∧ Body h t ∧ t.addrs.Sublist F.addrs := by
  induction F generalizing ts with
  | nil => nomatch ha
  | cons c v kids rest ihk ihr =>
      cases ts with
      | nil => nomatch hF
      | cons u us =>
          obtain ⟨rfl, rfl, rfl, rfl⟩ := Forest.cons.inj hF
          obtain ⟨hv, hd, hch, -, hkids, hrest⟩ := hc
          show ∃ t : Tree Addr T, t.addr = a ∧ Body h t ∧
            t.addrs.Sublist (u.addr :: (u.kids.addrs ++ (ofTrees us).addrs))
          rcases List.mem_cons.mp ha with rfl | ha
          · exact ⟨u, rfl, ⟨hv, hd.trans u.size_kids, hch, hkids⟩,
              (List.sublist_append_left ..).cons_cons _⟩
          · rcases List.mem_append.mp ha with ha | ha
            -- below the first root: its children are a row of trees again
            · obtain ⟨ks, hks⟩ := u.shape.exists_trees u.heaped
              obtain ⟨t, rfl, hbody, hsub⟩ := ihk hkids hks ha
              exact ⟨t, rfl, hbody, (hsub.trans (List.sublist_append_left ..)).cons _⟩
            · obtain ⟨t, rfl, hbody, hsub⟩ := ihr hrest rfl ha
              exact ⟨t, rfl, hbody, (hsub.trans (List.sublist_append_right ..)).cons _⟩

/-- A node is at most its children. -/
theorem le_roots_of_heaped {v : T} (hv : Heaped v (ofTrees ts)) : ∀ t ∈ ts, v ≤ t.value := by
  induction ts with
  | nil => nofun
  | cons t ts ih => exact List.forall_mem_cons.mpr ⟨hv.1, ih hv.2.2⟩

/-- **A TREE IN THE HEAP** is seen by its nodes. -/
theorem Body.heapNode (hb : Body h t) (hnd : t.addrs.Nodup) :
    ∃ v k kids below, HeapNode h t.addr v k kids below := by
  obtain ⟨ks, hks⟩ := t.shape.exists_trees t.heaped
  have hkids := hb.kids
  have hshape := t.shape
  have hheaped := t.heaped
  rw [hks] at hkids hshape hheaped
  obtain ⟨hbody, htrail⟩ := hkids.trees
  refine ⟨t.value, t.rank, ks.map Tree.addr, t.kids.addrs, ?_⟩
  constructor
  · exact hb.value
  · exact hb.degree
  · rw [hb.child, hks, head_ofTrees]
  · exact htrail
  · rw [← hshape.ranks, List.map_map, List.map_map]
    exact List.map_congr_left fun k hk => (hbody k hk).degree
  · intro b hb'
    obtain ⟨k, hk, rfl⟩ := List.mem_map.mp hb'
    exact ⟨k.value, (hbody k hk).value, le_roots_of_heaped hheaped k hk⟩
  · intro b
    rw [hb.child]
    exact hb.kids.mem_addrs_iff b
  · exact hnd
  · rw [List.length_cons, Forest.length_addrs, t.size_kids]

/-! ## The queue -/

/-- The roots, linked to the right, are a forest in the heap. -/
theorem Rooted.chain (hr : Rooted h ts) : Chain h (ofTrees ts) := by
  have htrail := hr.links.seg.trail
  have hbody := hr.stored.body
  clear hr
  induction ts with
  | nil => trivial
  | cons t ts ih =>
      have hb := hbody t (List.mem_cons_self ..)
      refine ⟨hb.value, hb.degree.trans t.size_kids.symm, hb.child, ?_, hb.kids, ?_⟩
      · exact htrail.1.trans (head_ofTrees ts).symm
      · exact ih htrail.2 fun u hu => hbody u (List.mem_cons_of_mem t hu)

omit h in
/-- The degrees of the roots add up to the number of elements. -/
theorem sum_two_pow_ranks (ts : List (Tree Addr T)) :
    (ts.map fun t => 2 ^ t.rank).sum = (contents ts).card := by
  induction ts with
  | nil => rfl
  | cons t ts ih => rw [List.map_cons, List.sum_cons, ih, contents_cons, Multiset.card_add,
      t.card_values]

variable {M : Multiset T} {q : Queue T}

/-- **THE REPRESENTATION INVARIANT, NODE BY NODE.** -/
theorem Rep.heapShape (hq : Rep M q ts) (hcount : M.card < 2 ^ 64) :
    HeapShape q (cells ts) (ts.map Tree.addr) := by
  have hchain := hq.rooted.chain
  have hsize := hq.toNat_size hcount
  constructor
  · intro a
    rw [← addrs_ofTrees, hq.min_node, ← head_ofTrees]
    exact hchain.mem_addrs_iff a
  · exact hq.rooted.stored.nodup
  · rw [hsize, ← hq.values, ← values_ofTrees, Forest.card_values, ← Forest.length_addrs,
      addrs_ofTrees]
  · exact hq.min_node
  · exact hq.rooted.links.seg.trail
  · rw [hsize, ← hq.values, ← sum_two_pow_ranks, List.map_map]
    exact congrArg List.sum (List.map_congr_left fun t ht => (hq.rooted.stored.body t ht).degree)
  · intro a ha
    rw [← addrs_ofTrees] at ha
    obtain ⟨t, rfl, hbody, hsub⟩ := hchain.exists_tree rfl ha
    rw [addrs_ofTrees] at hsub
    exact hbody.heapNode (hq.rooted.stored.nodup.sublist hsub)

/-- Trees of different ranks below `31` have fewer than `2 ^ 31` nodes. -/
theorem Fits.card_lt (hfits : Fits ts) (hnd : (ts.map Tree.rank).Nodup) :
    (contents ts).card < 2 ^ 31 := by
  have hsum : ((ts.map Tree.rank).map (2 ^ ·)).sum = (contents ts).card := by
    rw [List.map_map]
    exact sum_two_pow_ranks ts
  rw [← hsum, ← List.sum_toFinset _ hnd]
  refine Nat.geomSum_lt le_rfl fun k hk => ?_
  obtain ⟨t, ht, rfl⟩ := List.mem_map.mp (List.mem_toFinset.mp hk)
  exact hfits t ht

/-- The calls after which every degree fits into an `int`: a `pop` leaves fewer
    than `2 ^ 31` elements. -/
def PopFits (M : Multiset T) (c : Call T) : Prop :=
  c = .pop → M.card ≤ 2 ^ 31

instance (M : Multiset T) : ∀ c : Call T, Decidable (Legal M c)
  | .push _ => inferInstanceAs (Decidable (M.card + 1 < 2 ^ 64))
  | .pop | .top => inferInstanceAs (Decidable (M ≠ 0))
  | .size | .empty => inferInstanceAs (Decidable True)

instance (M : Multiset T) (c : Call T) : Decidable (PopFits M c) :=
  inferInstanceAs (Decidable (c = .pop → _))

/-- `pop` takes one element away. -/
theorem card_spec_pop (hM : M ≠ 0) : (spec M .pop).1.card + 1 = M.card := by
  obtain ⟨v, hmem, hv, -⟩ := exists_least hM
  rw [spec, hv]
  exact Multiset.card_erase_add_one hmem

/-- A call that fits leaves fewer than `2 ^ 31` elements, if it is a `pop`. -/
theorem PopFits.not_big {c : Call T} (hroom : PopFits M c) (hc : Legal M c) :
    ¬ (c = .pop ∧ 2 ^ 31 ≤ (spec M c).1.card) := by
  rintro ⟨rfl, hbig⟩
  have := card_spec_pop hc
  have := hroom rfl
  omega

/-- A call that fits returns, and leaves a queue in which the next one can be made. -/
theorem Rep.call_of_popFits (hq : Rep M q ts) {c : Call T} (hcount : M.card < 2 ^ 64)
    (hfits : Fits ts) (hc : Legal M c) (hroom : PopFits M c) :
    ∃ q', q.call c = .ok (q', (spec M c).2) ∧
      ∃ ts', Rep (spec M c).1 q' ts' ∧ Fits ts' ∧ (c = .pop → (ts'.map Tree.rank).Nodup) ∧
        (spec M c).1.card < 2 ^ 64 := by
  obtain ⟨⟨q', answer⟩, hcall, rfl, hq'⟩ :=
    (hq.call hcount hfits hc).returns (hroom.not_big hc)
  exact ⟨q', hcall, hq'⟩

/-- **OVERFLOW.**  A `pop` that leaves `2 ^ 31` elements does not return. -/
theorem Rep.call_overflow (hq : Rep M q ts) {c : Call T} (hcount : M.card < 2 ^ 64)
    (hfits : Fits ts) (hc : Legal M c) (hroom : ¬ PopFits M c) :
    q.call c = .error .overflow := by
  obtain ⟨rfl, hbig⟩ : c = .pop ∧ 2 ^ 31 < M.card := by
    rw [PopFits] at hroom
    push Not at hroom
    exact hroom
  rcases hq.call hcount hfits hc with ⟨⟨q', answer⟩, -, -, ts', hq', hfits', hrank, -⟩ | h
  · have hlt := hfits'.card_lt (hrank rfl)
    rw [hq'.values] at hlt
    have := card_spec_pop hc
    omega
  · exact h.1

/-- What holds between the calls, while the elements are `M`. -/
def Kept (M : Multiset T) (q : Queue T) : Prop :=
  (∃ ts, Rep M q ts ∧ Fits ts) ∧ M.card < 2 ^ 64

theorem kept_fresh : Kept 0 (Queue.fresh : Queue T) :=
  ⟨⟨[], rep_fresh, nofun⟩, Nat.two_pow_pos 64⟩

/-- **ONE CALL** that fits keeps the shape. -/
theorem kept_call (M : Multiset T) (q : Queue T) (c : Call T) (hq : Kept M q)
    (hc : Legal M c ∧ PopFits M c) :
    ∃ q', q.call c = .ok (q', (spec M c).2) ∧ Kept (spec M c).1 q' := by
  obtain ⟨⟨ts, hq, hfits⟩, hcount⟩ := hq
  obtain ⟨q', hcall, ts', hq', hfits', -, hcount'⟩ :=
    hq.call_of_popFits hcount hfits hc.1 hc.2
  exact ⟨q', hcall, ⟨ts', hq', hfits'⟩, hcount'⟩

/-- One that does not fit does not return. -/
theorem kept_call_overflow (M : Multiset T) (q : Queue T) (c : Call T) (hq : Kept M q)
    (hc : Legal M c) (hroom : ¬ PopFits M c) : ∃ e, q.call c = .error e := by
  obtain ⟨⟨ts, hq, hfits⟩, hcount⟩ := hq
  exact ⟨.overflow, hq.call_overflow hcount hfits hc hroom⟩

/-- **THE HEAP INVARIANT.**  After a sequence of calls the queue has its shape,
    just when no `pop` of the sequence leaves `2 ^ 31` elements or more. -/
theorem heap_invariant_iff_pops_fit (cs : List (Call T)) (hcs : Throughout spec Legal 0 cs) :
    (∃ q answers nodes roots, (Queue.fresh : Queue T).calls cs = .ok (q, answers) ∧
      HeapShape q nodes roots) ↔ Throughout spec PopFits 0 cs := by
  constructor
  · rintro ⟨q, answers, nodes, roots, hrun, -⟩
    exact throughout_of_run kept_call kept_call_overflow kept_fresh hcs hrun
  · intro hroom
    obtain ⟨q, hrun, ⟨ts, hq, -⟩, hcount⟩ :=
      run_refines kept_call kept_fresh (hcs.and hroom)
    exact ⟨q, _, _, _, hrun, hq.heapShape hcount⟩

/-- Four calls of `push` and one of `pop`. -/
theorem heap_invariant_of_five_calls :
    ∃ q answers nodes roots,
      (Queue.fresh : Queue Nat).calls [.push 3, .push 1, .push 2, .push 5, .pop] =
        .ok (q, answers) ∧ HeapShape q nodes roots :=
  (heap_invariant_iff_pops_fit _ (by decide)).mpr (by decide)

/-! ## Too many elements -/

theorem specRun_pushes (v : T) (n : Nat) (M : Multiset T) :
    (specRun spec M (List.replicate n (.push v))).1.card = n + M.card := by
  induction n generalizing M with
  | zero => exact (Nat.zero_add _).symm
  | succ n ih =>
      show (specRun spec (v ::ₘ M) (List.replicate n (.push v))).1.card = _
      rw [ih, Multiset.card_cons]
      omega

/-- Pushes are not restricted. -/
theorem throughout_pushes (v : T) {n : Nat} {M : Multiset T} (hn : n + M.card < 2 ^ 64) :
    Throughout spec (fun M c => Legal M c ∧ PopFits M c) M (List.replicate n (.push v)) := by
  induction n generalizing M with
  | zero => trivial
  | succ n ih =>
      refine ⟨⟨show M.card + 1 < 2 ^ 64 by omega, nofun⟩, ih ?_⟩
      show n + (v ::ₘ M).card < 2 ^ 64
      rw [Multiset.card_cons]
      omega

/-- Pushes are served however many there are; the `pop` after them is asked for,
    and overflows. -/
theorem pop_after_pushes (v : T) {n : Nat} (hbig : 2 ^ 31 < n) (hn : n < 2 ^ 64) :
    Throughout spec Legal 0 (List.replicate n (.push v) ++ [.pop]) ∧
      (Queue.fresh : Queue T).calls (List.replicate n (.push v) ++ [.pop]) =
        .error .overflow := by
  have hpushes := throughout_pushes v (n := n) (M := 0) hn
  have hcard : (specRun spec 0 (List.replicate n (.push v))).1.card = n :=
    specRun_pushes v n 0
  have hlegal : Legal (specRun spec 0 (List.replicate n (.push v))).1 (.pop : Call T) := by
    intro hzero
    rw [hzero, Multiset.card_zero] at hcard
    omega
  obtain ⟨q, hrun, ⟨ts, hq, hfits⟩, hcount⟩ := run_refines kept_call kept_fresh hpushes
  have hover := hq.call_overflow hcount hfits hlegal fun hroom => by
    have := hroom rfl
    omega
  refine ⟨throughout_snoc.mpr ⟨hpushes.left, hlegal⟩, ?_⟩
  rw [Queue.calls, run_snoc hrun, hover]
  rfl

/-- `2 ^ 31 + 1` times `push`, and one `pop`: the last two trees have `2 ^ 30` nodes
    each, and the degree of their join is no `int`. -/
theorem pop_of_too_many_elements_overflows :
    (Queue.fresh : Queue Nat).calls (List.replicate (2 ^ 31 + 1) (.push 0) ++ [.pop]) =
      .error .overflow :=
  (pop_after_pushes 0 (by decide) (by decide)).2

end PriorityQueue
