import UniqueFreshman.QueueStoreProofs

/-! # The carry — trees of one rank are joined until their slot is free

    While `consolidate` runs there are the roots it has not reached yet (`olds`,
    still linked at the addresses `os`) and the roots it has made (`rs`, linked
    at the addresses `as`, one for each rank in `tree_size`).  Three things hold
    at every point of its loops:

    * `Holding`: all these trees are in the heap and hold the values `V`;
    * `Listed`: the new roots are a doubly linked list, and its first node, which
      is `consol.min_node`, has the least value `v₀`;
    * `Slots`: `tree_size` finds a root by its rank.

    A tree in flight is held but not in `tree_size`, and the copy of a root is
    held before it is listed.  Every bound the code needs (an index of
    `tree_size`, a degree that is doubled) comes from `Holding`: a tree of rank
    `k` holds `2 ^ k` of the values. -/

namespace PriorityQueue

open BinomialTree LinkedList CallSequence

variable {T : Type} [LinearOrder T]

/-- The trees `ts` and `olds` hold the values `V`; the old roots are still
    linked at `os`, apart from the nodes of `ts`. -/
structure Holding (V : Multiset T) (h : Heap T) (ts olds : List (Tree Addr T))
    (os : List Addr) : Prop where
  stored : Stored h (ts ++ olds)
  contents : contents (ts ++ olds) = V
  links : Linked h.left h.right os
  live : ∀ a ∈ os, h.Live a
  apart : ∀ a ∈ os, a ∉ cells ts

/-- The roots `rs` are a doubly linked list at `as`, with the least value at its
    left end. -/
structure Listed (v₀ : T) (h : Heap T) (min_node : Ptr) (rs : List (Tree Addr T))
    (as : List Addr) : Prop where
  links : Linked h.left h.right as
  perm : (rs.map Tree.addr).Perm as
  head : min_node = as.head?
  least : ∀ m, as.head? = some m → h.value m = some v₀

/-- `tree_size` finds the trees `us`, and nothing else, by their ranks. -/
def Slots (tree_size : List Ptr) (us : List (Tree Addr T)) : Prop :=
  ∀ i a, tree_size[i]? = some (some a) ↔ ∃ t ∈ us, t.addr = a ∧ t.rank + 1 = i

/-- `x` returns with `P`, unless the degree of a tree leaves `int`, for which
    there have to be `2 ^ 31` values. -/
def MayOverflow {α : Type} (V : Multiset T) (x : Except Fault α) (P : α → Prop) : Prop :=
  Unless (2 ^ 31 ≤ V.card) Fault.overflow x P

/-- The degrees of the trees fit into an `int`. -/
def Fits (ts : List (Tree Addr T)) : Prop :=
  ∀ t ∈ ts, t.rank < 31

/-- So do those of the children of a root. -/
theorem Fits.open {t : Tree Addr T} {ts ks : List (Tree Addr T)} (hfits : Fits (t :: ts))
    (hks : t.kids = ofTrees ks) : Fits (ks.reverse ++ ts) := by
  intro u hu
  rcases List.mem_append.mp hu with hu | hu
  · exact (t.rank_lt_of_kid hks (List.mem_reverse.mp hu)).trans
      (hfits t (List.mem_cons_self ..))
  · exact hfits u (List.mem_cons_of_mem t hu)

section Steps

variable {V : Multiset T} {v₀ : T} {h : Heap T} {ts rs us olds : List (Tree Addr T)}
  {os as : List Addr} {min_node : Ptr} {t u : Tree Addr T}

/-! ## Slots -/

/-- At first all slots are free. -/
theorem slots_replicate (n : Nat) : Slots (List.replicate n none) ([] : List (Tree Addr T)) := by
  intro i a
  simp [List.getElem?_replicate]

theorem Slots.perm {tree_size : List Ptr} (hs : Slots tree_size us) (hp : us.Perm rs) :
    Slots tree_size rs := by
  intro i a
  rw [hs i a]
  simp only [hp.mem_iff]

/-- A tree whose slot is null is put into it. -/
theorem Slots.fill {tree_size : List Ptr} (hs : Slots tree_size us)
    (hnone : tree_size[t.rank + 1]? = some none) :
    Slots (tree_size.set (t.rank + 1) (some t.addr)) (t :: us) := by
  have hlt : t.rank + 1 < tree_size.length := (List.getElem?_eq_some_iff.mp hnone).1
  intro i a
  by_cases hi : t.rank + 1 = i
  · subst hi
    rw [List.getElem?_set_self hlt]
    constructor
    · rintro heq
      obtain rfl : t.addr = a := Option.some.inj (Option.some.inj heq)
      exact ⟨t, List.mem_cons_self .., rfl, rfl⟩
    · rintro ⟨u, hu, rfl, hrank⟩
      rcases List.mem_cons.mp hu with rfl | hu
      · rfl
      · have := (hs (t.rank + 1) u.addr).mpr ⟨u, hu, rfl, hrank⟩
        rw [hnone] at this
        nomatch this
  · rw [List.getElem?_set_ne hi, hs i a]
    constructor
    · rintro ⟨u, hu, heq⟩
      exact ⟨u, List.mem_cons_of_mem t hu, heq⟩
    · rintro ⟨u, hu, heq, hrank⟩
      rcases List.mem_cons.mp hu with rfl | hu
      · exact absurd hrank hi
      · exact ⟨u, hu, heq, hrank⟩

/-- The slot of a tree is set to null. -/
theorem Slots.clear {tree_size : List Ptr} (hs : Slots tree_size (t :: us))
    (hne : ∀ u ∈ us, u.addr ≠ t.addr) :
    Slots (tree_size.set (t.rank + 1) none) us := by
  have hslot := (hs (t.rank + 1) t.addr).mpr ⟨t, List.mem_cons_self .., rfl, rfl⟩
  have hlt : t.rank + 1 < tree_size.length := (List.getElem?_eq_some_iff.mp hslot).1
  intro i a
  by_cases hi : t.rank + 1 = i
  · subst hi
    rw [List.getElem?_set_self hlt]
    constructor
    · nofun
    · rintro ⟨u, hu, rfl, hrank⟩
      have := (hs (t.rank + 1) u.addr).mpr ⟨u, List.mem_cons_of_mem t hu, rfl, hrank⟩
      rw [hslot] at this
      exact absurd (Option.some.inj (Option.some.inj this)).symm (hne u hu)
  · rw [List.getElem?_set_ne hi, hs i a]
    constructor
    · rintro ⟨u, hu, heq, hrank⟩
      rcases List.mem_cons.mp hu with rfl | hu
      · exact absurd hrank hi
      · exact ⟨u, hu, heq, hrank⟩
    · rintro ⟨u, hu, heq⟩
      exact ⟨u, List.mem_cons_of_mem t hu, heq⟩

/-! ## Trees and lists under one step -/

theorem Holding.perm (hold : Holding V h ts olds os) (hp : ts.Perm us) :
    Holding V h us olds os where
  stored := hold.stored.perm (hp.append_right olds)
  contents := (contents_perm (hp.append_right olds)).symm.trans hold.contents
  links := hold.links
  live := hold.live
  apart a ha hmem := hold.apart a ha ((cells_perm hp).mem_iff.mpr hmem)

/-- A tree of rank `k` holds `2 ^ k` of the values. -/
theorem Holding.two_pow_le (hold : Holding V h ts olds os) (ht : t ∈ ts ++ olds) :
    2 ^ t.rank ≤ V.card := by
  rw [← t.card_values, ← hold.contents]
  exact Multiset.card_le_card (values_le_contents ht)

/-- So its slot is in `tree_size`. -/
theorem Holding.slot_lt (hold : Holding V h ts olds os) (ht : t ∈ ts ++ olds) :
    t.rank + 1 < 2 + Nat.log2 V.card := by
  have hpow := hold.two_pow_le ht
  have hne : V.card ≠ 0 := (lt_of_lt_of_le (Nat.two_pow_pos t.rank) hpow).ne'
  have := (Nat.le_log2 hne).mpr hpow
  omega

/-- The values stay those of the queue. -/
theorem Holding.value_mem (hold : Holding V h ts olds os) (ht : t ∈ ts ++ olds) :
    t.value ∈ V := by
  rw [← hold.contents]
  exact Multiset.mem_of_le (values_le_contents ht) (Multiset.mem_cons_self ..)

/-- Links of new roots may change. -/
theorem Holding.relink (hold : Holding V h ts olds os) {L R : Addr → Ptr} {S : List Addr}
    (hS : ∀ y ∈ S, ∃ t ∈ ts, t.addr = y)
    (hframe : ∀ y ∉ S, L y = h.left y ∧ R y = h.right y) :
    Holding V { h with left := L, right := R } ts olds os where
  stored := hold.stored.relink fun v hv a ha => by
    refine (hframe a fun hmem => ?_).2
    obtain ⟨t, ht, rfl⟩ := hS a hmem
    exact hold.stored.root_notMem_kids (List.mem_append_left olds ht) hv ha
  contents := hold.contents
  links := by
    have hos (y : Addr) (hy : y ∈ os) : y ∉ S := fun hmem => by
      obtain ⟨t, ht, rfl⟩ := hS y hmem
      exact hold.apart t.addr hy (addr_mem_cells ht)
    exact hold.links.congr (fun y hy => (hframe y (hos y hy)).1)
      fun y hy => (hframe y (hos y hy)).2
  live := hold.live
  apart := hold.apart

/-- The heap after `u` became the first child of `t`, with a doubled degree. -/
def linkHeap (h : Heap T) (L P : Addr → Ptr) (t u : Tree Addr T) : Heap T :=
  { h with
    left := L
    right := Function.update h.right u.addr (h.child t.addr)
    parent := P
    child := Function.update h.child t.addr (some u.addr)
    degree := Function.update h.degree t.addr (2 ^ (t.rank + 1)) }

/-- **ONE LINK**: two trees of one rank become one of the next. -/
theorem Holding.link (hold : Holding V h ts olds os) (hp : ts.Perm (t :: u :: us))
    (hrank : u.rank = t.rank) (hle : t.value ≤ u.value) {L P : Addr → Ptr}
    (hL : ∀ y, y ≠ u.addr → h.child t.addr ≠ some y → L y = h.left y) :
    Holding V (linkHeap h L P t u) (t.link u hrank hle :: us) olds os := by
  have hold' := hold.perm hp
  have hs := hold'.stored
  have hbt := hs.body t (by simp)
  have hcells : (cells (t.link u hrank hle :: us)).Perm (cells (t :: u :: us)) := by
    rw [cells_cons, cells_cons, cells_cons, ← List.append_assoc]
    exact (t.addrs_link u hrank hle).append_right _
  refine ⟨?_, ?_, ?_, hold.live, fun a ha hmem => hold'.apart a ha (hcells.mem_iff.mp hmem)⟩
  · refine Stored.link hs hrank hle rfl rfl rfl rfl ?_ fun v hv a ha => ?_
    · exact (Function.update_self ..).trans hbt.child
    · exact Function.update_of_ne (fun heq =>
        hs.root_notMem_kids (by simp) hv (heq ▸ ha)) ..
  · rw [← hold'.contents]
    simp only [List.cons_append, contents_cons, Tree.values_link, add_assoc]
  · have hos (y : Addr) (hy : y ∈ os) : y ≠ u.addr ∧ h.child t.addr ≠ some y := by
      refine ⟨fun heq => hold'.apart y hy (heq ▸ addr_mem_cells (by simp)), fun heq => ?_⟩
      rw [hbt.child] at heq
      exact hold'.apart y hy (List.mem_append_left _
        (List.mem_cons_of_mem _ (Forest.mem_addrs_of_head heq)))
    exact hold.links.congr (fun y hy => hL y (hos y hy).1 (hos y hy).2)
      fun y hy => Function.update_of_ne (hos y hy).1 ..

/-- The degree is doubled: the new tree holds twice as many values, and still at
    most all of them, so with fewer than `2 ^ 31` of them no `int` overflows. -/
theorem Holding.double (hold : Holding V h ts olds os) (hp : ts.Perm (t :: u :: us))
    (hrank : u.rank = t.rank) (hle : t.value ≤ u.value)
    {L P : Addr → Ptr} (hL : ∀ y, y ≠ u.addr → h.child t.addr ≠ some y → L y = h.left y) :
    MayOverflow V (({ h with
      left := L
      right := Function.update h.right u.addr (h.child t.addr)
      parent := P
      child := Function.update h.child t.addr (some u.addr) } : Heap T).doubleDegree
        (some t.addr)) fun h' => h' = linkHeap h L P t u ∧ t.rank + 1 < 31 := by
  have hbt := (hold.perm hp).stored.body t (by simp)
  have hlive : h.Live t.addr := Heap.live_of_value hbt.value
  have hpow : 2 ^ (t.rank + 1) ≤ V.card :=
    (hold.link (P := P) hp hrank hle hL).two_pow_le (t := t.link u hrank hle) (by simp)
  by_cases hfit : t.rank + 1 < 31
  · exact .inl ⟨_, doubleDegree_eq hlive hbt.degree
      (Nat.pow_lt_pow_right Nat.one_lt_two hfit), rfl, hfit⟩
  · have hbig : 2 ^ 31 ≤ 2 ^ (t.rank + 1) :=
      Nat.pow_le_pow_right Nat.two_pos (Nat.le_of_not_lt hfit)
    exact .inr ⟨doubleDegree_overflow hlive hbt.degree hbig, hbig.trans hpow⟩

/-- What is in the list is a root. -/
theorem Listed.exists_root (hl : Listed v₀ h min_node rs as) {y : Addr} (hy : y ∈ as) :
    ∃ r ∈ rs, r.addr = y := by
  obtain ⟨r, hr, heq⟩ := List.mem_map.mp (hl.perm.mem_iff.mpr hy)
  exact ⟨r, hr, heq⟩

theorem Listed.mem (hl : Listed v₀ h min_node rs as) (ht : t ∈ rs) : t.addr ∈ as :=
  hl.perm.mem_iff.mp (List.mem_map_of_mem ht)

/-- The new root stays where `t` was. -/
theorem Listed.link (hl : Listed v₀ h min_node rs as) (hp : rs.Perm (t :: us))
    (hs : Stored h ts) (hrs : ∀ r ∈ rs, r ∈ ts) (hrank : u.rank = t.rank)
    (hle : t.value ≤ u.value) (hu : u.addr ∉ as) {L P : Addr → Ptr}
    (hL : ∀ y, y ≠ u.addr → h.child t.addr ≠ some y → L y = h.left y) :
    Listed v₀ (linkHeap h L P t u) min_node (t.link u hrank hle :: us) as := by
  have ht : t ∈ ts := hrs t (hp.mem_iff.mpr (List.mem_cons_self ..))
  have has (y : Addr) (hy : y ∈ as) : y ≠ u.addr ∧ h.child t.addr ≠ some y := by
    refine ⟨fun heq => hu (heq ▸ hy), fun heq => ?_⟩
    obtain ⟨r, hr, rfl⟩ := hl.exists_root hy
    rw [(hs.body t ht).child] at heq
    exact hs.root_notMem_kids (hrs r hr) ht (Forest.mem_addrs_of_head heq)
  refine ⟨?_, ?_, hl.head, hl.least⟩
  · exact hl.links.congr (fun y hy => hL y (has y hy).1 (has y hy).2)
      fun y hy => Function.update_of_ne (has y hy).1 ..
  · exact ((hp.map Tree.addr).symm).trans hl.perm

/-- A root that is not the first one is taken out of the list. -/
theorem Listed.unlink (hl : Listed v₀ h min_node rs as) (hp : rs.Perm (u :: us))
    (hlive : ∀ a ∈ as, h.Live a) (hne : min_node ≠ some u.addr) :
    ∃ L R as', unlink h (some u.addr) = .ok { h with left := L, right := R } ∧
      Listed v₀ { h with left := L, right := R } min_node us as' ∧ u.addr ∉ as' ∧
      ∀ y ∉ as, L y = h.left y ∧ R y = h.right y := by
  obtain ⟨xs, ys, rfl⟩ := List.append_of_mem (hl.mem (hp.mem_iff.mpr (List.mem_cons_self ..)))
  obtain ⟨L, R, hunlink, hlinks, hframe⟩ := unlink_spec hl.links hlive
  have hhead : (xs ++ u.addr :: ys).head? = (xs ++ ys).head? := by
    cases xs with
    | nil => exact absurd hl.head hne
    | cons x xs => rfl
  have hnotMem : u.addr ∉ xs ++ ys :=
    (List.nodup_cons.mp ((List.perm_middle.nodup_iff).mp hl.links.nodup)).1
  refine ⟨L, R, xs ++ ys, hunlink, ⟨hlinks, ?_, ?_, ?_⟩, hnotMem, ?_⟩
  · exact (((hp.map Tree.addr).symm.trans hl.perm).trans List.perm_middle).cons_inv
  · exact hl.head.trans hhead
  · exact fun m hm => hl.least m (hhead.trans hm)
  · intro y hy
    refine hframe y fun hmem => hy ?_
    exact List.perm_middle.mem_iff.mpr (List.mem_cons_of_mem _ hmem)

theorem Listed.value_of_min (hl : Listed v₀ h min_node rs as) {a : Addr}
    (ha : min_node = some a) : h.value a = some v₀ :=
  hl.least a (hl.head.symm.trans ha)

/-! ## The carry loop -/

theorem readSlot_eq {tree_size : List Ptr} {i : Nat} {p : Ptr} (hp : tree_size[i]? = some p) :
    readSlot tree_size i = .ok p := by
  rw [readSlot, hp]

theorem writeSlot_eq {tree_size : List Ptr} {i : Nat} (hi : i < tree_size.length) (p : Ptr) :
    writeSlot tree_size i p = .ok (tree_size.set i p) :=
  if_pos hi

/-- Of two roots of one rank, the smaller one is kept, and never is the first
    root of the list given up: a tie with it is decided for it. -/
theorem carryPair_spec (hl : Listed v₀ h min_node rs as) (ht : h.value t.addr = some t.value)
    (hu : h.value u.addr = some u.value) (hne : t.addr ≠ u.addr) (hvt : v₀ ≤ t.value)
    (hvu : v₀ ≤ u.value) :
    ∃ keep drop, carryPair h min_node (some t.addr) (some u.addr) =
        .ok (some keep.addr, some drop.addr, min_node) ∧
      keep.value ≤ drop.value ∧ min_node ≠ some drop.addr ∧
      (keep = u ∧ drop = t ∨ keep = t ∧ drop = u) := by
  have hmin {a : Tree Addr T} (ha : h.value a.addr = some a.value)
      (heq : min_node = some a.addr) : a.value = v₀ :=
    Option.some.inj (ha.symm.trans (hl.value_of_min heq))
  simp only [carryPair, getValue_some hu, getValue_some ht, ok_bind]
  by_cases hlt : u.value < t.value
  · refine ⟨u, t, ?_, hlt.le, fun heq => ?_, .inl ⟨rfl, rfl⟩⟩
    · simp [hlt]
    · exact absurd (hmin ht heq ▸ hvu) (not_le_of_gt hlt)
  · by_cases htie : some u.addr = min_node
    -- a tie with the first root of the list, which holds the least value
    · refine ⟨u, t, ?_, (hmin hu htie.symm).trans_le hvt, fun heq => ?_, .inl ⟨rfl, rfl⟩⟩
      · simp [hlt, htie]
      · exact hne (Option.some.inj (heq.symm.trans htie.symm))
    · refine ⟨t, u, ?_, le_of_not_gt hlt, Ne.symm htie, .inr ⟨rfl, rfl⟩⟩
      simp [hlt, htie]

/-- Everything `consolidate` keeps between two roots. -/
structure Merged (V : Multiset T) (v₀ : T) (c : Consol T) (rs olds : List (Tree Addr T))
    (os as : List Addr) : Prop where
  hold : Holding V c.heap rs olds os
  listed : Listed v₀ c.heap c.min_node rs as
  slots : Slots c.tree_size rs
  length : c.tree_size.length = 2 + Nat.log2 V.card

/-- Roots in the list are live. -/
theorem Listed.live (hl : Listed v₀ h min_node rs as) (hold : Holding V h ts olds os)
    (hrs : ∀ r ∈ rs, r ∈ ts) : ∀ a ∈ as, h.Live a := by
  intro a ha
  obtain ⟨r, hr, rfl⟩ := hl.exists_root ha
  exact hold.stored.live (List.mem_append_left olds (hrs r hr))

/-- One turn of the carry loop: `unlink`, `hang` and the doubled degree. -/
theorem join_spec {keep drop : Tree Addr T} (hold : Holding V h ts olds os)
    (hl : Listed v₀ h min_node ts as) (hp : ts.Perm (keep :: drop :: us))
    (hrank : drop.rank = keep.rank) (hle : keep.value ≤ drop.value) (hpos : 1 ≤ keep.rank)
    (hne : min_node ≠ some drop.addr) :
    ∃ h₁ h₂ as', unlink h (some drop.addr) = .ok h₁ ∧
      hang h₁ (some drop.addr) (some keep.addr) = .ok h₂ ∧
      MayOverflow V (h₂.doubleDegree (some keep.addr)) fun h₃ =>
        Holding V h₃ (keep.link drop hrank hle :: us) olds os ∧
        Listed v₀ h₃ min_node (keep.link drop hrank hle :: us) as' ∧ keep.rank + 1 < 31 := by
  have hp' : ts.Perm (drop :: keep :: us) := hp.trans (.swap drop keep us)
  obtain ⟨L₁, R₁, as', hunlink, hl₁, hnotMem, hframe⟩ :=
    hl.unlink hp' (hl.live hold fun _ hr => hr) hne
  have hold₁ := hold.relink (fun y hy => hl.exists_root hy) hframe
  have hs₁ := (hold₁.perm hp).stored
  have hbk := hs₁.body keep (by simp)
  -- `_new0->child` is not null: the carry begins at rank 1
  obtain ⟨k, hk⟩ : ∃ k, keep.kids.head = some k := by
    obtain ⟨r, hr⟩ := Nat.exists_eq_add_of_le' hpos
    exact (hr ▸ keep.shape).head_ne_none
  obtain ⟨L₂, P, hhang, hL₂⟩ := hang_eq (hs₁.live (t := drop) (by simp))
    (hs₁.live (t := keep) (by simp)) (hbk.child.trans hk) (hbk.live_head k hk)
  refine ⟨_, _, as', hunlink, hhang, (hold₁.double hp hrank hle hL₂).weaken ?_⟩
  rintro h₃ ⟨rfl, hfit⟩
  refine ⟨hold₁.link hp hrank hle hL₂, ?_, hfit⟩
  refine hl₁.link (.refl _) hs₁ (fun r hr => ?_) hrank hle hnotMem hL₂
  rcases List.mem_cons.mp hr with rfl | hr
  · simp
  · simp [hr]

/-- **THE CARRY LOOP** ends with one root for each rank. -/
theorem carry_spec {fuel : Nat} {c : Consol T} {n : Tree Addr T}
    (hold : Holding V c.heap (n :: us) olds os)
    (hl : Listed v₀ c.heap c.min_node (n :: us) as) (hslots : Slots c.tree_size us)
    (hlen : c.tree_size.length = 2 + Nat.log2 V.card) (hpos : 1 ≤ n.rank)
    (hfuel : c.tree_size.length < fuel + (n.rank + 1)) (hleast : ∀ v ∈ V, v₀ ≤ v)
    (hfits : Fits (n :: us)) :
    MayOverflow V (carry fuel c (some n.addr) (n.rank + 1)) fun c' =>
      c'.min_node = c.min_node ∧ ∃ rs as', Merged V v₀ c' rs olds os as' ∧ Fits rs := by
  induction fuel generalizing c n us as with
  | zero =>
      have := hold.slot_lt (t := n) (by simp)
      omega
  | succ fuel ih =>
      -- `tree_size` has a slot for every rank that fits into the number of values
      have hlt : n.rank + 1 < c.tree_size.length := hlen ▸ hold.slot_lt (t := n) (by simp)
      obtain ⟨p, hp⟩ : ∃ p, c.tree_size[n.rank + 1]? = some p :=
        ⟨_, List.getElem?_eq_getElem hlt⟩
      cases p with
      | none =>
          refine .inl ⟨{ c with tree_size := c.tree_size.set (n.rank + 1) (some n.addr) }, ?_,
            rfl, n :: us, as, ⟨hold, hl, hslots.fill hp, ?_⟩, hfits⟩
          · simp [carry, readSlot_eq hp, writeSlot_eq hlt]
          · rw [List.length_set, hlen]
      | some a =>
          -- another root of this rank: one turn of the loop, and the rank grows
          obtain ⟨u, hu, rfl, hrank⟩ := (hslots _ _).mp hp
          obtain ⟨ws, hws⟩ := exists_perm_cons hu
          have hbody {v : Tree Addr T} (hv : v ∈ n :: us) :=
            hold.stored.body v (List.mem_append_left olds hv)
          have hvalue {v : Tree Addr T} (hv : v ∈ n :: us) : v₀ ≤ v.value :=
            hleast _ (hold.value_mem (List.mem_append_left olds hv))
          have hnu : n.addr ≠ u.addr :=
            (hold.stored.addr_ne (List.mem_append_left olds hu)).symm
          have huws : ∀ w ∈ ws, w.addr ≠ u.addr := fun w hw =>
            (hold.stored.tail.perm (hws.append_right olds)).addr_ne
              (List.mem_append_left olds hw)
          obtain ⟨keep, drop, hpair, hle, hne, hcases⟩ :=
            carryPair_spec hl (hbody (List.mem_cons_self ..)).value
              (hbody (List.mem_cons_of_mem n hu)).value hnu (hvalue (List.mem_cons_self ..))
              (hvalue (List.mem_cons_of_mem n hu))
          have hperm : (n :: us).Perm (keep :: drop :: ws) := by
            rcases hcases with ⟨rfl, rfl⟩ | ⟨rfl, rfl⟩
            · exact (hws.cons drop).trans (.swap keep drop ws)
            · exact hws.cons keep
          have hranks : keep.rank = n.rank ∧ drop.rank = keep.rank := by
            rcases hcases with ⟨rfl, rfl⟩ | ⟨rfl, rfl⟩ <;> omega
          obtain ⟨h₁, h₂, as', hunlink, hhang, hdouble⟩ :=
            join_spec hold hl hperm hranks.2 hle (hranks.1 ▸ hpos) hne
          have hslots' : Slots (c.tree_size.set (n.rank + 1) none) ws :=
            hrank ▸ (hslots.perm hws).clear huws
          have hturn : carry (fuel + 1) c (some n.addr) (n.rank + 1) =
              h₂.doubleDegree (some keep.addr) >>= fun h₃ =>
                carry fuel ⟨h₃, c.min_node, c.tree_size.set (n.rank + 1) none⟩
                  (some keep.addr) (n.rank + 1 + 1) := by
            simp [carry, readSlot_eq hp, hpair, hunlink, hhang, writeSlot_eq hlt]
          rw [hturn, show n.rank + 1 + 1 = keep.rank + 1 + 1 by rw [hranks.1]]
          refine hdouble.bind fun h₃ ⟨hold₃, hl₃, hfit⟩ => ?_
          refine ih (n := keep.link drop hranks.2 hle) hold₃ hl₃ hslots' ?_
            (Nat.le_add_left 1 keep.rank) ?_ ?_
          · rw [List.length_set, hlen]
          · show (c.tree_size.set _ none).length < fuel + (keep.rank + 1 + 1)
            rw [List.length_set]
            omega
          · rintro r (_ | ⟨_, hr⟩)
            · exact hfit
            · exact hfits r (hperm.mem_iff.mpr
                (List.mem_cons_of_mem keep (List.mem_cons_of_mem drop hr)))

end Steps

end PriorityQueue
