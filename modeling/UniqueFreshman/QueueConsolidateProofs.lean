import UniqueFreshman.QueueCarryProofs

/-! # Consolidation — `consolidate` adds the roots up like binary digits

    Each root of the old list is copied, and the copy either takes the free slot
    of its rank (`addRoot`) or is joined with the root that is there
    (`mergeRoot`), with the carries that follow.  The old list begins with a
    least value, so the first new root has it, and from then on no test of the
    code finds a smaller one: `consol.min_node` stays at the left end. -/

namespace PriorityQueue

open BinomialTree LinkedList CallSequence

variable {T : Type} [LinearOrder T]

section Roots

variable {V : Multiset T} {v₀ : T} {h : Heap T} {ts rs us olds : List (Tree Addr T)}
  {os as : List Addr} {min_node : Ptr} {t u : Tree Addr T}

/-! ## One root -/

/-- `lowerMin` finds the least value at `consol.min_node` already. -/
theorem lowerMin_eq {m : Addr} (hm : h.value m = some v₀) (ht : h.value t.addr = some t.value)
    (hle : v₀ ≤ t.value) : lowerMin h (some m) (some t.addr) = .ok (some m) := by
  simp [lowerMin, getValue_some hm, getValue_some ht, not_lt_of_ge hle]

/-- The copy of a root of the old list. -/
theorem copy_spec {c : Consol T}
    (hm : Merged V v₀ c rs (t :: olds) ((t :: olds).map Tree.addr) as) :
    ∃ h, c.heap.copyNode (some t.addr) = .ok (h, some c.heap.next) ∧
      h.getDegree (some t.addr) = .ok (2 ^ t.rank) ∧ h.right c.heap.next = none ∧ c.heap.next ∉ as ∧
      Holding V h (t.move c.heap.next :: rs) olds ((t :: olds).map Tree.addr) ∧
      Listed v₀ h c.min_node rs as := by
  obtain ⟨hold, hl, -, -⟩ := hm
  have hp : (rs ++ t :: olds).Perm (t :: (rs ++ olds)) := List.perm_middle
  have hs := hold.stored.perm hp
  have hbt := hs.body t (by simp)
  have hvt : (c.heap.value t.addr).isSome := Heap.live_of_value hbt.value
  obtain ⟨hs', hnotMem⟩ := hs.copy
  -- the copy is at a new address, so no list and no tree sees it
  have hne (a : Addr) (ha : a ∈ cells (rs ++ t :: olds)) : a ≠ c.heap.next :=
    (hold.stored.bound a ha).ne
  have has (a : Addr) (ha : a ∈ as) : a ≠ c.heap.next := by
    obtain ⟨r, hr, rfl⟩ := hl.exists_root ha
    exact hne r.addr (addr_mem_cells (List.mem_append_left _ hr))
  have hos (a : Addr) (ha : a ∈ (t :: olds).map Tree.addr) : a ≠ c.heap.next := by
    obtain ⟨r, hr, rfl⟩ := List.mem_map.mp ha
    exact hne r.addr (addr_mem_cells (List.mem_append_right _ hr))
  refine ⟨c.heap.alloc t.value (2 ^ t.rank) t.kids.head, ?_, ?_, Function.update_self ..,
    fun hmem => has _ hmem rfl, ⟨hs', ?_, ?_, ?_, ?_⟩, ⟨?_, hl.perm, hl.head, ?_⟩⟩
  · simp [Heap.copyNode, getValue_some hbt.value, hvt, hbt.child, hbt.degree]
  · have hself : t.addr ≠ c.heap.next := hos t.addr (List.mem_cons_self ..)
    simp [Heap.getDegree, Heap.deref, Heap.alloc, hself, hvt, hbt.degree]
  · exact (contents_perm hp).symm.trans hold.contents
  · exact hold.links.congr (fun a ha => Function.update_of_ne (hos a ha) ..)
      fun a ha => Function.update_of_ne (hos a ha) ..
  · intro a ha
    show (Function.update c.heap.value c.heap.next _ a).isSome
    rw [Function.update_of_ne (hos a ha)]
    exact hold.live a ha
  · intro a ha hmem
    have hmem' : a ∈ cells (t.move c.heap.next :: (rs ++ olds)) := by
      rw [← List.cons_append, cells_append]
      exact List.mem_append_left _ hmem
    rcases List.mem_cons.mp ha with rfl | ha
    · exact hnotMem hmem'
    · have hnd := hs'.nodup
      rw [← List.cons_append, cells_append] at hnd
      obtain ⟨r, hr, rfl⟩ := List.mem_map.mp ha
      exact (List.disjoint_of_nodup_append hnd) hmem (addr_mem_cells hr)
  · exact hl.links.congr (fun a ha => Function.update_of_ne (has a ha) ..)
      fun a ha => Function.update_of_ne (has a ha) ..
  · intro m hmin
    show Function.update c.heap.value c.heap.next _ m = _
    rw [Function.update_of_ne (has m (List.mem_of_mem_head? hmin))]
    exact hl.least m hmin

/-- The first tree of its rank becomes a root. -/
theorem addRoot_spec {tree_size : List Ptr} (hold : Holding V h (t :: rs) olds os)
    (hl : Listed v₀ h min_node rs as) (hslots : Slots tree_size rs)
    (hlen : tree_size.length = 2 + Nat.log2 V.card)
    (hnone : tree_size[t.rank + 1]? = some none) (hnotMem : t.addr ∉ as)
    (hright : h.right t.addr = none) (hle : v₀ ≤ t.value) (hfirst : as = [] → t.value = v₀) :
    ∃ c' as', addRoot ⟨h, min_node, tree_size⟩ (some t.addr) (t.rank + 1) = .ok c' ∧
      as' ≠ [] ∧ Merged V v₀ c' (t :: rs) olds os as' := by
  have hlt : t.rank + 1 < tree_size.length := (List.getElem?_eq_some_iff.mp hnone).1
  have hbt := hold.stored.body t (by simp)
  have hvt : (h.value t.addr).isSome := Heap.live_of_value hbt.value
  have hslots' := hslots.fill hnone
  have hlen' : (tree_size.set (t.rank + 1) (some t.addr)).length = 2 + Nat.log2 V.card := by
    rw [List.length_set, hlen]
  have hmin := hl.head
  cases as with
  | nil =>
      obtain rfl : min_node = none := hmin
      -- the first root of all: it has the least value, as the old list begins with it
      obtain rfl : rs = [] := List.map_eq_nil_iff.mp hl.perm.eq_nil
      refine ⟨⟨{ h with left := Function.update h.left t.addr none,
                        right := Function.update h.right t.addr none }, _, _⟩, [t.addr], ?_,
        List.cons_ne_nil _ _, ?_, ⟨?_, .refl _, rfl, ?_⟩, hslots', hlen'⟩
      · simp [addRoot, hvt, writeSlot_eq hlt]
      · refine hold.relink (S := [t.addr]) ?_ ?_
        · exact fun y hy => ⟨t, List.mem_cons_self .., (List.mem_singleton.mp hy).symm⟩
        · intro y hy
          have hne : y ≠ t.addr := fun heq => hy (List.mem_singleton.mpr heq)
          exact ⟨Function.update_of_ne hne .., Function.update_of_ne hne ..⟩
      · exact ⟨List.nodup_singleton _, by simp [Seg]⟩
      · intro m hm
        obtain rfl : t.addr = m := Option.some.inj hm
        exact hbt.value.trans (congrArg some (hfirst rfl))
  | cons m as =>
      obtain rfl : min_node = some m := hmin
      have hlive := hl.live hold fun r hr => List.mem_cons_of_mem t hr
      obtain ⟨L, R, hinsert, hlinks, hframe⟩ := insertRight_spec hl.links hnotMem
        (List.forall_mem_cons.mpr ⟨hvt, hlive⟩) hright
      have hm : h.value m = some v₀ := hl.least m rfl
      have hlower := lowerMin_eq (h := { h with left := L, right := R }) hm hbt.value hle
      refine ⟨⟨{ h with left := L, right := R }, _, _⟩, m :: t.addr :: as, ?_,
        List.cons_ne_nil _ _, ?_, ⟨hlinks, ?_, rfl, ?_⟩, hslots', hlen'⟩
      · simp [addRoot, hinsert, hlower, writeSlot_eq hlt]
      · refine hold.relink (fun y hy => ?_) hframe
        rcases List.mem_cons.mp hy with rfl | hy
        · exact ⟨t, List.mem_cons_self .., rfl⟩
        · obtain ⟨r, hr, heq⟩ := hl.exists_root hy
          exact ⟨r, List.mem_cons_of_mem t hr, heq⟩
      · exact (hl.perm.cons t.addr).trans (.swap m t.addr as)
      · intro m' hm'
        exact hl.least m' hm'

/-- The smaller of two values of one rank goes to the root that is listed. -/
theorem sortContents_spec (hold : Holding V h (t :: u :: us) olds os)
    (hl : Listed v₀ h min_node (u :: us) as) (hrank : t.rank = u.rank) (hnotMem : t.addr ∉ as)
    (hle : v₀ ≤ t.value) :
    ∃ h' t' u', sortContents h (some t.addr) (some u.addr) = .ok h' ∧
      (t'.addr = t.addr ∧ t'.rank = t.rank) ∧ (u'.addr = u.addr ∧ u'.rank = u.rank) ∧
      u'.value ≤ t'.value ∧ Holding V h' (u' :: t' :: us) olds os ∧
      Listed v₀ h' min_node (u' :: us) as := by
  have hbt := hold.stored.body t (by simp)
  have hbu := hold.stored.body u (by simp)
  have hut : u.addr ≠ t.addr := fun heq => hnotMem (heq ▸ hl.mem (List.mem_cons_self ..))
  by_cases hlt : t.value < u.value
  · obtain ⟨P, hswap⟩ := swapContents_eq hbt hbu hut
    have hother {a : Addr} (hat : a ≠ t.addr) (hau : a ≠ u.addr) :
        Function.update (Function.update h.value t.addr (some u.value)) u.addr
          (some t.value) a = h.value a := by
      rw [Function.update_of_ne hau, Function.update_of_ne hat]
    have hsort : sortContents h (some t.addr) (some u.addr) = .ok { h with
        value := Function.update (Function.update h.value t.addr (some u.value)) u.addr
          (some t.value)
        child := Function.update (Function.update h.child t.addr u.kids.head) u.addr
          t.kids.head
        parent := P } := by
      simp [sortContents, getValue_some hbt.value, getValue_some hbu.value, hlt, hswap]
    have hp : (t.move u.addr :: u.move t.addr :: us).Perm
      (u.move t.addr :: t.move u.addr :: us) := .swap _ _ us
    refine ⟨_, u.move t.addr, t.move u.addr, hsort, ⟨rfl, hrank.symm⟩, ⟨rfl, hrank⟩, hlt.le,
      ⟨?_, ?_, hold.links, ?_, ?_⟩, ⟨hl.links, hl.perm, hl.head, ?_⟩⟩
    · refine Stored.perm ?_ (hp.symm.append_right olds)
      exact hold.stored.exchange hrank rfl rfl rfl rfl rfl
    · exact hold.contents
    · intro a ha
      have hnot := hold.apart a ha
      have hv : _ = h.value a := hother (fun heq => hnot (heq ▸ addr_mem_cells (by simp)))
        fun heq => hnot (heq ▸ addr_mem_cells (by simp))
      exact (congrArg Option.isSome hv).trans (hold.live a ha)
    · exact fun a ha hmem => hold.apart a ha
        ((cells_exchange t u us).mem_iff.mp ((cells_perm hp).mem_iff.mp hmem))
    · -- The first root is neither of the two: its value is the least one.
      intro m hm
      refine (hother (fun heq => ?_) fun heq => ?_).trans (hl.least m hm)
      · exact hnotMem (heq ▸ List.mem_of_mem_head? hm)
      · have hv := hbu.value.symm.trans (heq ▸ hl.least m hm)
        exact absurd (Option.some.inj hv ▸ hlt) (not_lt_of_ge hle)
  · refine ⟨h, t, u, ?_, ⟨rfl, rfl⟩, ⟨rfl, rfl⟩, le_of_not_gt hlt, ?_, hl⟩
    · simp [sortContents, getValue_some hbt.value, getValue_some hbu.value, hlt]
    · exact hold.perm (.swap u t us)

/-- A tree that is not listed becomes the first child of a root of its rank. -/
theorem adopt_spec (hold : Holding V h (u :: t :: us) olds os)
    (hl : Listed v₀ h min_node (u :: us) as) (hrank : t.rank = u.rank)
    (hle : u.value ≤ t.value) (hnotMem : t.addr ∉ as) :
    ∃ h₁, adopt h (some t.addr) (some u.addr) = .ok h₁ ∧
      MayOverflow V (h₁.doubleDegree (some u.addr)) fun h₂ =>
        Holding V h₂ (u.link t hrank hle :: us) olds os ∧
        Listed v₀ h₂ min_node (u.link t hrank hle :: us) as ∧ u.rank + 1 < 31 := by
  have hbt := hold.stored.body t (by simp)
  have hbu := hold.stored.body u (by simp)
  obtain ⟨L, P, hadopt, hL⟩ := adopt_eq (Heap.live_of_value hbt.value)
    (Heap.live_of_value hbu.value) fun k hk => hbu.live_head k (hbu.child ▸ hk)
  refine ⟨_, hadopt, (hold.double (.refl _) hrank hle hL).weaken ?_⟩
  rintro h₂ ⟨rfl, hfit⟩
  refine ⟨hold.link (.refl _) hrank hle hL, ?_, hfit⟩
  refine hl.link (.refl _) hold.stored (fun r hr => ?_) hrank hle hnotMem hL
  rcases List.mem_cons.mp hr with rfl | hr
  · simp
  · simp [hr]

/-- A tree of a rank that is there already is joined with its root. -/
theorem mergeRoot_spec {tree_size : List Ptr} (hold : Holding V h (t :: rs) olds os)
    (hl : Listed v₀ h min_node rs as) (hslots : Slots tree_size rs)
    (hlen : tree_size.length = 2 + Nat.log2 V.card) (hu : u ∈ rs) (hrank : u.rank = t.rank)
    (hnotMem : t.addr ∉ as) (hleast : ∀ v ∈ V, v₀ ≤ v) (hfits : Fits rs) :
    MayOverflow V (mergeRoot ⟨h, min_node, tree_size⟩ (some t.addr) (some u.addr)
        (t.rank + 1)) fun c' =>
      ∃ rs' as', as' ≠ [] ∧ Merged V v₀ c' rs' olds os as' ∧ Fits rs' := by
  obtain ⟨us, hus⟩ := exists_perm_cons hu
  have hl' : Listed v₀ h min_node (u :: us) as :=
    ⟨hl.links, ((hus.map Tree.addr).symm).trans hl.perm, hl.head, hl.least⟩
  obtain ⟨h₁, t', u', hsort, ⟨ht', htr⟩, ⟨hu', hur⟩, hle, hold₁, hl₁⟩ :=
    sortContents_spec (hold.perm (hus.cons t)) hl' hrank.symm hnotMem
      (hleast _ (hold.value_mem (by simp)))
  have hranks : t'.rank = u'.rank := by omega
  -- There is a root, so there is a first one, and it has the least value.
  obtain ⟨m, rfl⟩ : ∃ m, min_node = some m := by
    rw [hl.head, List.head?_eq_some_head (List.ne_nil_of_mem (hl.mem hu))]
    exact ⟨_, rfl⟩
  have hmin := hl₁.value_of_min rfl
  have hlower {w : Tree Addr T} (hw : w ∈ u' :: t' :: us ++ olds) :
      lowerMin h₁ (some m) (some w.addr) = .ok (some m) :=
    lowerMin_eq hmin (hold₁.stored.body w hw).value (hleast _ (hold₁.value_mem hw))
  -- both tests for a new minimum fail, and the copy becomes a child
  obtain ⟨h₂, hadopt, hdouble⟩ := adopt_spec hold₁ hl₁ hranks hle (ht' ▸ hnotMem)
  have hslot : t.rank + 1 < tree_size.length := hlen ▸ hold.slot_lt (by simp)
  have hslots' : Slots (tree_size.set (t.rank + 1) none) us := by
    rw [← hrank]
    refine (hslots.perm hus).clear fun w hw => ?_
    exact (hold.stored.tail.perm (hus.append_right olds)).addr_ne
      (List.mem_append_left olds hw)
  have hturn : mergeRoot ⟨h, some m, tree_size⟩ (some t.addr) (some u.addr) (t.rank + 1) =
      h₂.doubleDegree (some u'.addr) >>= fun h₃ =>
        carry ((tree_size.set (t.rank + 1) none).length + 1)
          ⟨h₃, some m, tree_size.set (t.rank + 1) none⟩ (some u'.addr) (u'.rank + 1 + 1) := by
    have hlow₁ := hlower (w := t') (by simp)
    have hlow₂ := hlower (w := u') (by simp)
    rw [ht'] at hlow₁ hadopt
    rw [hu'] at hlow₂ hadopt
    rw [show u'.rank + 1 + 1 = t.rank + 1 + 1 by omega, hu']
    simp only [mergeRoot, hsort, hlow₁, hlow₂, hadopt, writeSlot_eq hslot, ok_bind]
  rw [hturn]
  have hfuel : (tree_size.set (t.rank + 1) none).length <
      (tree_size.set (t.rank + 1) none).length + 1 + (u'.rank + 1 + 1) := by omega
  refine hdouble.bind fun h₃ ⟨hold₃, hl₃, hfit⟩ => ?_
  refine (carry_spec (n := u'.link t' hranks hle) hold₃ hl₃ hslots' ?_
    (Nat.le_add_left 1 u'.rank) hfuel hleast ?_).weaken ?_
  · rw [List.length_set, hlen]
  · rintro r (_ | ⟨_, hr⟩)
    · exact hfit
    · exact hfits r (hus.mem_iff.mpr (List.mem_cons_of_mem u hr))
  · rintro c' ⟨hmin', rs', as', hmerged, hfits'⟩
    refine ⟨rs', as', ?_, hmerged, hfits'⟩
    rintro rfl
    nomatch hmin'.symm.trans hmerged.listed.head

/-- **ONE ROOT** of the old list is added to the new ones. -/
theorem consolidateRoot_spec {c : Consol T}
    (hm : Merged V v₀ c rs (t :: olds) ((t :: olds).map Tree.addr) as)
    (hleast : ∀ v ∈ V, v₀ ≤ v) (hfirst : as = [] → t.value = v₀) (hfits : Fits (t :: rs)) :
    MayOverflow V (consolidateRoot c (some t.addr)) fun c' => ∃ rs' as', as' ≠ [] ∧
      Merged V v₀ c' rs' olds ((t :: olds).map Tree.addr) as' ∧ Fits rs' := by
  obtain ⟨h, hcopy, hdegree, hright, hnotMem, hold, hl⟩ := copy_spec hm
  have hlt : t.rank + 1 < c.tree_size.length :=
    hm.length ▸ hold.slot_lt (t := t.move c.heap.next) (by simp)
  obtain ⟨p, hp⟩ : ∃ p, c.tree_size[t.rank + 1]? = some p :=
    ⟨_, List.getElem?_eq_getElem hlt⟩
  have hle : v₀ ≤ t.value := hleast _ (hold.value_mem (t := t.move c.heap.next) (by simp))
  cases p with
  | none =>
      obtain ⟨c', as', hadd, hne, hmerged⟩ := addRoot_spec (t := t.move c.heap.next) hold hl
        hm.slots hm.length hp hnotMem hright hle hfirst
      refine .inl ⟨c', ?_, _, as', hne, hmerged, ?_⟩
      · simp only [consolidateRoot, hcopy, hdegree, ok_bind, Nat.log2_two_pow,
          Nat.add_comm 1 t.rank, readSlot_eq hp, if_true]
        exact hadd
      · rintro r (_ | ⟨_, hr⟩)
        · exact hfits t (List.mem_cons_self ..)
        · exact hfits r (List.mem_cons_of_mem t hr)
  | some a =>
      obtain ⟨u, hu, rfl, hrank⟩ := (hm.slots _ _).mp hp
      have hmerge := mergeRoot_spec (t := t.move c.heap.next) hold hl hm.slots hm.length hu
        (Nat.succ.inj hrank) hnotMem hleast fun r hr => hfits r (List.mem_cons_of_mem t hr)
      simp only [consolidateRoot, hcopy, hdegree, ok_bind, Nat.log2_two_pow,
        Nat.add_comm 1 t.rank, readSlot_eq hp, reduceCtorEq, if_false]
      exact hmerge

/-! ## The loop -/

/-- The old node in front of the next root is deleted. -/
theorem dropLeft_spec {c : Consol T} {a : Addr}
    (hm : Merged V v₀ c rs olds (a :: olds.map Tree.addr) as) (ha : a ∉ cells olds) :
    ∃ h, dropLeft c.heap (olds.map Tree.addr).head? = .ok h ∧
      Merged V v₀ { c with heap := h } rs olds (olds.map Tree.addr) as := by
  obtain ⟨hold, hl, hslots, hlen⟩ := hm
  cases olds with
  | nil =>
      -- the last old node has no right neighbour, and is left undeleted
      exact ⟨c.heap, rfl, ⟨hold.stored, hold.contents, .nil, nofun, nofun⟩, hl, hslots, hlen⟩
  | cons u olds =>
      have hu : (c.heap.value u.addr).isSome := hold.live u.addr (by simp)
      have hva : (c.heap.value a).isSome := hold.live a (by simp)
      have hlinks : Linked c.heap.left c.heap.right ([] ++ a :: (u :: olds).map Tree.addr) :=
        hold.links
      have hleft : c.heap.left u.addr = some a := hlinks.seg.2.2.1
      have hna : u.addr ≠ a := fun heq => ha (heq ▸ addr_mem_cells (List.mem_cons_self ..))
      have hcells {y : Addr} (hy : y ∈ cells (rs ++ u :: olds)) : y ≠ a := by
        rintro rfl
        rw [cells_append] at hy
        exact (List.mem_append.mp hy).elim (hold.apart y (by simp)) ha
      have has {y : Addr} (hy : y ∈ as) : y ∈ cells rs := by
        obtain ⟨r, hr, rfl⟩ := hl.exists_root hy
        exact addr_mem_cells hr
      refine ⟨{ c.heap with value := Function.update c.heap.value a none,
                            left := Function.update c.heap.left u.addr none }, ?_,
        ⟨?_, hold.contents, ?_, ?_, ?_⟩, ⟨?_, hl.perm, hl.head, ?_⟩, hslots, hlen⟩
      · simp [dropLeft, Heap.delete, hu, hva, hleft, hna]
      · refine hold.stored.congr le_rfl (fun y hy => ⟨?_, rfl, rfl⟩) fun _ _ _ _ => rfl
        exact Function.update_of_ne (hcells hy) ..
      · refine hlinks.unlink (fun y hy => ?_) fun _ _ => rfl
        by_cases heq : y = u.addr
        · rw [heq]
          simp
        · have hne : ¬ ((u :: olds).map Tree.addr).head? = some y :=
            fun hhead => heq (Option.some.inj hhead).symm
          rw [if_neg hne]
          exact Function.update_of_ne heq ..
      · intro y hy
        obtain ⟨r, hr, rfl⟩ := List.mem_map.mp hy
        have hne := hcells (addr_mem_cells (List.mem_append_right rs hr))
        exact (congrArg Option.isSome (Function.update_of_ne hne ..)).trans
          (hold.live _ (List.mem_cons_of_mem a hy))
      · exact fun y hy => hold.apart y (List.mem_cons_of_mem a hy)
      · refine hl.links.congr (fun y hy => Function.update_of_ne ?_ ..) fun _ _ => rfl
        exact fun heq => hold.apart u.addr (by simp) (heq ▸ has hy)
      · intro m hm
        refine (Function.update_of_ne (fun heq => ?_) ..).trans (hl.least m hm)
        exact hold.apart a (List.mem_cons_self ..) (heq ▸ has (List.mem_of_mem_head? hm))

/-- **THE LOOP OF `consolidate`.**  The new list begins with the least value, as
    the old one does. -/
theorem consolidateLoop_spec {fuel : Nat} {c : Consol T}
    (hm : Merged V v₀ c rs olds (olds.map Tree.addr) as) (hleast : ∀ v ∈ V, v₀ ≤ v)
    (hfirst : as = [] → ∃ t, olds.head? = some t ∧ t.value = v₀)
    (hfits : Fits (olds ++ rs)) (hfuel : olds.length < fuel) :
    MayOverflow V (consolidateLoop fuel c (olds.map Tree.addr).head?) fun c' =>
      ∃ rs' as', as' ≠ [] ∧ Merged V v₀ c' rs' [] [] as' ∧ Fits rs' := by
  induction fuel generalizing c rs olds as with
  | zero => nomatch hfuel
  | succ fuel ih =>
      cases olds with
      | nil =>
          refine .ok ⟨rs, as, fun hnil => ?_, hm, hfits⟩
          obtain ⟨t, ht, -⟩ := hfirst hnil
          nomatch ht
      | cons t olds =>
          have hfirst' (hnil : as = []) : t.value = v₀ := by
            obtain ⟨u, hu, hvalue⟩ := hfirst hnil
            obtain rfl : t = u := Option.some.inj hu
            exact hvalue
          have hroot := consolidateRoot_spec hm hleast hfirst' fun r hr => hfits r (by
            rcases List.mem_cons.mp hr with rfl | hr
            · simp
            · simp [hr])
          have hnotMem : t.addr ∉ cells olds := fun hmem =>
            (hm.hold.stored.perm List.perm_middle).addr_notMem.2
              (by rw [cells_append]; exact List.mem_append_right _ hmem)
          refine hroot.bind fun c₁ ⟨rs₁, as₁, hne, hm₁, hfits₁⟩ => ?_
          obtain ⟨h₂, hdrop, hm₂⟩ := dropLeft_spec hm₁ hnotMem
          have hvt : (c₁.heap.value t.addr).isSome := hm₁.hold.live t.addr (by simp)
          have hright : c₁.heap.right t.addr = (olds.map Tree.addr).head? :=
            hm₁.hold.links.at_head.2
          simp only [getRight_some hvt, hright, hdrop, ok_bind]
          -- from here on there is a new root, and the side condition is void
          refine ih hm₂ (fun hnil => absurd hnil hne) (fun r hr => ?_)
            (Nat.lt_of_succ_lt_succ hfuel)
          rcases List.mem_append.mp hr with hr | hr
          · exact hfits r (by simp [hr])
          · exact hfits₁ r hr

/-- No two of the new roots have one rank: they would share a slot. -/
theorem Merged.nodup_rank {c : Consol T} (hm : Merged V v₀ c rs olds os as) :
    (rs.map Tree.rank).Nodup := by
  have hnd : (rs.map Tree.addr).Nodup := hm.listed.perm.nodup_iff.mpr hm.listed.links.nodup
  refine List.Nodup.map_on (fun x hx y hy hrank => ?_) (.of_map _ hnd)
  refine List.inj_on_of_nodup_map hnd hx hy ?_
  have hslot := (hm.slots _ _).mpr ⟨x, hx, rfl, rfl⟩
  rw [(hm.slots _ _).mpr ⟨y, hy, rfl, congrArg Nat.succ hrank.symm⟩] at hslot
  exact (Option.some.inj (Option.some.inj hslot)).symm

end Roots

/-- The trees `ts`, with their roots linked in this order. -/
structure Rooted (h : Heap T) (ts : List (Tree Addr T)) : Prop where
  stored : Stored h ts
  links : Linked h.left h.right (ts.map Tree.addr)

/-- **`consolidate`** keeps the values and the least one in front, and leaves one
    root for each rank. -/
theorem consolidate_spec {h : Heap T} {t : Tree Addr T} {ts : List (Tree Addr T)}
    {size_ : UInt64} (hr : Rooted h (t :: ts))
    (hleast : ∀ v ∈ contents (t :: ts), t.value ≤ v)
    (hsize : size_.toNat = (contents (t :: ts)).card) (hfits : Fits (t :: ts)) :
    MayOverflow (contents (t :: ts)) (consolidate h (some t.addr) size_) fun (h', min_node) =>
      ∃ r rs, min_node = some r.addr ∧ Rooted h' (r :: rs) ∧
        contents (r :: rs) = contents (t :: ts) ∧ r.value = t.value ∧
        ((r :: rs).map Tree.rank).Nodup ∧ Fits (r :: rs) := by
  have hm : Merged (contents (t :: ts)) t.value
      ⟨h, none, List.replicate (1 + (1 + Nat.log2 size_.toNat)) none⟩ [] (t :: ts)
      ((t :: ts).map Tree.addr) [] := by
    refine ⟨⟨hr.stored, rfl, hr.links, hr.stored.live_roots, nofun⟩,
      ⟨.nil, .refl _, rfl, nofun⟩, slots_replicate _, ?_⟩
    rw [List.length_replicate, hsize]
    omega
  have hloop := consolidateLoop_spec hm hleast (fun _ => ⟨t, rfl, rfl⟩)
    (by rwa [List.append_nil]) (Nat.lt_succ_of_le hr.stored.length_le)
  refine hloop.bind fun c ⟨rs, as, hne, hm', hfits'⟩ => .ok ?_
  -- The new roots in the order of their list.
  obtain ⟨rs', rfl, hp⟩ : ∃ rs' : List (Tree Addr T), as = rs'.map Tree.addr ∧ rs'.Perm rs := by
    have hperm := hm'.listed.perm.symm
    rwa [← congrFun₂ (List.eq_map_comp_perm Tree.addr) as rs] at hperm
  cases rs' with
  | nil => exact absurd rfl hne
  | cons r rs' =>
      have hp' : (rs ++ []).Perm (r :: rs') := by
        rw [List.append_nil]
        exact hp.symm
      have hmin : c.min_node = some r.addr := hm'.listed.head
      have hs := hm'.hold.stored.perm hp'
      refine ⟨r, rs', hmin, ⟨hs, hm'.listed.links⟩, ?_, ?_, ?_, fun u hu => ?_⟩
      · exact (contents_perm hp').symm.trans hm'.hold.contents
      · have hv := (hs.body r (List.mem_cons_self ..)).value
        exact Option.some.inj (hv.symm.trans (hm'.listed.least r.addr rfl))
      · exact ((hp.map Tree.rank).nodup_iff).mpr hm'.nodup_rank
      · exact hfits' u (hp.mem_iff.mp hu)

end PriorityQueue
