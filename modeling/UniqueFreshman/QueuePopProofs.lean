import UniqueFreshman.QueueConsolidateProofs

/-! # The root list in `pop` — children spliced in, the minimum taken out

    `pop` makes the children of `min_node` roots, deletes `min_node`, looks for a
    least root and swaps it to the left end, and consolidates.  Each of these
    steps is a permutation of the row of trees, less the root that is deleted:
    `Rooted h ts` goes in and comes out. -/

namespace PriorityQueue

open BinomialTree LinkedList CallSequence

variable {T : Type} {h : Heap T}

/-! ## Children become roots -/

/-- **THE SPLICING LOOP.**  Each child goes right behind `min_node`, so they end
    up there in the opposite order. -/
theorem spliceChildren_spec {fuel : Nat} {m : Addr} {ks as : List Addr}
    (htrail : Trail h.right ks) (hl : Linked h.left h.right (m :: as))
    (hnd : (ks ++ m :: as).Nodup) (hlive : ∀ a ∈ ks ++ m :: as, h.Live a)
    (hfuel : ks.length < fuel) :
    ∃ L R P, spliceChildren (some m) fuel h ks.head? =
        .ok { h with left := L, right := R, parent := P } ∧
      Linked L R (m :: (ks.reverse ++ as)) ∧
      ∀ y ∉ ks ++ m :: as, R y = h.right y := by
  induction fuel generalizing h ks as with
  | zero => nomatch hfuel
  | succ fuel ih =>
      cases ks with
      | nil => exact ⟨h.left, h.right, h.parent, rfl, hl, fun _ _ => rfl⟩
      | cons k ks =>
          obtain ⟨hnext, htrail'⟩ := htrail
          obtain ⟨hk, hnd'⟩ := List.nodup_cons.mp hnd
          have hvk : (h.value k).isSome := hlive k (by simp)
          have hkl : k ∉ m :: as := fun hmem => hk (List.mem_append_right ks hmem)
          have hne {y : Addr} (hy : y ∈ ks ++ m :: as) : y ≠ k := fun heq => hk (heq ▸ hy)
          have hl₁ : Linked (Function.update h.left k none) (Function.update h.right k none)
              (m :: as) :=
            hl.congr (fun y hy => Function.update_of_ne (hne (List.mem_append_right ks hy)) ..)
              fun y hy => Function.update_of_ne (hne (List.mem_append_right ks hy)) ..
          obtain ⟨L, R, hinsert, hl₂, hframe⟩ := insertRight_spec
            (h := { h with left := Function.update h.left k none,
                           right := Function.update h.right k none })
            hl₁ hkl (fun y hy => hlive y (by grind)) (Function.update_self ..)
          -- the children still to come and the list, with `k` moved over to the list
          have hperm : (ks ++ m :: k :: as).Perm (k :: (ks ++ m :: as)) :=
            (List.Perm.append_left ks (.swap k m as)).trans List.perm_middle
          have hR {y : Addr} (hyk : y ≠ k) (hy : y ∉ m :: as) : R y = h.right y :=
            (hframe y fun hmem => (List.mem_cons.mp hmem).elim hyk hy).2.trans
              (Function.update_of_ne hyk ..)
          have htrail₂ : Trail R ks := htrail'.congr fun y hy =>
            hR (hne (List.mem_append_left _ hy)) (List.disjoint_of_nodup_append hnd' hy)
          obtain ⟨L', R', P', hsplice, hl', hframe'⟩ := ih
            (h := { h with left := L, right := R,
                           parent := Function.update h.parent k none })
            htrail₂ hl₂ (hperm.nodup_iff.mpr hnd)
            (fun a ha => hlive a (hperm.mem_iff.mp ha)) (Nat.lt_of_succ_lt_succ hfuel)
          refine ⟨L', R', P', ?_, ?_, fun y hy => ?_⟩
          · show spliceChildren (some m) (fuel + 1) h (some k) = _
            simp [spliceChildren, hvk, hnext, hinsert, hsplice]
          · rw [List.reverse_cons, List.append_assoc]
            exact hl'
          · obtain ⟨hyk, hrest⟩ := not_or.mp (mt List.mem_cons.mpr hy)
            exact (hframe' y (mt hperm.mem_iff.mp hy)).trans
              (hR hyk fun hmem => hrest (List.mem_append_right ks hmem))

/-! ## The minimum is deleted -/

theorem deleteMinNode_spec {m : Addr} {as : List Addr}
    (hl : Linked h.left h.right (m :: as)) (hlive : ∀ a ∈ m :: as, h.Live a) :
    ∃ L R, deleteMinNode h (some m) = .ok ({ h with
        value := Function.update h.value m none, left := L, right := R }, as.head?) ∧
      Linked L R as ∧ ∀ y ∉ as, R y = h.right y := by
  have hl' : Linked h.left h.right ([] ++ m :: as) := hl
  obtain ⟨L, R, hunlink, hl₁, hframe⟩ := unlink_spec hl' hlive
  have hvm : (h.value m).isSome := hlive m (List.mem_cons_self ..)
  obtain ⟨hLm, hRm⟩ := hframe m (List.nodup_cons.mp hl.nodup).1
  rw [hl.at_head.1] at hLm
  rw [hl.at_head.2] at hRm
  -- `min_node` keeps its own links until it is deleted
  refine ⟨L, R, ?_, hl₁, fun y hy => (hframe y hy).2⟩
  simp only [deleteMinNode, hunlink, ok_bind]
  cases as with
  | nil => simp [Heap.delete, hvm, hLm, hRm]
  | cons a as => simp [Heap.delete, hvm, hLm, hRm]

variable [LinearOrder T] {t : Tree Addr T} {ts ks : List (Tree Addr T)}

/-- The trees below a root. -/
theorem Chain.trees (hc : Chain h (ofTrees ks)) :
    (∀ k ∈ ks, Body h k) ∧ Trail h.right (ks.map Tree.addr) := by
  induction ks with
  | nil => exact ⟨nofun, trivial⟩
  | cons k ks ih =>
      obtain ⟨hv, hd, hch, hr, hkids, hrest⟩ := hc
      obtain ⟨hbody, htrail⟩ := ih hrest
      refine ⟨List.forall_mem_cons.mpr ⟨⟨hv, hd.trans k.size_kids, hch, hkids⟩, hbody⟩, ?_,
        htrail⟩
      exact hr.trans (head_ofTrees ks)

/-- The children of a root, stored without it. -/
theorem Stored.open (hs : Stored h (t :: ts)) (hks : t.kids = ofTrees ks) :
    Stored h (ks ++ ts) ∧ t.addr ∉ cells (ks ++ ts) ∧ Trail h.right (ks.map Tree.addr) := by
  have hnd := hs.nodup
  rw [cells_open hks, List.nodup_cons] at hnd
  have hkids := (hs.body t (List.mem_cons_self ..)).kids
  rw [hks] at hkids
  obtain ⟨hbody, htrail⟩ := hkids.trees
  refine ⟨⟨hnd.2, fun a ha => ?_, fun u hu => ?_⟩, hnd.1, htrail⟩
  · exact hs.bound a (cells_open hks ▸ List.mem_cons_of_mem _ ha)
  · rcases List.mem_append.mp hu with hu | hu
    · exact hbody u hu
    · exact hs.body u (List.mem_cons_of_mem t hu)

/-- **THE FIRST ROOT IS REMOVED**, and its children take its place. -/
theorem removeRoot_spec (hr : Rooted h (t :: ts)) (hks : t.kids = ofTrees ks) :
    ∃ h₁ h₂, spliceChildren (some t.addr) (h.next + 1) h t.kids.head = .ok h₁ ∧
      deleteMinNode h₁ (some t.addr) = .ok (h₂, ((ks.reverse ++ ts).map Tree.addr).head?) ∧
      Rooted h₂ (ks.reverse ++ ts) := by
  obtain ⟨hs, hnotMem, htrail⟩ := hr.stored.open hks
  have hroot {a : Addr} (ha : a ∈ (ks ++ ts).map Tree.addr) : a ∈ cells (ks ++ ts) :=
    (map_addr_sublist _).subset ha
  have hperm : (ks.map Tree.addr ++ t.addr :: ts.map Tree.addr).Perm
      (t.addr :: (ks ++ ts).map Tree.addr) := by
    rw [List.map_append]
    exact List.perm_middle
  have hnd : (t.addr :: (ks ++ ts).map Tree.addr).Nodup :=
    List.nodup_cons.mpr ⟨fun hmem => hnotMem (hroot hmem), hs.nodup_addr⟩
  have hlive (a : Addr) (ha : a ∈ t.addr :: (ks ++ ts).map Tree.addr) : h.Live a := by
    rcases List.mem_cons.mp ha with rfl | ha
    · exact hr.stored.live (List.mem_cons_self ..)
    · exact hs.live_roots a ha
  have hfuel : (ks.map Tree.addr).length < h.next + 1 := by
    have := hs.length_le
    rw [List.length_append] at this
    rw [List.length_map]
    omega
  obtain ⟨L₁, R₁, P, hsplice, hl₁, hframe₁⟩ := spliceChildren_spec htrail hr.links
    (hperm.nodup_iff.mpr hnd) (fun a ha => hlive a (hperm.mem_iff.mp ha)) hfuel
  rw [← List.map_reverse, ← List.map_append] at hl₁
  have hrev : (ks.reverse ++ ts).Perm (ks ++ ts) := (List.reverse_perm ks).append_right ts
  have hlive₁ (a : Addr) (ha : a ∈ t.addr :: (ks.reverse ++ ts).map Tree.addr) : h.Live a :=
    hlive a (((hrev.map Tree.addr).cons t.addr).mem_iff.mp ha)
  obtain ⟨L, R, hdelete, hl₂, hframe₂⟩ := deleteMinNode_spec
    (h := { h with left := L₁, right := R₁, parent := P }) hl₁ hlive₁
  rw [← head_ofTrees, ← hks] at hsplice
  refine ⟨_, _, hsplice, hdelete, ?_, hl₂⟩
  refine Stored.perm ?_ hrev.symm
  refine hs.congr le_rfl (fun a ha => ⟨?_, rfl, rfl⟩) fun u hu a ha => ?_
  · have hne : a ≠ t.addr := fun heq => hnotMem (heq ▸ ha)
    exact Function.update_of_ne hne ..
  · -- A node below a root is neither a root nor the node that is deleted.
    have hne : a ∉ (ks ++ ts).map Tree.addr := fun hmem => by
      obtain ⟨v, hv, rfl⟩ := List.mem_map.mp hmem
      exact hs.root_notMem_kids hv hu ha
    have hmem : a ∈ cells (ks ++ ts) :=
      List.mem_flatMap.mpr ⟨u, hu, List.mem_cons_of_mem _ ha⟩
    refine (hframe₂ a (mt (hrev.map Tree.addr).mem_iff.mp hne)).trans
      (hframe₁ a (mt hperm.mem_iff.mp fun hcons => ?_))
    exact (List.mem_cons.mp hcons).elim (fun heq => hnotMem (heq ▸ hmem)) hne

/-! ## A least root is moved to the left end -/

/-- New links between the roots, in any order. -/
theorem Stored.rooted {us : List (Tree Addr T)} (hs : Stored h ts) (hp : ts.Perm us)
    {L R : Addr → Ptr} (hl : Linked L R (us.map Tree.addr))
    (hframe : ∀ y ∉ ts.map Tree.addr, R y = h.right y) :
    Rooted { h with left := L, right := R } us := by
  refine ⟨Stored.perm (hs.relink fun u hu a ha => hframe a fun hmem => ?_) hp, hl⟩
  obtain ⟨v, hv, rfl⟩ := List.mem_map.mp hmem
  exact hs.root_notMem_kids hv hu ha

/-- `nodeSwap` of the first root and another one. -/
theorem Rooted.swap {u : Tree Addr T} {us vs : List (Tree Addr T)}
    (hr : Rooted h (t :: (us ++ u :: vs))) :
    ∃ h', nodeSwap h (some t.addr) (some u.addr) = .ok h' ∧ Rooted h' (u :: (us ++ t :: vs)) := by
  have hmap : (t :: (us ++ u :: vs)).map Tree.addr =
      [] ++ t.addr :: (us.map Tree.addr ++ u.addr :: vs.map Tree.addr) := by simp
  have hlinks := hr.links
  have hlive := hr.stored.live_roots
  rw [hmap] at hlinks hlive
  obtain ⟨L, R, hswap, hl, hframe⟩ := nodeSwap_spec hlinks hlive
  refine ⟨{ h with left := L, right := R }, hswap,
    hr.stored.rooted (perm_exchange t u us vs) ?_ ?_⟩
  · rw [List.map_cons, List.map_append]
    exact hl
  · exact fun y hy => (hframe y (hmap ▸ hy)).2

/-- The scan ends at a least one of `m` and the trees from `cur` on. -/
theorem scanMin_spec {fuel : Nat} {m : Tree Addr T} (htrail : Trail h.right (ts.map Tree.addr))
    (hbody : ∀ u ∈ m :: ts, Body h u) (hfuel : ts.length < fuel) :
    ∃ u ∈ m :: ts, scanMin h fuel (ts.map Tree.addr).head? (some m.addr) = .ok (some u.addr) ∧
      ∀ v ∈ m :: ts, u.value ≤ v.value := by
  induction fuel generalizing ts m with
  | zero => nomatch hfuel
  | succ fuel ih =>
      cases ts with
      | nil => exact ⟨m, List.mem_cons_self .., rfl, by simp⟩
      | cons t ts =>
          obtain ⟨hnext, htrail'⟩ := htrail
          have hbm := hbody m (by simp)
          have hbt := hbody t (by simp)
          have hvt : (h.value t.addr).isSome := Heap.live_of_value hbt.value
          -- `m'` is the smaller one of the two, and `m` if they are equal.
          obtain ⟨m', hmem, hscan, hmt, hmm⟩ : ∃ m', (m' = t ∨ m' = m) ∧
              scanMin h (fuel + 1) (some t.addr) (some m.addr) =
                scanMin h fuel (ts.map Tree.addr).head? (some m'.addr) ∧
              m'.value ≤ t.value ∧ m'.value ≤ m.value := by
            by_cases hlt : t.value < m.value
            · refine ⟨t, .inl rfl, ?_, le_rfl, hlt.le⟩
              simp only [scanMin, getValue_some hbt.value, getValue_some hbm.value,
                getRight_some hvt, hnext, ok_bind, if_pos hlt]
            · refine ⟨m, .inr rfl, ?_, le_of_not_gt hlt, le_rfl⟩
              simp only [scanMin, getValue_some hbt.value, getValue_some hbm.value,
                getRight_some hvt, hnext, ok_bind, if_neg hlt]
          have hsub (u : Tree Addr T) (hu : u ∈ m' :: ts) : u ∈ m :: t :: ts := by
            rcases List.mem_cons.mp hu with rfl | hu
            · rcases hmem with rfl | rfl <;> simp
            · simp [hu]
          obtain ⟨u, hu, heq, hle⟩ := ih htrail' (fun u hu => hbody u (hsub u hu))
            (Nat.lt_of_succ_lt_succ hfuel)
          have hum' := hle m' (List.mem_cons_self ..)
          refine ⟨u, hsub u hu, hscan.trans heq, fun v hv => ?_⟩
          simp only [List.mem_cons] at hv
          rcases hv with rfl | rfl | hv
          · exact hum'.trans hmm
          · exact hum'.trans hmt
          · exact hle v (List.mem_cons_of_mem m' hv)

/-- **`maintainMin`** swaps a least root to the left end. -/
theorem maintainMin_spec (hr : Rooted h (t :: ts)) :
    ∃ h' u us, maintainMin h (some t.addr) (some t.addr) = .ok (h', some u.addr) ∧
      Rooted h' (u :: us) ∧ (u :: us).Perm (t :: ts) ∧
      ∀ v ∈ t :: ts, u.value ≤ v.value := by
  have hfuel : (t :: ts).length < h.next + 1 := Nat.lt_succ_of_le hr.stored.length_le
  obtain ⟨u, hu, hscan, hle⟩ := scanMin_spec (m := t) hr.links.seg.trail
    (fun v hv => hr.stored.body v (by simpa using hv)) hfuel
  have hscan' : scanMin h (h.next + 1) (some t.addr) (some t.addr) = .ok (some u.addr) := hscan
  have hle' (v : Tree Addr T) (hv : v ∈ t :: ts) : u.value ≤ v.value :=
    hle v (List.mem_cons_of_mem t hv)
  by_cases heq : u = t
  · subst heq
    refine ⟨h, u, ts, ?_, hr, .refl _, hle'⟩
    simp only [maintainMin, hscan', ok_bind, pure_eq_ok,
      nodeSwap_self hr.links hr.stored.live_roots List.mem_cons_self]
  · have hmem : u ∈ ts := by simpa [heq] using hu
    obtain ⟨ys, zs, rfl⟩ := List.append_of_mem hmem
    obtain ⟨h', hswap, hr'⟩ := hr.swap
    refine ⟨h', u, ys ++ t :: zs, ?_, hr', ?_, hle'⟩
    · simp only [maintainMin, hscan', hswap, ok_bind, pure_eq_ok]
    · exact perm_exchange u t ys zs

/-- The last loop of `pop` is at the left end already. -/
theorem walkLeft_spec (hr : Rooted h (t :: ts)) (fuel : Nat) :
    walkLeft h (fuel + 1) (some t.addr) = .ok (some t.addr) := by
  have hvt : (h.value t.addr).isSome := hr.stored.live (List.mem_cons_self ..)
  simp [walkLeft, hvt, hr.links.at_head.1]

end PriorityQueue
