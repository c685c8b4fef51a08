import UniqueFreshman.SetHeapRefinementProofs

/-! # The memory of the set — what is allocated, given back and leaked

    `insert` allocates a node for a new value only, and `clear` gives back every
    node of the tree once.  `erase` gives back one node where the node with the
    value has a right child; where it has none, `return nullptr` drops the node
    without a `delete`.  So the nodes that are live after any calls are one for
    each element, and one for each of those calls of `erase`. -/

namespace SetHeap

open StoredTree StoredTree.Placed SetTree CallSequence SortedList

variable {T : Type} {s s' : Heap T} {t t' l r : Placed (Label T)} {a : Addr} {x : Label T}

/-- A node of the tree is a cell of the heap. -/
theorem length_addrs (t : Placed (Label T)) : t.addrs.length = nodes (tree t) := by
  induction t with
  | null => rfl
  | node a x l r ihl ihr =>
      rw [addrs, List.length_cons, List.length_append, ihl, ihr]
      show _ = nodes (tree l) + 1 + nodes (tree r)
      omega

/-! ## `freeSubtree` -/

/-- A child that is freed behind a null test. -/
theorem freeSubtree_guarded {fuel : Nat} {p : Ptr} (h : freeSubtree fuel s p = .ok s')
    (k : Heap T → Except Fault (Heap T)) :
    (if p ≠ none then freeSubtree fuel s p >>= k else pure s >>= k) = k s' := by
  cases p with
  | none =>
      cases fuel with
      | zero => cases h
      | succ fuel =>
          cases h
          rfl
  | some a =>
      rw [if_pos (Option.some_ne_none a), h]
      rfl

/-- **FREESUBTREE** gives back the nodes of the tree, each of them once. -/
theorem freeSubtree_root {fuel : Nat} (hs : Stores s t) (hfuel : t.addrs.length < fuel) :
    ∃ s', freeSubtree fuel s t.root = .ok s' ∧
      ∀ b, s'.cell b = if b ∈ t.addrs then none else s.cell b := by
  induction t generalizing s fuel with
  | null =>
      obtain ⟨fuel, rfl⟩ := Nat.exists_eq_succ_of_ne_zero (by omega : fuel ≠ 0)
      exact ⟨s, rfl, fun b => rfl⟩
  | node a x l r ihl ihr =>
      obtain ⟨fuel, rfl⟩ := Nat.exists_eq_succ_of_ne_zero (by omega : fuel ≠ 0)
      rw [addrs, List.length_cons, List.length_append] at hfuel
      obtain ⟨hcell, hal, har, hdisj, hl, hr⟩ := stores_node.mp hs
      obtain ⟨s₁, hfree₁, h₁⟩ := ihl hl (show l.addrs.length < fuel by omega)
      -- the node and its right child are still there
      have hcell₁ : s₁.cell a = some ⟨x, l.root, r.root⟩ := by rw [h₁, if_neg hal, hcell]
      have hr₁ : Stores s₁ r := hr.congr fun b hb => by rw [h₁, if_neg fun hbl => hdisj hbl hb]
      obtain ⟨s₂, hfree₂, h₂⟩ := ihr hr₁ (show r.addrs.length < fuel by omega)
      have hcell₂ : s₂.cell a = some ⟨x, l.root, r.root⟩ := by rw [h₂, if_neg har, hcell₁]
      refine ⟨s₂.free a, ?_, fun b => ?_⟩
      · simp only [root_node, freeSubtree, reduceCtorEq, if_false, deref, hcell, ok_bind,
          freeSubtree_guarded hfree₁, hcell₁, freeSubtree_guarded hfree₂, delete, hcell₂,
          Option.isSome_some, if_true]
      · by_cases hba : b = a
        · rw [if_pos (hba ▸ List.mem_cons_self), hba, Heap.cell_free_self]
        · rw [addrs, Heap.cell_free_of_ne hba, h₂, h₁]
          simp only [List.mem_cons, hba, List.mem_append, false_or]
          by_cases hbr : b ∈ r.addrs <;> by_cases hbl : b ∈ l.addrs <;> simp [hbr, hbl]

/-- So that many cells are live afterwards. -/
theorem card_live_freed (hs : Stores s t)
    (h : ∀ b, s'.cell b = if b ∈ t.addrs then none else s.cell b) :
    s'.live.card + t.addrs.length = s.live.card := by
  have hlive : s'.live = s.live \ t.addrs.toFinset := by
    ext b
    rw [Finset.mem_sdiff, Heap.mem_live, Heap.mem_live, List.mem_toFinset, h]
    by_cases hb : b ∈ t.addrs <;> simp [hb]
  have hsub : t.addrs.toFinset ⊆ s.live := by
    intro b hb
    exact Heap.mem_live.mpr (hs.live (List.mem_toFinset.mp hb))
  rw [hlive, ← List.toFinset_card_of_nodup hs.nodup, Finset.card_sdiff_add_card_eq_card hsub]

/-! ## `count` and `insert` -/

section Ordered

variable [LinearOrder T] {value : T}

/-- `count` reads the heap as it reads the tree. -/
theorem countFrom_root {fuel : Nat} {n : UInt64} (hs : Stores s t) (hfuel : t.addrs.length < fuel)
    (h : SetTree.countFrom value (tree t) = .ok n) : countFrom s value fuel t.root = .ok n := by
  induction t generalizing fuel with
  | null =>
      obtain ⟨fuel, rfl⟩ := Nat.exists_eq_succ_of_ne_zero (by omega : fuel ≠ 0)
      exact h
  | node a x l r ihl ihr =>
      obtain ⟨fuel, rfl⟩ := Nat.exists_eq_succ_of_ne_zero (by omega : fuel ≠ 0)
      rw [addrs, List.length_cons, List.length_append] at hfuel
      rw [tree, SetTree.countFrom] at h
      simp only [root_node, countFrom, reduceCtorEq, if_false, deref_root hs, ok_bind]
      split at h
      · next hlt =>
          rw [if_pos hlt]
          exact ihl hs.left (by omega) h
      · next hlt =>
          rw [if_neg hlt]
          split at h
          · next heq =>
              rw [if_pos heq]
              exact h
          · next heq =>
              rw [if_neg heq]
              exact ihr hs.right (by omega) h

/-- The node that `insert` allocates: one, if the search for the value ends at a
    null pointer. -/
def allocated (value : T) : SetTree.Tree T → Int
  | .null | .freed => 1
  | .node _ v l r =>
      if value < v then allocated value l
      else if value = v then 0
      else allocated value r

/-- **INSERT.** -/
theorem insert_mirrors {fuel : Nat} (hs : Stores s t) (hfuel : t.addrs.length < fuel) :
    Mirrors (fun s' t' => Becomes (allocated value (tree t)) s s' t t')
      (SetTree.insert value (tree t)) (insert value fuel s t.root) := by
  induction t generalizing s fuel with
  | null =>
      obtain ⟨fuel, rfl⟩ := Nat.exists_eq_succ_of_ne_zero (by omega : fuel ≠ 0)
      exact .pure (t := .node s.next ⟨value, .red⟩ .null .null) (becomes_alloc s _)
  | node a x l r ihl ihr =>
      obtain ⟨fuel, rfl⟩ := Nat.exists_eq_succ_of_ne_zero (by omega : fuel ≠ 0)
      rw [addrs, List.length_cons, List.length_append] at hfuel
      simp only [root_node, insert, reduceCtorEq, if_false, deref_root hs, ok_bind, tree,
        SetTree.insert, allocated]
      by_cases hlt : value < x.value
      · simp only [if_pos hlt]
        refine (ihl hs.left (by omega)).bind fun s₁ l₁ _ h₁ => ?_
        obtain ⟨s₂, hset, h₂⟩ := setLeft_child hs h₁
        simp only [hset, ok_bind]
        exact (insertFix_mirrors h₂.stores).weaken fun _ _ => h₂.keep
      · simp only [if_neg hlt]
        by_cases hgt : value > x.value
        · simp only [if_pos hgt, if_neg hgt.ne']
          refine (ihr hs.right (by omega)).bind fun s₁ r₁ _ h₁ => ?_
          obtain ⟨s₂, hset, h₂⟩ := setRight_child hs h₁
          simp only [hset, ok_bind]
          exact (insertFix_mirrors h₂.stores).weaken fun _ _ => h₂.keep
        · simp only [if_neg hgt, if_pos (le_antisymm (not_lt.mp hgt) (not_lt.mp hlt))]
          exact insertFix_mirrors hs

/-! ## The public functions -/

/-- The set on the heap is the set of trees. -/
structure Represents (s : Set T) (m : SetTree.Set T) : Prop where
  placed : ∃ t, Stores s.heap t ∧ s.root = t.root ∧ tree t = m.root
  size_eq : s.size_ = m.size_

variable {q : Set T} {m m' : SetTree.Set T}

omit [LinearOrder T] in
theorem represents_fresh : Represents (Set.fresh : Set T) SetTree.Set.fresh :=
  ⟨⟨.null, stores_null, rfl, rfl⟩, rfl⟩

/-- The public `count` agrees. -/
theorem Represents.count {n : UInt64} (h : Represents q m) (hn : m.count value = .ok n) :
    q.count value = .ok n := by
  obtain ⟨t, hs, hroot, htree⟩ := h.placed
  rw [Set.count, hroot]
  refine countFrom_root hs (Nat.lt_succ_of_le hs.length_le) ?_
  rw [htree]
  exact hn

/-- The public `insert` agrees, and allocates a cell unless the value is there. -/
theorem Represents.insert (h : Represents q m) (hm : m.insert value = .ok m') :
    ∃ q', q.insert value = .ok q' ∧ Represents q' m' ∧
      (q'.heap.live.card : Int) = q.heap.live.card + allocated value m.root := by
  obtain ⟨t, hs, hroot, htree⟩ := h.placed
  obtain ⟨found, hfound, hm⟩ := bind_eq_ok.mp hm
  obtain ⟨u, hinsert, hm⟩ := bind_eq_ok.mp hm
  obtain ⟨u', hblack, hm⟩ := bind_eq_ok.mp hm
  cases hm
  rw [← htree] at hinsert
  obtain ⟨s₁, t₁, heval, rfl, h₁⟩ :=
    insert_mirrors hs (Nat.lt_succ_of_le hs.length_le) u hinsert
  cases t₁ with
  | null => cases hblack
  | node a x l r =>
      cases hblack
      obtain ⟨s₂, hset, h₂⟩ := setColor_root h₁.stores .black
      refine ⟨⟨s₂, q.size_ + (if found = 0 then 1 else 0), some a⟩, ?_,
        ⟨⟨_, h₂.stores, rfl, rfl⟩, ?_⟩, ?_⟩
      · simp only [Set.insert, h.count hfound, hroot, Set.fuel, heval, ok_bind, root_node, hset]
        rfl
      · rw [h.size_eq]
      · rw [(h₁.keep h₂).live, htree]

/-- The public `erase` agrees, and frees a cell unless the value is missing or its node has no
    right child. -/
theorem Represents.erase {n : UInt64} (h : Represents q m) (hsorted : StrictSorted (toList m.root))
    (hm : m.erase value = .ok (m', n)) :
    ∃ q', q.erase value = .ok (q', n) ∧ Represents q' m' ∧
      (q'.heap.live.card : Int) =
        q.heap.live.card + (if n = 0 ∨ bare value m.root then 0 else -1) := by
  obtain ⟨t, hs, hroot, htree⟩ := h.placed
  obtain ⟨found, hfound, hm⟩ := bind_eq_ok.mp hm
  by_cases hzero : found = 0
  · rw [if_pos hzero] at hm
    cases hm
    refine ⟨{ q with size_ := q.size_ - n }, ?_, ⟨⟨t, hs, hroot, htree⟩, ?_⟩, ?_⟩
    · simp only [Set.erase, h.count hfound, ok_bind, if_pos hzero]
      rfl
    · rw [h.size_eq]
    · rw [if_pos (.inl hzero), add_zero]
  · rw [if_neg hzero] at hm
    obtain ⟨u, herase, hm⟩ := bind_eq_ok.mp hm
    have hfuel : nodes m.root ≤ q.fuel := by
      rw [← htree, ← length_addrs]
      exact Nat.le_succ_of_le hs.length_le
    rw [← htree] at herase hsorted
    obtain ⟨s₁, t₁, heval, rfl, h₁⟩ := erase_mirrors (htree ▸ hfuel) hs hsorted u herase
    have hlive : ∀ {s₂ : Heap T} {t₂ : Placed (Label T)}, Becomes 0 s₁ s₂ t₁ t₂ →
        (s₂.live.card : Int) =
          q.heap.live.card + (if found = 0 ∨ bare value m.root then 0 else -1) := by
      intro s₂ t₂ h₂
      rw [(h₁.keep h₂).live, htree]
      cases bare value m.root <;> simp [hzero]
    cases t₁ with
    | null =>
        cases hm
        refine ⟨⟨s₁, q.size_ - n, none⟩, ?_, ⟨⟨.null, stores_null, rfl, rfl⟩, ?_⟩,
          hlive h₁.stores.becomes⟩
        · simp only [Set.erase, h.count hfound, ok_bind, if_neg hzero, hroot, heval]
          rfl
        · rw [h.size_eq]
    | node a x l r =>
        cases hm
        obtain ⟨s₂, hset, h₂⟩ := setColor_root h₁.stores .black
        refine ⟨⟨s₂, q.size_ - n, some a⟩, ?_, ⟨⟨_, h₂.stores, rfl, rfl⟩, ?_⟩, hlive h₂⟩
        · simp only [Set.erase, h.count hfound, ok_bind, if_neg hzero, hroot, heval, root_node,
            reduceCtorEq, if_false, hset]
          rfl
        · rw [h.size_eq]

omit [LinearOrder T] in
/-- **CLEAR** gives back the nodes of the tree. -/
theorem Represents.clear (h : Represents q m) :
    ∃ q', q.clear = .ok q' ∧ q'.heap.live.card + nodes m.root = q.heap.live.card := by
  obtain ⟨t, hs, hroot, htree⟩ := h.placed
  obtain ⟨s', hfree, hcells⟩ := freeSubtree_root hs (Nat.lt_succ_of_le hs.length_le)
  refine ⟨{ q with heap := s', size_ := 0 }, ?_, ?_⟩
  · simp only [Set.clear, Set.fuel, hroot, hfree, ok_bind]
    rfl
  · rw [← htree, ← length_addrs]
    exact card_live_freed hs hcells

/-! ## Sequences of calls -/

/-- The number of nodes a call leaks: one for an `erase` of a value whose node
    has no right child. -/
def leaked (m : SetTree.Set T) : Call T → Nat
  | .erase value => if value ∈ m.elements ∧ bare value m.root then 1 else 0
  | .insert _ | .count _ | .size | .empty | .clear => 0

/-- The number of nodes a sequence of calls leaks. -/
def leaks (m : SetTree.Set T) : List (Call T) → Nat
  | [] => 0
  | c :: cs => leaked m c +
      match m.call c with
      | .ok (m', _) => leaks m' cs
      | .error _ => 0

/-- What `insert` allocates is the node of a new value. -/
theorem allocated_eq {u : SetTree.Tree T} (hs : StrictSorted (toList u)) :
    allocated value u = if value ∈ toList u then 0 else 1 := by
  induction u with
  | null | freed => rfl
  | node c v l r ihl ihr =>
      obtain ⟨hsl, hsr, -, -⟩ := strictSorted_split.mp hs
      rw [allocated]
      rcases lt_trichotomy value v with hlt | rfl | hgt
      · rw [if_pos hlt, ihl hsl]
        simp only [toList_node, mem_left_of_lt hs hlt]
      · simp
      · rw [if_neg (not_lt_of_gt hgt), if_neg (ne_of_gt hgt), ihr hsr]
        simp only [toList_node, mem_right_of_gt hs hgt]

/-- The live cells and the elements, before and after a call: they differ by the
    nodes it leaks. -/
def Accounts (q q' : Set T) (m m' : SetTree.Set T) (n : Nat) : Prop :=
  q'.heap.live.card + m.elements.card = q.heap.live.card + m'.elements.card + n

theorem accounts_insert {q' : Set T} (hm : Sound m)
    (helem : m'.elements = Insert.insert value m.elements)
    (hcells : (q'.heap.live.card : Int) = q.heap.live.card + allocated value m.root) :
    Accounts q q' m m' 0 := by
  rw [allocated_eq hm.sorted] at hcells
  rw [Accounts, helem]
  by_cases hin : value ∈ m.elements
  · rw [if_pos (List.mem_toFinset.mp hin)] at hcells
    rw [Finset.insert_eq_of_mem hin]
    omega
  · rw [if_neg fun hmem => hin (List.mem_toFinset.mpr hmem)] at hcells
    rw [Finset.card_insert_of_notMem hin]
    omega

/-- The books of `erase`: what is not freed is leaked. -/
theorem accounts_erase {q' : Set T} {n : UInt64} (hn : n = if value ∈ m.elements then 1 else 0)
    (helem : m'.elements = m.elements.erase value)
    (hcells : (q'.heap.live.card : Int) =
      q.heap.live.card + (if n = 0 ∨ bare value m.root then 0 else -1)) :
    Accounts q q' m m' (leaked m (.erase value)) := by
  rw [Accounts, helem, leaked]
  by_cases hin : value ∈ m.elements
  · have hpos := Finset.card_pos.mpr ⟨value, hin⟩
    rw [if_pos hin] at hn
    rw [Finset.card_erase_of_mem hin]
    cases hbare : bare value m.root with
    | true =>
        rw [hbare, if_pos (.inr rfl)] at hcells
        rw [if_pos ⟨hin, rfl⟩]
        omega
    | false =>
        rw [hbare, hn, if_neg (by decide)] at hcells
        rw [if_neg fun hbare => Bool.false_ne_true hbare.2]
        omega
  · rw [if_neg hin] at hn
    rw [if_pos (.inl hn)] at hcells
    rw [Finset.erase_eq_of_notMem hin, if_neg fun hbare => hin hbare.1]
    omega

/-- **ONE CALL** but `clear`. -/
theorem Represents.call {c : Call T} {answer : Answer} (h : Represents q m) (hm : Sound m)
    (hc : c ≠ .clear) (hcall : m.call c = .ok (m', answer)) :
    ∃ q', q.call c = .ok (q', answer) ∧ Represents q' m' ∧ Accounts q q' m m' (leaked m c) := by
  cases c with
  | insert value =>
      obtain ⟨m₁, hm₁, hsound, helem⟩ := hm.insert value
      rw [SetTree.Set.call, hm₁] at hcall
      cases hcall
      obtain ⟨q', hq', hrep, hcells⟩ := h.insert hm₁
      refine ⟨q', ?_, hrep, accounts_insert hm helem hcells⟩
      rw [Set.call, hq']
      rfl
  | erase value =>
      obtain ⟨m₁, hm₁, hsound, helem⟩ := hm.erase value
      rw [SetTree.Set.call, hm₁] at hcall
      cases hcall
      obtain ⟨q', hq', hrep, hcells⟩ := h.erase hm.sorted hm₁
      refine ⟨q', ?_, hrep, accounts_erase rfl helem hcells⟩
      rw [Set.call, hq']
      rfl
  | count value =>
      obtain ⟨n, hcount, hcall⟩ := bind_eq_ok.mp hcall
      cases hcall
      refine ⟨q, ?_, h, rfl⟩
      rw [Set.call, h.count hcount]
      rfl
  | size =>
      cases hcall
      refine ⟨q, ?_, h, rfl⟩
      rw [Set.call, h.size_eq]
      rfl
  | empty =>
      cases hcall
      refine ⟨q, ?_, h, rfl⟩
      rw [Set.call, h.size_eq]
      rfl
  | clear => exact absurd rfl hc

/-- **A SEQUENCE OF CALLS** without `clear`. -/
theorem Represents.calls {cs : List (Call T)} (h : Represents q m) (hm : Sound m)
    (hcs : .clear ∉ cs) :
    ∃ q' m' answers, q.calls cs = .ok (q', answers) ∧ Represents q' m' ∧ Sound m' ∧
      m'.elements = (specRun spec m.elements cs).1 ∧ Accounts q q' m m' (leaks m cs) := by
  induction cs generalizing q m with
  | nil => exact ⟨q, m, [], rfl, h, hm, rfl, rfl⟩
  | cons c cs ih =>
      rw [List.mem_cons, not_or] at hcs
      obtain ⟨m₁, answer, hm₁, hsound₁, helem₁, -⟩ := hm.call c (Ne.symm hcs.1)
      obtain ⟨q₁, hq₁, h₁, haccounts₁⟩ := h.call hm (Ne.symm hcs.1) hm₁
      obtain ⟨q', m', answers, hq', h', hsound', helem', haccounts'⟩ := ih h₁ hsound₁ hcs.2
      refine ⟨q', m', answer :: answers, run_cons hq₁ hq', h', hsound', ?_, ?_⟩
      · rw [helem', helem₁]
        rfl
      · have hleaks : leaks m (c :: cs) = leaked m c + leaks m₁ cs := by rw [leaks, hm₁]
        rw [Accounts] at haccounts₁ haccounts' ⊢
        omega

/-- **THE SET ON THE HEAP REFINES A FINITE SET.**  On a fresh set a sequence of
    calls without `clear`, none made on `2 ^ 64` elements or more, dereferences no
    null pointer and no deleted node and gets the answers of a mathematical
    finite set; at its end the nodes below `root` are a left-leaning red-black
    tree, no two links to one node, with the elements in order. -/
theorem heap_refines_finset (cs : List (Call T))
    (hok : Throughout spec (fun elements c => c ≠ .clear ∧ elements.card < 2 ^ 64) ∅ cs) :
    ∃ (q : Set T) (t : Placed (Label T)),
      (Set.fresh : Set T).calls cs = .ok (q, (specRun spec ∅ cs).2) ∧
      q.root = t.root ∧ Stores q.heap t ∧ (∃ n, LLRB .black n (tree t)) ∧
      StrictSorted (toList (tree t)) ∧ (toList (tree t)).toFinset = (specRun spec ∅ cs).1 := by
  obtain ⟨q, hq, m, hrep, hsound, helem⟩ := run_refines
    (I := fun elements q => ∃ m, Represents q m ∧ Sound m ∧ m.elements = elements)
    (fun elements q c ⟨m, hrep, hsound, helem⟩ ⟨hc, hcard⟩ => by
      obtain ⟨m', answer, hcall, hsound', helem', hanswer⟩ := hsound.call c hc
      rw [helem] at helem' hanswer
      obtain ⟨q', hq', hrep', -⟩ := hrep.call hsound hc hcall
      exact ⟨q', hanswer hcard ▸ hq', m', hrep', hsound', helem'⟩)
    ⟨_, represents_fresh, sound_fresh, rfl⟩ hok
  obtain ⟨t, hs, hroot, htree⟩ := hrep.placed
  refine ⟨q, t, hq, hroot, hs, ?_⟩
  rw [htree]
  exact ⟨hsound.balanced, hsound.sorted, helem⟩

theorem heap_refines_finset_of_ten_calls :
    ∃ (q : Set Nat) (t : Placed (Label Nat)),
      (Set.fresh : Set Nat).calls
        [.insert 2, .insert 1, .insert 3, .insert 2, .count 1, .erase 2, .count 2, .size,
          .erase 2, .empty] =
        .ok (q, [.nothing, .nothing, .nothing, .nothing, .number 1, .number 1, .number 0,
          .number 2, .number 0, .truth false]) ∧
      q.root = t.root ∧ Stores q.heap t ∧ (toList (tree t)).toFinset = {1, 3} := by
  obtain ⟨q, t, hq, hroot, hs, -, -, helem⟩ := heap_refines_finset
    [.insert 2, .insert 1, .insert 3, .insert 2, .count 1, .erase 2, .count 2, .size,
      .erase 2, .empty] (by decide)
  exact ⟨q, t, hq, hroot, hs, helem.trans (by decide)⟩

/-- **WHAT ERASE LEAKS.**  After any calls without `clear` there is one live node
    for each element and one for each `erase` of a value whose node had no right
    child, and `clear` gives back all but the latter. -/
theorem erase_leaks_bare_nodes (cs : List (Call T)) (hcs : .clear ∉ cs) :
    ∃ q q' answers, (Set.fresh : Set T).calls cs = .ok (q, answers) ∧
      q.heap.live.card = (specRun spec ∅ cs).1.card + leaks SetTree.Set.fresh cs ∧
      q.clear = .ok q' ∧ q'.heap.live.card = leaks SetTree.Set.fresh cs := by
  obtain ⟨q, m, answers, hq, hrep, hsound, helem, haccounts⟩ :=
    represents_fresh.calls sound_fresh hcs
  have hlive : q.heap.live.card = m.elements.card + leaks SetTree.Set.fresh cs := by
    have hblank : (Set.fresh : Set T).heap.live.card = 0 := rfl
    have hempty : (SetTree.Set.fresh : SetTree.Set T).elements.card = 0 := rfl
    rw [Accounts, hblank, hempty] at haccounts
    omega
  obtain ⟨q', hclear, hfreed⟩ := hrep.clear
  refine ⟨q, q', answers, hq, ?_, hclear, ?_⟩
  · rw [hlive, helem]
    rfl
  · rw [hlive, ← hsound.card_elements] at hfreed
    omega

theorem erase_leaks_bare_nodes_of_three :
    ∃ (q q' : Set Nat) (answers : List Answer),
      (Set.fresh : Set Nat).calls [.insert 1, .insert 2, .insert 3, .erase 2, .erase 3] =
        .ok (q, answers) ∧
      q.heap.live.card = 2 ∧ q.clear = .ok q' ∧ q'.heap.live.card = 1 := by
  obtain ⟨q, q', answers, hq, hlive, hclear, hlive'⟩ := erase_leaks_bare_nodes
    [.insert 1, .insert 2, .insert 3, .erase 2, .erase (3 : Nat)] (by decide)
  have hleaks : leaks (SetTree.Set.fresh : SetTree.Set Nat)
      [.insert 1, .insert 2, .insert 3, .erase 2, .erase 3] = 1 := by decide
  rw [hleaks] at hlive hlive'
  exact ⟨q, q', answers, hq, hlive.trans (by decide), hclear, hlive'⟩

end Ordered

end SetHeap
