import UniqueFreshman.QueueLinksProofs
import UniqueFreshman.BinomialTreeProofs

/-! # Binomial trees in the heap — what the tree functions do

    `Stored h ts`: the heap has the trees `ts`, in nodes that are pairwise
    different.  Siblings are linked by `right` and found from `child`; the links
    of the roots among themselves are not part of it, so the functions on the
    root list keep it (`Stored.relink`).

    The functions that build trees have a lemma each here: a copied root, two
    roots that exchange their contents, and a root that becomes the first child
    of another one. -/

namespace PriorityQueue

open BinomialTree LinkedList CallSequence

variable {T : Type} {h h' : Heap T}

/-- A list of siblings with all that is below. -/
def Chain (h : Heap T) : Forest Addr T → Prop
  | .nil => True
  | .cons a v kids rest =>
      h.value a = some v ∧ h.degree a = kids.size + 1 ∧ h.child a = kids.head ∧
        h.right a = rest.head ∧ Chain h kids ∧ Chain h rest

/-- The fields that belong to a tree are the same at `a`. -/
def Agree (h h' : Heap T) (a : Addr) : Prop :=
  h'.value a = h.value a ∧ h'.degree a = h.degree a ∧ h'.child a = h.child a

/-- Only its own nodes matter for a forest in the heap. -/
theorem Chain.congr {F : Forest Addr T} (hc : Chain h F) (hagree : ∀ a ∈ F.addrs, Agree h h' a)
    (hright : ∀ a ∈ F.addrs, h'.right a = h.right a) : Chain h' F := by
  induction F with
  | nil => trivial
  | cons a v kids rest ihk ihr =>
      obtain ⟨hv, hd, hch, hr, hkids, hrest⟩ := hc
      have hmem : a ∈ Forest.addrs (.cons a v kids rest) := List.mem_cons_self ..
      obtain ⟨hv', hd', hch'⟩ := hagree a hmem
      have hsub : ∀ b ∈ kids.addrs ++ rest.addrs, b ∈ Forest.addrs (.cons a v kids rest) :=
        fun b hb => List.mem_cons_of_mem a hb
      refine ⟨hv'.trans hv, hd'.trans hd, hch'.trans hch, (hright a hmem).trans hr, ?_, ?_⟩
      · exact ihk hkids (fun b hb => hagree b (hsub b (List.mem_append_left _ hb)))
          fun b hb => hright b (hsub b (List.mem_append_left _ hb))
      · exact ihr hrest (fun b hb => hagree b (hsub b (List.mem_append_right _ hb)))
          fun b hb => hright b (hsub b (List.mem_append_right _ hb))

variable [LinearOrder T]

/-- A root with all that is below. -/
structure Body (h : Heap T) (t : Tree Addr T) : Prop where
  value : h.value t.addr = some t.value
  degree : h.degree t.addr = 2 ^ t.rank
  child : h.child t.addr = t.kids.head
  kids : Chain h t.kids

/-- A row of trees in nodes that are pairwise different. -/
structure Stored (h : Heap T) (ts : List (Tree Addr T)) : Prop where
  nodup : (cells ts).Nodup
  bound : ∀ a ∈ cells ts, a < h.next
  body : ∀ t ∈ ts, Body h t

/-! ## Frames -/

/-- Only its own nodes matter for a tree. -/
theorem Body.congr {t : Tree Addr T} (hb : Body h t) (hagree : ∀ a ∈ t.addrs, Agree h h' a)
    (hright : ∀ a ∈ t.kids.addrs, h'.right a = h.right a) : Body h' t := by
  obtain ⟨hv, hd, hch⟩ := hagree t.addr (List.mem_cons_self ..)
  refine ⟨hv.trans hb.value, hd.trans hb.degree, hch.trans hb.child, ?_⟩
  exact hb.kids.congr (fun a ha => hagree a (List.mem_cons_of_mem _ ha)) hright

/-- The first child of a stored root is live. -/
theorem Body.live_head {t : Tree Addr T} (hb : Body h t) :
    ∀ a, t.kids.head = some a → h.Live a := by
  intro a ha
  have hkids := hb.kids
  cases hF : t.kids with
  | nil => rw [hF] at ha; nomatch ha
  | cons b v kids rest =>
      rw [hF] at ha hkids
      obtain rfl : b = a := Option.some.inj ha
      exact Heap.live_of_value hkids.1

namespace Stored

variable {ts us : List (Tree Addr T)} {t u : Tree Addr T}

/-- The order of the trees does not matter. -/
theorem perm (hs : Stored h ts) (hp : ts.Perm us) : Stored h us :=
  ⟨(cells_perm hp).nodup_iff.mp hs.nodup,
    fun a ha => hs.bound a ((cells_perm hp).mem_iff.mpr ha),
    fun t ht => hs.body t (hp.mem_iff.mpr ht)⟩

theorem tail (hs : Stored h (t :: ts)) : Stored h ts :=
  ⟨(List.nodup_append'.mp hs.nodup).2.1,
    fun a ha => hs.bound a (List.mem_append_right _ ha),
    fun u hu => hs.body u (List.mem_cons_of_mem t hu)⟩

theorem live (hs : Stored h ts) (ht : t ∈ ts) : h.Live t.addr :=
  Heap.live_of_value (hs.body t ht).value

theorem live_roots (hs : Stored h ts) : ∀ a ∈ ts.map Tree.addr, h.Live a := by
  intro a ha
  obtain ⟨t, ht, rfl⟩ := List.mem_map.mp ha
  exact hs.live ht

/-- Different trees have different roots. -/
theorem nodup_addr (hs : Stored h ts) : (ts.map Tree.addr).Nodup :=
  hs.nodup.sublist (map_addr_sublist ts)

/-- There are not more roots than addresses. -/
theorem length_le (hs : Stored h ts) : ts.length ≤ h.next := by
  have hsub : ts.map Tree.addr ⊆ List.range h.next := fun a ha =>
    List.mem_range.mpr (hs.bound a ((map_addr_sublist ts).subset ha))
  have hle := (hs.nodup_addr.subperm hsub).length_le
  rwa [List.length_map, List.length_range] at hle

/-- A root is not a node of another tree, nor below itself. -/
theorem addr_notMem (hs : Stored h (t :: ts)) : t.addr ∉ t.kids.addrs ∧ t.addr ∉ cells ts := by
  obtain ⟨hnd, -, hdisj⟩ := List.nodup_append'.mp hs.nodup
  exact ⟨(List.nodup_cons.mp hnd).1, hdisj (List.mem_cons_self ..)⟩

theorem addr_ne (hs : Stored h (t :: ts)) (hu : u ∈ ts) : u.addr ≠ t.addr :=
  fun heq => hs.addr_notMem.2 (heq ▸ addr_mem_cells hu)

/-- A heap that agrees on the nodes of the trees stores them too. -/
theorem congr (hs : Stored h ts) (hnext : h.next ≤ h'.next)
    (hagree : ∀ a ∈ cells ts, Agree h h' a)
    (hright : ∀ t ∈ ts, ∀ a ∈ t.kids.addrs, h'.right a = h.right a) : Stored h' ts := by
  refine ⟨hs.nodup, fun a ha => lt_of_lt_of_le (hs.bound a ha) hnext, fun t ht => ?_⟩
  exact (hs.body t ht).congr
    (fun a ha => hagree a (List.mem_flatMap.mpr ⟨t, ht, ha⟩)) (hright t ht)

/-- Other links of the roots, and other parents. -/
theorem relink (hs : Stored h ts) {L R P : Addr → Ptr}
    (hright : ∀ t ∈ ts, ∀ a ∈ t.kids.addrs, R a = h.right a) :
    Stored { h with left := L, right := R, parent := P } ts :=
  hs.congr le_rfl (fun _ _ => ⟨rfl, rfl, rfl⟩) hright

/-- The node of a root is not below a root. -/
theorem root_notMem_kids (hs : Stored h ts) (ht : t ∈ ts) (hu : u ∈ ts) :
    t.addr ∉ u.kids.addrs := by
  intro hmem
  obtain ⟨vs, hp⟩ := exists_perm_cons ht
  obtain ⟨hkids, hcells⟩ := (hs.perm hp).addr_notMem
  rcases List.mem_cons.mp (hp.mem_iff.mp hu) with rfl | hu
  · exact hkids hmem
  · exact hcells (List.mem_flatMap.mpr ⟨u, hu, List.mem_cons_of_mem _ hmem⟩)

/-- A new root over children that are there. -/
theorem alloc (hs : Stored h ts) (hkids : Chain h t.kids)
    (hnd : (t.kids.addrs ++ cells ts).Nodup) (hbound : ∀ a ∈ t.kids.addrs, a < h.next) :
    Stored (h.alloc t.value (2 ^ t.rank) t.kids.head) (t.move h.next :: ts) := by
  have hlt (a : Addr) (ha : a ∈ t.kids.addrs ++ cells ts) : a < h.next :=
    (List.mem_append.mp ha).elim (hbound a) (hs.bound a)
  have hagree (a : Addr) (ha : a ∈ t.kids.addrs ++ cells ts) :
      Agree h (h.alloc t.value (2 ^ t.rank) t.kids.head) a := by
    have hne := (hlt a ha).ne
    exact ⟨Function.update_of_ne hne .., Function.update_of_ne hne ..,
      Function.update_of_ne hne ..⟩
  have hright (a : Addr) (ha : a ∈ t.kids.addrs ++ cells ts) :
      (h.alloc t.value (2 ^ t.rank) t.kids.head).right a = h.right a :=
    Function.update_of_ne (hlt a ha).ne ..
  -- the new address is above all that are in use
  refine ⟨List.nodup_cons.mpr ⟨fun hmem => (hlt _ hmem).ne rfl, hnd⟩, ?_, ?_⟩
  · intro a ha
    rcases List.mem_cons.mp ha with rfl | ha
    · exact Nat.lt_succ_self h.next
    · exact Nat.lt_succ_of_lt (hlt a ha)
  · intro u hu
    rcases List.mem_cons.mp hu with rfl | hu
    · refine ⟨Function.update_self .., Function.update_self .., Function.update_self .., ?_⟩
      exact hkids.congr (fun a ha => hagree a (List.mem_append_left _ ha))
        fun a ha => hright a (List.mem_append_left _ ha)
    · have hcells (a : Addr) (ha : a ∈ u.addrs) : a ∈ t.kids.addrs ++ cells ts :=
        List.mem_append_right _ (List.mem_flatMap.mpr ⟨u, hu, ha⟩)
      exact (hs.body u hu).congr (fun a ha => hagree a (hcells a ha))
        fun a ha => hright a (hcells a (List.mem_cons_of_mem _ ha))

/-- **A NEW ROOT** without children. -/
theorem single (hs : Stored h ts) (v : T) :
    Stored (h.alloc v 1 none) (Tree.single h.next v :: ts) :=
  hs.alloc (t := Tree.single h.next v) trivial hs.nodup nofun

/-- **A COPIED ROOT.**  The copy shares the children; the node copied from is no
    longer part of a tree. -/
theorem copy (hs : Stored h (t :: ts)) :
    Stored (h.alloc t.value (2 ^ t.rank) t.kids.head) (t.move h.next :: ts) ∧
      t.addr ∉ cells (t.move h.next :: ts) := by
  obtain ⟨hnotin, hnd⟩ := List.nodup_cons.mp hs.nodup
  have hbound (a : Addr) (ha : a ∈ t.kids.addrs) : a < h.next :=
    hs.bound a (List.mem_cons_of_mem _ (List.mem_append_left _ ha))
  refine ⟨hs.tail.alloc (hs.body t (List.mem_cons_self ..)).kids hnd hbound, fun hmem => ?_⟩
  rcases List.mem_cons.mp hmem with heq | hmem
  · exact (hs.bound t.addr (List.mem_cons_self ..)).ne heq
  · exact hnotin hmem

/-- **A LINK.**  The root of `u` is put in front of the children of `t`. -/
theorem link (hs : Stored h (t :: u :: ts)) (hrank : u.rank = t.rank)
    (hle : t.value ≤ u.value) (hnext : h'.next = h.next) (hvalue : h'.value = h.value)
    (hdegree : h'.degree = Function.update h.degree t.addr (2 ^ (t.rank + 1)))
    (hchild : h'.child = Function.update h.child t.addr (some u.addr))
    (hu : h'.right u.addr = t.kids.head)
    (hright : ∀ v ∈ t :: u :: ts, ∀ a ∈ v.kids.addrs, h'.right a = h.right a) :
    Stored h' (t.link u hrank hle :: ts) := by
  have hperm : (cells (t.link u hrank hle :: ts)).Perm (cells (t :: u :: ts)) := by
    rw [cells_cons, cells_cons, cells_cons, ← List.append_assoc]
    exact (t.addrs_link u hrank hle).append_right _
  obtain ⟨htk, htc⟩ := hs.addr_notMem
  have hbt := hs.body t (by simp)
  have hbu := hs.body u (by simp)
  have hagree (a : Addr) (ha : a ≠ t.addr) : Agree h h' a := by
    rw [Agree, hvalue, hdegree, hchild]
    exact ⟨rfl, Function.update_of_ne ha .., Function.update_of_ne ha ..⟩
  have hut : u.addr ≠ t.addr := hs.addr_ne (List.mem_cons_self ..)
  refine ⟨hperm.nodup_iff.mpr hs.nodup,
    fun a ha => hnext ▸ hs.bound a (hperm.mem_iff.mp ha), fun v hv => ?_⟩
  rcases List.mem_cons.mp hv with rfl | hv
  -- the new tree: its root, then `u` as the first sibling of the old children
  · refine ⟨?_, ?_, ?_, ?_, ?_, ?_, hu, ?_, ?_⟩
    · rw [hvalue]
      exact hbt.value
    · rw [hdegree]
      exact Function.update_self ..
    · rw [hchild]
      exact Function.update_self ..
    · exact (hagree u.addr hut).1.trans hbu.value
    · exact (hagree u.addr hut).2.1.trans (hbu.degree.trans u.size_kids.symm)
    · exact (hagree u.addr hut).2.2.trans hbu.child
    · exact hbu.kids.congr
        (fun a ha => hagree a fun heq => htc (heq ▸ List.mem_append_left _
          (List.mem_cons_of_mem _ ha))) (hright u (by simp))
    · exact hbt.kids.congr (fun a ha => hagree a fun heq => htk (heq ▸ ha))
        (hright t (by simp))
  -- a tree that takes no part in it
  · have hmem : v ∈ u :: ts := List.mem_cons_of_mem u hv
    exact (hs.body v (List.mem_cons_of_mem t hmem)).congr
      (fun a ha => hagree a fun heq => htc (heq ▸ List.mem_flatMap.mpr ⟨v, hmem, ha⟩))
      (hright v (List.mem_cons_of_mem t hmem))

/-- **EXCHANGED CONTENTS.**  Two roots of one rank exchange values and children. -/
theorem exchange (hs : Stored h (t :: u :: ts)) (hrank : t.rank = u.rank)
    (hnext : h'.next = h.next)
    (hvalue : h'.value =
      Function.update (Function.update h.value t.addr (some u.value)) u.addr (some t.value))
    (hdegree : h'.degree = h.degree)
    (hchild : h'.child =
      Function.update (Function.update h.child t.addr u.kids.head) u.addr t.kids.head)
    (hright : h'.right = h.right) : Stored h' (u.move t.addr :: t.move u.addr :: ts) := by
  have hperm := cells_exchange t u ts
  obtain ⟨htk, htc⟩ := hs.addr_notMem
  obtain ⟨huk, huc⟩ := hs.tail.addr_notMem
  have hut : u.addr ≠ t.addr := hs.addr_ne (List.mem_cons_self ..)
  have hbt := hs.body t (by simp)
  have hbu := hs.body u (by simp)
  have hut' : u.addr ∉ t.kids.addrs := hs.root_notMem_kids (by simp) (by simp)
  have htu' : t.addr ∉ u.kids.addrs := hs.root_notMem_kids (by simp) (by simp)
  have hagree (a : Addr) (hat : a ≠ t.addr) (hau : a ≠ u.addr) : Agree h h' a := by
    rw [Agree, hvalue, hdegree, hchild]
    simp [hat, hau]
  refine ⟨hperm.nodup_iff.mpr hs.nodup,
    fun a ha => hnext ▸ hs.bound a (hperm.mem_iff.mp ha), fun v hv => ?_⟩
  simp only [List.mem_cons] at hv
  -- each root keeps its address and degree and gets the other's value and children
  rcases hv with rfl | rfl | hv
  · refine ⟨?_, ?_, ?_, ?_⟩
    · simp [hvalue, Tree.move, hut.symm]
    · rw [hdegree]
      exact hbt.degree.trans (congrArg (2 ^ ·) hrank)
    · simp [hchild, Tree.move, hut.symm]
    · exact hbu.kids.congr (fun a ha => hagree a (fun heq => htu' (heq ▸ ha))
        fun heq => huk (heq ▸ ha)) fun a _ => congrFun hright a
  · refine ⟨?_, ?_, ?_, ?_⟩
    · simp [hvalue, Tree.move]
    · rw [hdegree]
      exact hbu.degree.trans (congrArg (2 ^ ·) hrank.symm)
    · simp [hchild, Tree.move]
    · exact hbt.kids.congr (fun a ha => hagree a (fun heq => htk (heq ▸ ha))
        fun heq => hut' (heq ▸ ha)) fun a _ => congrFun hright a
  · have hcells (a : Addr) (ha : a ∈ v.addrs) : a ∈ cells ts :=
      List.mem_flatMap.mpr ⟨v, hv, ha⟩
    exact (hs.body v (by simp [hv])).congr
      (fun a ha => hagree a
        (fun heq => htc (heq ▸ List.mem_append_right _ (hcells a ha)))
        fun heq => huc (heq ▸ hcells a ha)) fun a _ => congrFun hright a

end Stored

/-! ## The tree functions -/

section Functions

variable {t u : Tree Addr T}

/-- Parent pointers are written and never read back. -/
theorem setChildParent_eq (hb : Body h t) (x : Ptr) :
    ∃ P, setChildParent h (some t.addr) x = .ok { h with parent := P } := by
  have hv : (h.value t.addr).isSome := Heap.live_of_value hb.value
  cases hk : t.kids.head with
  | none => exact ⟨h.parent, by simp [setChildParent, hv, hb.child, hk]⟩
  | some k =>
      have hvk : (h.value k).isSome := hb.live_head k hk
      exact ⟨_, by simp [setChildParent, hv, hb.child, hk, hvk]; rfl⟩

/-- Two roots exchange value and children. -/
theorem swapContents_eq (hbt : Body h t) (hbu : Body h u) (hne : u.addr ≠ t.addr) :
    ∃ P, swapContents h (some t.addr) (some u.addr) = .ok { h with
      value := Function.update (Function.update h.value t.addr (some u.value)) u.addr
        (some t.value)
      child := Function.update (Function.update h.child t.addr u.kids.head) u.addr
        t.kids.head
      parent := P } := by
  obtain ⟨P₁, hP₁⟩ := setChildParent_eq hbt (some u.addr)
  have hbu₁ : Body { h with parent := P₁ } u :=
    hbu.congr (fun _ _ => ⟨rfl, rfl, rfl⟩) fun _ _ => rfl
  obtain ⟨P₂, hP₂⟩ := setChildParent_eq hbu₁ (some t.addr)
  refine ⟨Function.update (Function.update P₂ t.addr (P₂ u.addr)) u.addr (P₂ t.addr), ?_⟩
  simp [swapContents, hP₁, hP₂, Heap.getValue, hbt.value, hbu.value, hbt.child, hbu.child, hne,
    hne.symm]

omit [LinearOrder T] in
/-- What `adopt` and `hang` come to: `d` is the first child of `n`. -/
theorem adopt_eq {d n : Addr} (hd : h.Live d) (hn : h.Live n)
    (hk : ∀ k, h.child n = some k → h.Live k) :
    ∃ L P, adopt h (some d) (some n) = .ok { h with
        left := L
        right := Function.update h.right d (h.child n)
        parent := P
        child := Function.update h.child n (some d) } ∧
      ∀ y, y ≠ d → h.child n ≠ some y → L y = h.left y := by
  have hvd : (h.value d).isSome := hd
  have hvn : (h.value n).isSome := hn
  cases hc : h.child n with
  | none =>
      refine ⟨Function.update (Function.update h.left d none) d none,
        Function.update h.parent d (some n), ?_, ?_⟩
      · simp [adopt, hvd, hvn, hc]
      · intro y hy _
        simp [hy]
  | some k =>
      have hvk : (h.value k).isSome := hk k hc
      refine ⟨Function.update (Function.update (Function.update h.left k (some d)) d none) d
        none, Function.update h.parent d (some n), ?_, ?_⟩
      · simp [adopt, hvd, hvn, hvk, hc]
      · intro y hy hyk
        have hyk' : y ≠ k := fun heq => hyk (heq ▸ rfl)
        simp [hy, hyk']

omit [LinearOrder T] in
/-- The links of a root that becomes the first child. -/
theorem hang_eq {d n k : Addr} (hd : h.Live d) (hn : h.Live n)
    (hc : h.child n = some k) (hk : h.Live k) :
    ∃ L P, hang h (some d) (some n) = .ok { h with
        left := L
        right := Function.update h.right d (h.child n)
        parent := P
        child := Function.update h.child n (some d) } ∧
      ∀ y, y ≠ d → h.child n ≠ some y → L y = h.left y := by
  have hvd : (h.value d).isSome := hd
  have hvn : (h.value n).isSome := hn
  have hvk : (h.value k).isSome := hk
  refine ⟨Function.update (Function.update h.left k (some d)) d none,
    Function.update h.parent d (some n), ?_, ?_⟩
  · simp [hang, hvd, hvn, hvk, hc]
  · intro y hy hyk
    have hyk' : y ≠ k := fun heq => hyk (heq ▸ hc)
    simp [hy, hyk']

omit [LinearOrder T] in
/-- The degree of a root, while it fits into an `int`. -/
theorem doubleDegree_eq {a k : Nat} (ha : h.Live a) (hd : h.degree a = 2 ^ k)
    (hk : 2 ^ (k + 1) < 2 ^ 31) :
    h.doubleDegree (some a) =
      .ok { h with degree := Function.update h.degree a (2 ^ (k + 1)) } := by
  have hv : (h.value a).isSome := ha
  rw [pow_succ] at hk ⊢
  simp only [Heap.doubleDegree, deref_some, hv, ok_bind, hd, if_pos hk, pure_eq_ok]

omit [LinearOrder T] in
/-- And when it no longer does. -/
theorem doubleDegree_overflow {a k : Nat} (ha : h.Live a) (hd : h.degree a = 2 ^ k)
    (hk : 2 ^ 31 ≤ 2 ^ (k + 1)) : h.doubleDegree (some a) = .error .overflow := by
  have hv : (h.value a).isSome := ha
  rw [pow_succ 2 k] at hk
  simp only [Heap.doubleDegree, deref_some, hv, ok_bind, hd, if_neg (not_lt_of_ge hk)]

end Functions

end PriorityQueue
