import Mathlib.Algebra.Order.BigOperators.Group.List
import Mathlib.Data.Multiset.OrderedMonoid
import Mathlib.Data.List.Basic
import Mathlib.Order.Defs.LinearOrder

/-! # Binomial trees — the shape of a binomial heap, with addresses

    A tree of rank `k + 1` is a tree of rank `k` whose root has been given
    another tree of rank `k` as its first child.  A list of siblings is a
    `Forest` in the first-child, next-sibling form, so that the children of a
    root of rank `k + 1` are a root of rank `k` in front of the children of a
    root of rank `k`: that is `Binomial`, and it is what one link adds.

    Every node has an address, for the heap cell a program keeps it in.  A
    `Tree` carries the proof of its shape and of its heap order. -/

namespace BinomialTree

variable {A T : Type}

/-- Siblings, each with its address, its value and its children. -/
inductive Forest (A T : Type) where
  | nil
  | cons (addr : A) (value : T) (kids rest : Forest A T)

/-- The address of the first sibling. -/
def Forest.head : Forest A T → Option A
  | .nil => none
  | .cons a _ _ _ => some a

/-- The number of nodes. -/
def Forest.size : Forest A T → Nat
  | .nil => 0
  | .cons _ _ kids rest => kids.size + 1 + rest.size

/-- All addresses. -/
def Forest.addrs : Forest A T → List A
  | .nil => []
  | .cons a _ kids rest => a :: (kids.addrs ++ rest.addrs)

/-- All values. -/
def Forest.values : Forest A T → Multiset T
  | .nil => 0
  | .cons _ v kids rest => v ::ₘ (kids.values + rest.values)

/-- The first root is one of the nodes. -/
theorem Forest.mem_addrs_of_head {F : Forest A T} {a : A} (h : F.head = some a) :
    a ∈ F.addrs := by
  cases F with
  | nil => nomatch h
  | cons b v kids rest =>
      obtain rfl : b = a := Option.some.inj h
      exact List.mem_cons_self ..

/-- Every node holds one value. -/
theorem Forest.card_values (F : Forest A T) : F.values.card = F.size := by
  induction F with
  | nil => rfl
  | cons a v kids rest ihk ihr =>
      rw [values, Multiset.card_cons, Multiset.card_add, ihk, ihr, size]
      omega

/-- The children of a root of rank `k`. -/
inductive Binomial : Nat → Forest A T → Prop where
  | zero : Binomial 0 .nil
  | succ {k : Nat} {a : A} {v : T} {kids rest : Forest A T} :
      Binomial k kids → Binomial k rest → Binomial (k + 1) (.cons a v kids rest)

/-- The children of a node of rank `k` and the node itself are `2 ^ k` nodes. -/
theorem Binomial.size_eq {k : Nat} {F : Forest A T} (h : Binomial k F) :
    F.size + 1 = 2 ^ k := by
  induction h with
  | zero => rfl
  | succ _ _ ihk ihr =>
      rw [Forest.size, pow_succ]
      omega

/-- A forest has one rank at most. -/
theorem Binomial.rank_unique {j k : Nat} {F : Forest A T} (hj : Binomial j F)
    (hk : Binomial k F) : j = k :=
  Nat.pow_right_injective le_rfl (hj.size_eq.symm.trans hk.size_eq)

/-- Only a root of rank 0 has no child. -/
theorem Binomial.head_ne_none {k : Nat} {F : Forest A T} (h : Binomial (k + 1) F) :
    ∃ a, F.head = some a := by
  cases h with
  | succ _ _ => exact ⟨_, rfl⟩

/-- No value is above the one of its parent, `v` at the top. -/
def Heaped [LE T] (v : T) : Forest A T → Prop
  | .nil => True
  | .cons _ w kids rest => v ≤ w ∧ Heaped w kids ∧ Heaped v rest

/-- **THE ROOT IS THE SMALLEST**, by induction over the children and theirs. -/
theorem Heaped.le [Preorder T] {v : T} {F : Forest A T} (h : Heaped v F) :
    ∀ w ∈ F.values, v ≤ w := by
  induction F generalizing v with
  | nil => nofun
  | cons a x kids rest ihk ihr =>
      obtain ⟨hvx, hkids, hrest⟩ := h
      intro w hw
      rcases Multiset.mem_cons.mp hw with rfl | hw
      · exact hvx
      · rcases Multiset.mem_add.mp hw with hw | hw
        · exact le_trans hvx (ihk hkids w hw)
        · exact ihr hrest w hw

/-! ## Trees -/

variable [LinearOrder T]

/-- A heap-ordered binomial tree. -/
structure Tree (A T : Type) [LinearOrder T] where
  addr : A
  value : T
  rank : Nat
  kids : Forest A T
  shape : Binomial rank kids
  heaped : Heaped value kids

namespace Tree

def addrs (t : Tree A T) : List A :=
  t.addr :: t.kids.addrs

def values (t : Tree A T) : Multiset T :=
  t.value ::ₘ t.kids.values

theorem size_kids (t : Tree A T) : t.kids.size + 1 = 2 ^ t.rank :=
  t.shape.size_eq

/-- A tree of rank `k` has `2 ^ k` values. -/
theorem card_values (t : Tree A T) : t.values.card = 2 ^ t.rank := by
  rw [values, Multiset.card_cons, Forest.card_values, t.size_kids]

/-- The root has the least value of the tree. -/
theorem le_of_mem (t : Tree A T) : ∀ w ∈ t.values, t.value ≤ w := by
  intro w hw
  rcases Multiset.mem_cons.mp hw with rfl | hw
  · exact le_rfl
  · exact t.heaped.le w hw

/-- A tree of one node. -/
def single (a : A) (v : T) : Tree A T :=
  ⟨a, v, 0, .nil, .zero, trivial⟩

/-- The same tree with its root at another address. -/
def move (t : Tree A T) (a : A) : Tree A T :=
  { t with addr := a }

/-- **LINK.**  `u` becomes the first child of `t`. -/
def link (t u : Tree A T) (hrank : u.rank = t.rank) (hle : t.value ≤ u.value) : Tree A T :=
  ⟨t.addr, t.value, t.rank + 1, .cons u.addr u.value u.kids t.kids,
    .succ (hrank ▸ u.shape) t.shape, hle, u.heaped, t.heaped⟩

/-- Linking two trees loses no value and makes none up. -/
theorem values_link (t u : Tree A T) (hrank : u.rank = t.rank) (hle : t.value ≤ u.value) :
    (t.link u hrank hle).values = t.values + u.values := by
  show t.value ::ₘ u.value ::ₘ (u.kids.values + t.kids.values) =
    t.value ::ₘ t.kids.values + u.value ::ₘ u.kids.values
  rw [Multiset.cons_add, Multiset.add_cons, add_comm]

/-- Nor does it lose a node; only their order changes. -/
theorem addrs_link (t u : Tree A T) (hrank : u.rank = t.rank) (hle : t.value ≤ u.value) :
    (t.link u hrank hle).addrs.Perm (t.addrs ++ u.addrs) := by
  show (t.addr :: u.addr :: (u.kids.addrs ++ t.kids.addrs)).Perm
    (t.addr :: (t.kids.addrs ++ u.addr :: u.kids.addrs))
  exact (List.Perm.trans (List.perm_append_comm.cons _) List.perm_middle.symm).cons _

end Tree

/-! ## Rows of trees -/

/-- The values of a row of trees. -/
def contents (ts : List (Tree A T)) : Multiset T :=
  (ts.map Tree.values).sum

/-- The addresses of a row of trees. -/
def cells (ts : List (Tree A T)) : List A :=
  ts.flatMap Tree.addrs

@[simp] theorem contents_nil : contents ([] : List (Tree A T)) = 0 := rfl

@[simp] theorem contents_cons (t : Tree A T) (ts : List (Tree A T)) :
    contents (t :: ts) = t.values + contents ts := by
  simp [contents]

@[simp] theorem contents_append (ts us : List (Tree A T)) :
    contents (ts ++ us) = contents ts + contents us := by
  simp [contents]

@[simp] theorem cells_cons (t : Tree A T) (ts : List (Tree A T)) :
    cells (t :: ts) = t.addrs ++ cells ts := rfl

@[simp] theorem cells_append (ts us : List (Tree A T)) :
    cells (ts ++ us) = cells ts ++ cells us :=
  List.flatMap_append

/-- The order of the trees does not matter for what they hold. -/
theorem contents_perm {ts us : List (Tree A T)} (h : ts.Perm us) :
    contents ts = contents us :=
  (h.map _).sum_eq

theorem cells_perm {ts us : List (Tree A T)} (h : ts.Perm us) :
    (cells ts).Perm (cells us) :=
  h.flatMap_right _

/-- The roots are among the nodes, in the order of the row. -/
theorem map_addr_sublist (ts : List (Tree A T)) : (ts.map Tree.addr).Sublist (cells ts) := by
  induction ts with
  | nil => exact .slnil
  | cons t ts ih => exact (ih.trans (List.sublist_append_right ..)).cons_cons t.addr

/-- Two trees exchange their roots. -/
theorem cells_exchange (t u : Tree A T) (ts : List (Tree A T)) :
    (cells (u.move t.addr :: t.move u.addr :: ts)).Perm (cells (t :: u :: ts)) := by
  show (t.addr :: (u.kids.addrs ++ u.addr :: (t.kids.addrs ++ cells ts))).Perm
    (t.addr :: (t.kids.addrs ++ u.addr :: (u.kids.addrs ++ cells ts)))
  refine List.Perm.cons _ (List.perm_middle.trans (.trans (.cons _ ?_) List.perm_middle.symm))
  rw [← List.append_assoc, ← List.append_assoc]
  exact List.perm_append_comm.append_right _

/-- A value of the row is a value of one of its trees. -/
theorem mem_contents {v : T} {ts : List (Tree A T)} :
    v ∈ contents ts ↔ ∃ t ∈ ts, v ∈ t.values := by
  induction ts with
  | nil => simp
  | cons t ts ih => simp [ih]

theorem values_le_contents {t : Tree A T} {ts : List (Tree A T)} (h : t ∈ ts) :
    t.values ≤ contents ts :=
  List.single_le_sum (fun _ _ => Multiset.zero_le _) _ (List.mem_map_of_mem h)

/-- A tree of the row can be brought to its front. -/
theorem exists_perm_cons {t : Tree A T} {ts : List (Tree A T)} (h : t ∈ ts) :
    ∃ us, ts.Perm (t :: us) := by
  obtain ⟨us, vs, rfl⟩ := List.append_of_mem h
  exact ⟨us ++ vs, List.perm_middle⟩

theorem addr_mem_cells {t : Tree A T} {ts : List (Tree A T)} (h : t ∈ ts) :
    t.addr ∈ cells ts :=
  List.mem_flatMap.mpr ⟨t, h, List.mem_cons_self ..⟩

/-- A row of trees as siblings. -/
def ofTrees : List (Tree A T) → Forest A T
  | [] => .nil
  | t :: ts => .cons t.addr t.value t.kids (ofTrees ts)

/-- The children of a root are a row of trees. -/
theorem Binomial.exists_trees {k : Nat} {v : T} {F : Forest A T} (h : Binomial k F)
    (hv : Heaped v F) : ∃ ts, F = ofTrees ts := by
  induction h with
  | zero => exact ⟨[], rfl⟩
  | @succ k a w kids rest hkids hrest _ ihr =>
      obtain ⟨-, hk, hr⟩ := hv
      obtain ⟨ts, rfl⟩ := ihr hr
      exact ⟨⟨a, w, k, kids, hkids, hk⟩ :: ts, rfl⟩

/-- **THE CHILDREN OF A ROOT** of rank `k` have the ranks `k - 1`, …, `1`, `0`, in
    this order. -/
theorem Binomial.ranks {k : Nat} {ts : List (Tree A T)} (h : Binomial k (ofTrees ts)) :
    ts.map Tree.rank = (List.range k).reverse := by
  induction ts generalizing k with
  | nil =>
      cases h with
      | zero => rfl
  | cons t ts ih =>
      cases h with
      | succ hkids hrest =>
          rw [List.range_succ, List.reverse_append, List.map_cons, ih hrest,
            t.shape.rank_unique hkids]
          rfl

/-- A child has a smaller rank than its parent. -/
theorem Tree.rank_lt_of_kid (t : Tree A T) {u : Tree A T} {ks : List (Tree A T)}
    (hks : t.kids = ofTrees ks) (hu : u ∈ ks) : u.rank < t.rank := by
  have hmem : u.rank ∈ ks.map Tree.rank := List.mem_map_of_mem hu
  have hshape := t.shape
  rw [hks] at hshape
  rw [hshape.ranks, List.mem_reverse, List.mem_range] at hmem
  exact hmem

/-- The first child of a node is the root of its first tree. -/
theorem head_ofTrees (ts : List (Tree A T)) :
    (ofTrees ts).head = (ts.map Tree.addr).head? := by
  cases ts <;> rfl

/-- A row of trees as a forest has the same nodes in the same order. -/
theorem addrs_ofTrees (ts : List (Tree A T)) : (ofTrees ts).addrs = cells ts := by
  induction ts with
  | nil => rfl
  | cons t ts ih =>
      show t.addr :: (t.kids.addrs ++ (ofTrees ts).addrs) = _
      rw [ih]
      rfl

theorem values_ofTrees (ts : List (Tree A T)) : (ofTrees ts).values = contents ts := by
  induction ts with
  | nil => rfl
  | cons t ts ih =>
      show t.value ::ₘ (t.kids.values + (ofTrees ts).values) = _
      rw [ih, contents_cons, Tree.values, Multiset.cons_add]

/-- **WITHOUT ITS ROOT**, a tree is the row of its children. -/
theorem cells_open {t : Tree A T} {ts ks : List (Tree A T)} (hks : t.kids = ofTrees ks) :
    cells (t :: ts) = t.addr :: cells (ks ++ ts) := by
  rw [cells_append, ← addrs_ofTrees ks, ← hks]
  rfl

/-- Taking the root away leaves the values of its children. -/
theorem contents_open {t : Tree A T} {ts ks : List (Tree A T)} (hks : t.kids = ofTrees ks) :
    contents (t :: ts) = t.value ::ₘ contents (ks ++ ts) := by
  rw [contents_append, ← values_ofTrees ks, ← hks, contents_cons, Tree.values,
    Multiset.cons_add]

end BinomialTree
