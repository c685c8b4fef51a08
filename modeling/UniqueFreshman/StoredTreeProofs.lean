import Mathlib

/-! # Trees in a heap — nodes that point to their children

    Code on binary trees assigns the fields of nodes in place.  `Placed` is a
    tree with the address of each of its nodes, and `Stores h t` says that the
    heap holds exactly it: every cell is there, no two nodes share one.  What an
    operation does is `Becomes`: the heap stored `t` and now stores `t'`, every
    other live cell is as it was, and the number of live cells has changed by
    `d`.  Operations in sequence compose (`Becomes.trans`), and an operation on a
    child is one on the tree, once the link of the parent is assigned
    (`Becomes.left`, `Becomes.right`). -/

namespace StoredTree

abbrev Addr := Nat

abbrev Ptr := Option Addr

/-- A node: what it carries, and its two links. -/
structure Cell (α : Type) where
  label : α
  left : Ptr
  right : Ptr
  deriving DecidableEq, Repr

/-- The cells at their addresses, `none` where there is none (not allocated, or
    freed); from `next` on nothing was allocated yet. -/
structure Heap (α : Type) where
  cell : Addr → Option (Cell α)
  next : Addr
  unused : ∀ a, next ≤ a → cell a = none

variable {α : Type}

/-! ## The heap -/

namespace Heap

/-- No cell yet. -/
def blank : Heap α :=
  ⟨fun _ => none, 0, fun _ _ => rfl⟩

/-- The cell at `a` is changed in place, if there is one. -/
def modify (h : Heap α) (a : Addr) (f : Cell α → Cell α) : Heap α where
  cell := Function.update h.cell a ((h.cell a).map f)
  next := h.next
  unused b hb := by
    by_cases hba : b = a
    · rw [hba, Function.update_self, ← hba, h.unused b hb]
      rfl
    · rw [Function.update_of_ne hba, h.unused b hb]

/-- A new cell, at `h.next`. -/
def alloc (h : Heap α) (c : Cell α) : Heap α where
  cell := Function.update h.cell h.next (some c)
  next := h.next + 1
  unused b hb := by
    have hne : b ≠ h.next := (Nat.lt_of_succ_le hb).ne'
    rw [Function.update_of_ne hne, h.unused b (Nat.le_of_succ_le hb)]

/-- The cell at `a` is given back. -/
def free (h : Heap α) (a : Addr) : Heap α where
  cell := Function.update h.cell a none
  next := h.next
  unused b hb := by
    by_cases hba : b = a
    · rw [hba, Function.update_self]
    · rw [Function.update_of_ne hba, h.unused b hb]

/-- The addresses with a cell. -/
def live (h : Heap α) : Finset Addr :=
  (Finset.range h.next).filter fun a => (h.cell a).isSome

variable {h : Heap α} {a b : Addr} {f : Cell α → Cell α}

@[simp] theorem cell_modify_self : (h.modify a f).cell a = (h.cell a).map f :=
  Function.update_self ..

@[simp] theorem cell_modify_of_ne (hba : b ≠ a) : (h.modify a f).cell b = h.cell b :=
  Function.update_of_ne hba ..

@[simp] theorem cell_free_self : (h.free a).cell a = none :=
  Function.update_self ..

@[simp] theorem cell_free_of_ne (hba : b ≠ a) : (h.free a).cell b = h.cell b :=
  Function.update_of_ne hba ..

/-- A live cell is one that holds something. -/
theorem mem_live : a ∈ h.live ↔ (h.cell a).isSome := by
  rw [live, Finset.mem_filter, Finset.mem_range, and_iff_right_iff_imp]
  intro hcell
  by_contra hge
  rw [h.unused a (not_lt.mp hge)] at hcell
  cases hcell

@[simp] theorem live_modify : (h.modify a f).live = h.live := by
  ext b
  rw [mem_live, mem_live]
  by_cases hba : b = a
  · rw [hba, cell_modify_self, Option.isSome_map]
  · rw [cell_modify_of_ne hba]

/-- An allocation makes one cell live. -/
theorem card_live_alloc (c : Cell α) : (h.alloc c).live.card = h.live.card + 1 := by
  have hnew : h.next ∉ h.live := by
    rw [mem_live, h.unused h.next le_rfl]
    exact Bool.false_ne_true
  rw [← Finset.card_insert_of_notMem hnew]
  congr 1
  ext b
  rw [mem_live, Finset.mem_insert, mem_live]
  by_cases hb : b = h.next
  · simp [alloc, hb]
  · simp [alloc, hb]

/-- A deallocation leaves one fewer. -/
theorem card_live_free (ha : (h.cell a).isSome) : (h.free a).live.card + 1 = h.live.card := by
  rw [← Finset.card_erase_add_one (mem_live.mpr ha)]
  congr 2
  ext b
  rw [mem_live, Finset.mem_erase, mem_live]
  by_cases hb : b = a
  · simp [hb]
  · simp [hb]

end Heap

/-! ## Trees in it -/

/-- A tree with the address of each node. -/
inductive Placed (α : Type) where
  | null
  | node (addr : Addr) (label : α) (left right : Placed α)

namespace Placed

/-- The pointer to the tree. -/
def root : Placed α → Ptr
  | null => none
  | node a _ _ _ => some a

@[simp] theorem root_node (a : Addr) (x : α) (l r : Placed α) : (node a x l r).root = some a := rfl

/-- The addresses of the nodes. -/
def addrs : Placed α → List Addr
  | null => []
  | node a _ l r => a :: (l.addrs ++ r.addrs)

end Placed

open Placed

/-- Every node is where the tree has it, with the links the tree has. -/
def Holds (h : Heap α) : Placed α → Prop
  | .null => True
  | .node a x l r => h.cell a = some ⟨x, l.root, r.root⟩ ∧ Holds h l ∧ Holds h r

/-- The heap stores the tree: no two of its nodes share a cell. -/
structure Stores (h : Heap α) (t : Placed α) : Prop where
  holds : Holds h t
  nodup : t.addrs.Nodup

section Stores

variable {h h' : Heap α} {t l r : Placed α} {a : Addr} {x : α}

theorem stores_null : Stores h (.null : Placed α) :=
  ⟨trivial, List.nodup_nil⟩

/-- A node and two subtrees that share no cell with it or with each other. -/
theorem stores_node : Stores h (.node a x l r) ↔
    h.cell a = some ⟨x, l.root, r.root⟩ ∧ a ∉ l.addrs ∧ a ∉ r.addrs ∧
      l.addrs.Disjoint r.addrs ∧ Stores h l ∧ Stores h r := by
  constructor
  · rintro ⟨⟨hcell, hl, hr⟩, hnodup⟩
    rw [addrs, List.nodup_cons, List.mem_append, not_or, List.nodup_append'] at hnodup
    obtain ⟨⟨hal, har⟩, hnl, hnr, hdisj⟩ := hnodup
    exact ⟨hcell, hal, har, hdisj, ⟨hl, hnl⟩, ⟨hr, hnr⟩⟩
  · rintro ⟨hcell, hal, har, hdisj, hl, hr⟩
    refine ⟨⟨hcell, hl.holds, hr.holds⟩, ?_⟩
    rw [addrs, List.nodup_cons, List.mem_append, not_or, List.nodup_append']
    exact ⟨⟨hal, har⟩, hl.nodup, hr.nodup, hdisj⟩

theorem Stores.cell (hs : Stores h (.node a x l r)) : h.cell a = some ⟨x, l.root, r.root⟩ :=
  (stores_node.mp hs).1

theorem Stores.left (hs : Stores h (.node a x l r)) : Stores h l :=
  (stores_node.mp hs).2.2.2.2.1

theorem Stores.right (hs : Stores h (.node a x l r)) : Stores h r :=
  (stores_node.mp hs).2.2.2.2.2

/-- The cells of a stored tree are live. -/
theorem Stores.live (hs : Stores h t) (ha : a ∈ t.addrs) : (h.cell a).isSome := by
  induction t with
  | null => cases ha
  | node b y l r ihl ihr =>
      rcases List.mem_cons.mp ha with rfl | ha
      · rw [hs.cell]
        rfl
      · rcases List.mem_append.mp ha with ha | ha
        · exact ihl hs.left ha
        · exact ihr hs.right ha

/-- **FRAME.**  A tree is stored where its own cells are unchanged. -/
theorem Stores.congr (hs : Stores h t) (hsame : ∀ a ∈ t.addrs, h'.cell a = h.cell a) :
    Stores h' t := by
  induction t with
  | null => exact stores_null
  | node a x l r ihl ihr =>
      obtain ⟨hcell, hal, har, hdisj, hl, hr⟩ := stores_node.mp hs
      refine stores_node.mpr ⟨?_, hal, har, hdisj, ihl hl fun b hb => ?_, ihr hr fun b hb => ?_⟩
      · rw [hsame a List.mem_cons_self, hcell]
      · exact hsame b (List.mem_cons_of_mem _ (List.mem_append_left _ hb))
      · exact hsame b (List.mem_cons_of_mem _ (List.mem_append_right _ hb))

/-- A change of a cell outside of the tree. -/
theorem Stores.off (hs : Stores h t) (ha : a ∉ t.addrs)
    (hrest : ∀ b, b ≠ a → h'.cell b = h.cell b) : Stores h' t :=
  hs.congr fun b hb => hrest b fun hba => ha (hba ▸ hb)

/-- A tree has no more nodes than addresses were handed out. -/
theorem Stores.length_le (hs : Stores h t) : t.addrs.length ≤ h.next := by
  have hsub : t.addrs ⊆ List.range h.next := by
    intro a ha
    rw [List.mem_range]
    by_contra hge
    have hlive := hs.live ha
    rw [h.unused a (not_lt.mp hge)] at hlive
    cases hlive
  exact (hs.nodup.subperm hsub).length_le.trans List.length_range.le

end Stores

/-! ## What an operation does -/

/-- The heap stored `t` and now stores `t'`: its new nodes were free before, all
    other live cells are as they were, and there are `d` more live cells. -/
structure Becomes (d : Int) (h h' : Heap α) (t t' : Placed α) : Prop where
  stores : Stores h' t'
  fresh : ∀ a ∈ t'.addrs, a ∈ t.addrs ∨ h.cell a = none
  same : ∀ a ∉ t.addrs, (h.cell a).isSome → h'.cell a = h.cell a
  live : (h'.live.card : Int) = h.live.card + d

section Becomes

variable {d d' : Int} {h h' h'' : Heap α} {t t' t'' l l' r r' : Placed α} {a : Addr} {x y : α}

/-- Nothing is done. -/
theorem Stores.becomes (hs : Stores h t) : Becomes 0 h h t t :=
  ⟨hs, fun _ ha => .inl ha, fun _ _ _ => rfl, (add_zero _).symm⟩

/-- **IN SEQUENCE.** -/
theorem Becomes.trans (h₁ : Becomes d h h' t t') (h₂ : Becomes d' h' h'' t' t'') :
    Becomes (d + d') h h'' t t'' where
  stores := h₂.stores
  fresh a ha := by
    by_contra hcon
    obtain ⟨hat, hcell⟩ := not_or.mp hcon
    have hlive : (h.cell a).isSome := Option.isSome_iff_ne_none.mpr hcell
    rcases h₂.fresh a ha with ha' | hfree
    · exact hcon (h₁.fresh a ha')
    · rw [h₁.same a hat hlive] at hfree
      exact hcell hfree
  same a hat hlive := by
    have hat' : a ∉ t'.addrs := fun ha' =>
      (h₁.fresh a ha').elim hat (Option.isSome_iff_ne_none.mp hlive)
    have hsame := h₁.same a hat hlive
    rw [h₂.same a hat' (by rwa [hsame]), hsame]
  live := by rw [h₂.live, h₁.live, add_assoc]

/-- Nothing is allocated or freed afterwards. -/
theorem Becomes.keep (h₁ : Becomes d h h' t t') (h₂ : Becomes 0 h' h'' t' t'') :
    Becomes d h h'' t t'' :=
  add_zero d ▸ h₁.trans h₂

/-- Nothing was allocated or freed before. -/
theorem Becomes.kept (h₁ : Becomes 0 h h' t t') (h₂ : Becomes d h' h'' t' t'') :
    Becomes d h h'' t t'' :=
  zero_add d ▸ h₁.trans h₂

/-- What is stored beside a tree stays beside what it becomes. -/
theorem Becomes.disjoint (hb : Becomes d h h' t t') (ht : Stores h r)
    (hdisj : t.addrs.Disjoint r.addrs) : t'.addrs.Disjoint r.addrs := by
  intro b hb' hbr
  rcases hb.fresh b hb' with hbt | hfree
  · exact hdisj hbt hbr
  · exact Option.isSome_iff_ne_none.mp (ht.live hbr) hfree

/-- A tree beside the one that changes stays stored. -/
theorem Becomes.beside (hb : Becomes d h h' t t') (ht : Stores h r)
    (hdisj : t.addrs.Disjoint r.addrs) : Stores h' r :=
  ht.congr fun b hbr => hb.same b (fun hbt => hdisj hbt hbr) (ht.live hbr)

/-- The parent of a tree keeps its cell. -/
theorem Becomes.parent {c : Cell α} (hb : Becomes d h h' t t') (hcell : h.cell a = some c)
    (hat : a ∉ t.addrs) : h'.cell a = some c ∧ a ∉ t'.addrs := by
  have hlive : (h.cell a).isSome := by
    rw [hcell]
    rfl
  refine ⟨(hb.same a hat hlive).trans hcell, fun hat' => ?_⟩
  exact (hb.fresh a hat').elim hat (Option.isSome_iff_ne_none.mp hlive)

/-- **ON THE LEFT CHILD.**  Afterwards the cell of the parent has the link to
    what the child became, and maybe a new label. -/
theorem Becomes.left (hb : Becomes d h h' l l') (hs : Stores h (.node a x l r))
    (hcell' : h''.cell a = some ⟨y, l'.root, r.root⟩)
    (hrest : ∀ b, b ≠ a → h''.cell b = h'.cell b) (hlive : h''.live = h'.live) :
    Becomes d h h'' (.node a x l r) (.node a y l' r) := by
  obtain ⟨hcell, hal, har, hdisj, hl, hr⟩ := stores_node.mp hs
  obtain ⟨-, hal'⟩ := hb.parent hcell hal
  refine ⟨stores_node.mpr ⟨hcell', hal', har, hb.disjoint hr hdisj, hb.stores.off hal' hrest,
    (hb.beside hr hdisj).off har hrest⟩, ?_, ?_, ?_⟩
  · intro b hb'
    rcases List.mem_cons.mp hb' with rfl | hb'
    · exact .inl List.mem_cons_self
    · rcases List.mem_append.mp hb' with hbl | hbr
      · exact (hb.fresh b hbl).imp_left fun hbl =>
          List.mem_cons_of_mem _ (List.mem_append_left _ hbl)
      · exact .inl (List.mem_cons_of_mem _ (List.mem_append_right _ hbr))
  · intro b hbt hlive
    rw [addrs, List.mem_cons, List.mem_append, not_or, not_or] at hbt
    rw [hrest b hbt.1, hb.same b hbt.2.1 hlive]
  · rw [hlive, hb.live]

/-- **ON THE RIGHT CHILD.** -/
theorem Becomes.right (hb : Becomes d h h' r r') (hs : Stores h (.node a x l r))
    (hcell' : h''.cell a = some ⟨y, l.root, r'.root⟩)
    (hrest : ∀ b, b ≠ a → h''.cell b = h'.cell b) (hlive : h''.live = h'.live) :
    Becomes d h h'' (.node a x l r) (.node a y l r') := by
  obtain ⟨hcell, hal, har, hdisj, hl, hr⟩ := stores_node.mp hs
  obtain ⟨-, har'⟩ := hb.parent hcell har
  refine ⟨stores_node.mpr ⟨hcell', hal, har', (hb.disjoint hl hdisj.symm).symm,
    (hb.beside hl hdisj.symm).off hal hrest, hb.stores.off har' hrest⟩, ?_, ?_, ?_⟩
  · intro b hb'
    rcases List.mem_cons.mp hb' with rfl | hb'
    · exact .inl List.mem_cons_self
    · rcases List.mem_append.mp hb' with hbl | hbr
      · exact .inl (List.mem_cons_of_mem _ (List.mem_append_left _ hbl))
      · exact (hb.fresh b hbr).imp_left fun hbr =>
          List.mem_cons_of_mem _ (List.mem_append_right _ hbr)
  · intro b hbt hlive
    rw [addrs, List.mem_cons, List.mem_append, not_or, not_or] at hbt
    rw [hrest b hbt.1, hb.same b hbt.2.2 hlive]
  · rw [hlive, hb.live]

/-- The left link of the parent is assigned. -/
theorem Becomes.left_modify (hb : Becomes d h h' l l') (hs : Stores h (.node a x l r))
    {f : Cell α → Cell α} (hf : f ⟨x, l.root, r.root⟩ = ⟨y, l'.root, r.root⟩) :
    Becomes d h (h'.modify a f) (.node a x l r) (.node a y l' r) := by
  have hal := (stores_node.mp hs).2.1
  refine hb.left hs ?_ (fun _ hba => Heap.cell_modify_of_ne hba) Heap.live_modify
  rw [Heap.cell_modify_self, (hb.parent hs.cell hal).1, Option.map_some, hf]

/-- The right link of the parent is assigned. -/
theorem Becomes.right_modify (hb : Becomes d h h' r r') (hs : Stores h (.node a x l r))
    {f : Cell α → Cell α} (hf : f ⟨x, l.root, r.root⟩ = ⟨y, l.root, r'.root⟩) :
    Becomes d h (h'.modify a f) (.node a x l r) (.node a y l r') := by
  have har := (stores_node.mp hs).2.2.1
  refine hb.right hs ?_ (fun _ hba => Heap.cell_modify_of_ne hba) Heap.live_modify
  rw [Heap.cell_modify_self, (hb.parent hs.cell har).1, Option.map_some, hf]

/-- A child that keeps its root needs no new link. -/
theorem Becomes.left_kept (hb : Becomes d h h' l l') (hs : Stores h (.node a x l r))
    (hroot : l'.root = l.root) : Becomes d h h' (.node a x l r) (.node a x l' r) := by
  have hal := (stores_node.mp hs).2.1
  refine hb.left hs ?_ (fun _ _ => rfl) rfl
  rw [(hb.parent hs.cell hal).1, hroot]

/-- A change in the right subtree that keeps its root. -/
theorem Becomes.right_kept (hb : Becomes d h h' r r') (hs : Stores h (.node a x l r))
    (hroot : r'.root = r.root) : Becomes d h h' (.node a x l r) (.node a x l r') := by
  have har := (stores_node.mp hs).2.2.1
  refine hb.right hs ?_ (fun _ _ => rfl) rfl
  rw [(hb.parent hs.cell har).1, hroot]

/-- The label of the root is assigned. -/
theorem Stores.relabel (hs : Stores h (.node a x l r)) {f : Cell α → Cell α}
    (hf : f ⟨x, l.root, r.root⟩ = ⟨y, l.root, r.root⟩) :
    Becomes 0 h (h.modify a f) (.node a x l r) (.node a y l r) :=
  hs.left.becomes.left_modify hs hf

section Rotation

variable {b : Addr} {x' y' : α} {ll lr rl rr : Placed α}

/-- The same nodes with other links. -/
theorem Stores.rearranged (hs : Stores h t) (hperm : t'.addrs.Perm t.addrs)
    (hholds : Holds h' t') (hsame : ∀ a ∉ t.addrs, h'.cell a = h.cell a)
    (hlive : h'.live = h.live) : Becomes 0 h h' t t' where
  stores := ⟨hholds, hperm.nodup_iff.mpr hs.nodup⟩
  fresh a ha := .inl (hperm.mem_iff.mp ha)
  same a ha _ := hsame a ha
  live := by rw [hlive, add_zero]

/-- **ROTATION TO THE LEFT.** -/
theorem Stores.rotateLeft (hs : Stores h (.node a x l (.node b y rl rr)))
    (ha : h'.cell a = some ⟨x', l.root, rl.root⟩) (hb : h'.cell b = some ⟨y', some a, rr.root⟩)
    (hrest : ∀ c, c ≠ a → c ≠ b → h'.cell c = h.cell c) (hlive : h'.live = h.live) :
    Becomes 0 h h' (.node a x l (.node b y rl rr)) (.node b y' (.node a x' l rl) rr) := by
  obtain ⟨-, hal, har, hdisj, hl, hr⟩ := stores_node.mp hs
  obtain ⟨-, hbrl, hbrr, -, hrl, hrr⟩ := stores_node.mp hr
  simp only [addrs, List.mem_cons, List.mem_append, not_or] at har
  have hbl : b ∉ l.addrs := fun hb => hdisj hb List.mem_cons_self
  have hkeep : ∀ {u : Placed α}, Stores h u → a ∉ u.addrs → b ∉ u.addrs → Stores h' u :=
    fun hu hau hbu => hu.congr fun c hc =>
      hrest c (fun hca => hau (hca ▸ hc)) (fun hcb => hbu (hcb ▸ hc))
  refine hs.rearranged ?_ ⟨hb, ⟨ha, (hkeep hl hal hbl).holds, (hkeep hrl har.2.1 hbrl).holds⟩,
    (hkeep hrr har.2.2 hbrr).holds⟩ ?_ hlive
  · simp only [addrs, ← Multiset.coe_eq_coe, ← Multiset.cons_coe, ← Multiset.coe_add,
      ← Multiset.singleton_add]
    abel
  · intro c hc
    simp only [addrs, List.mem_cons, List.mem_append, not_or] at hc
    exact hrest c hc.1 hc.2.2.1

/-- **ROTATION TO THE RIGHT.** -/
theorem Stores.rotateRight (hs : Stores h (.node a x (.node b y ll lr) r))
    (ha : h'.cell a = some ⟨x', lr.root, r.root⟩) (hb : h'.cell b = some ⟨y', ll.root, some a⟩)
    (hrest : ∀ c, c ≠ a → c ≠ b → h'.cell c = h.cell c) (hlive : h'.live = h.live) :
    Becomes 0 h h' (.node a x (.node b y ll lr) r) (.node b y' ll (.node a x' lr r)) := by
  obtain ⟨-, hal, har, hdisj, hl, hr⟩ := stores_node.mp hs
  obtain ⟨-, hbll, hblr, -, hll, hlr⟩ := stores_node.mp hl
  simp only [addrs, List.mem_cons, List.mem_append, not_or] at hal
  have hbr : b ∉ r.addrs := hdisj List.mem_cons_self
  have hkeep : ∀ {u : Placed α}, Stores h u → a ∉ u.addrs → b ∉ u.addrs → Stores h' u :=
    fun hu hau hbu => hu.congr fun c hc =>
      hrest c (fun hca => hau (hca ▸ hc)) (fun hcb => hbu (hcb ▸ hc))
  refine hs.rearranged ?_ ⟨hb, (hkeep hll hal.2.1 hbll).holds, ha,
    (hkeep hlr hal.2.2 hblr).holds, (hkeep hr har hbr).holds⟩ ?_ hlive
  · simp only [addrs, ← Multiset.coe_eq_coe, ← Multiset.cons_coe, ← Multiset.coe_add,
      ← Multiset.singleton_add]
    abel
  · intro c hc
    simp only [addrs, List.mem_cons, List.mem_append, not_or] at hc
    exact hrest c hc.1 hc.2.1.1

end Rotation

/-- A node is allocated. -/
theorem becomes_alloc (h : Heap α) (x : α) :
    Becomes 1 h (h.alloc ⟨x, none, none⟩) .null (.node h.next x .null .null) where
  stores := stores_node.mpr ⟨Function.update_self .., List.not_mem_nil, List.not_mem_nil,
    List.disjoint_nil_left _, stores_null, stores_null⟩
  fresh a ha := by
    obtain rfl := List.mem_singleton.mp ha
    exact .inr (h.unused _ le_rfl)
  same a _ hlive := by
    refine Function.update_of_ne ?_ ..
    rintro rfl
    rw [h.unused _ le_rfl] at hlive
    cases hlive
  live := by
    rw [Heap.card_live_alloc]
    rfl

/-- The root of a tree is given back, and with it the pointers to the rest. -/
theorem Stores.free (hs : Stores h (.node a x l r)) :
    Becomes (-1) h (h.free a) (.node a x l r) .null where
  stores := stores_null
  fresh b hb := by cases hb
  same b hb _ := by
    refine Heap.cell_free_of_ne ?_
    rintro rfl
    exact hb List.mem_cons_self
  live := by
    have hcard := Heap.card_live_free (h := h) (a := a) (by rw [hs.cell]; rfl)
    omega

/-- Nodes of a tree are let go. -/
theorem becomes_forget (h : Heap α) (t : Placed α) : Becomes 0 h h t .null where
  stores := stores_null
  fresh a ha := by cases ha
  same _ _ _ := rfl
  live := (add_zero _).symm

end Becomes

end StoredTree
