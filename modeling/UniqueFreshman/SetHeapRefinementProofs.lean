import UniqueFreshman.SetHeapProofs

/-! # The heap against the tree — no two links to one node, and nothing lost

    Where a function of `SetTree` returns a tree, the function of the heap
    returns a pointer to it: the cells of the tree have changed to those of the
    result, and no other cell has (`Mirrors`).  So the set on the heap answers as
    the set of trees does. -/

namespace SetHeap

open StoredTree StoredTree.Placed SetTree CallSequence SortedList

variable {T : Type} {s s' s'' : Heap T} {t t' l l' r r' : Placed (Label T)} {a : Addr}
  {x : Label T} {d : Int}

/-- The tree behind the addresses. -/
def tree : Placed (Label T) → SetTree.Tree T
  | .null => .null
  | .node _ x l r => .node x.color x.value (tree l) (tree r)

/-! ## Reading -/

/-- Reading the root of a stored tree gives its label and the roots of its children. -/
theorem deref_root (hs : Stores s (.node a x l r)) :
    deref s (some a) = .ok ⟨x, l.root, r.root⟩ := by
  rw [deref, hs.cell]

theorem assign_root (hs : Stores s (.node a x l r)) (f : Cell (Label T) → Cell (Label T)) :
    assign s (some a) f = .ok (s.modify a f) := by
  rw [assign, if_pos (by rw [hs.cell]; rfl)]

/-- A null pointer is an empty tree. -/
theorem root_eq_none_iff : t.root = none ↔ SetTree.isNull (tree t) = true := by
  cases t <;> simp [Placed.root, tree]

/-- The tests of the source read the heap as those of the model read the tree. -/
theorem isRed_root (hs : Stores s t) : isRed s t.root = SetTree.isRed (tree t) := by
  cases t with
  | null => rfl
  | node a x l r =>
      show isRed s (some a) = _
      rw [isRed, if_neg (Option.some_ne_none a), deref_root hs]
      rfl

theorem isRedRed_root (hs : Stores s t) : isRedRed s t.root = SetTree.isRedRed (tree t) := by
  rw [isRedRed, SetTree.isRedRed, isRed_root hs]
  cases t with
  | null => rfl
  | node a x l r =>
      show (SetTree.isRed _ >>= fun red =>
        if red = true then deref s (some a) >>= fun n => isRed s n.left else pure false) = _
      rw [deref_root hs, ok_bind, isRed_root hs.left]
      rfl

theorem isBlackBlack_root (hs : Stores s t) :
    isBlackBlack s t.root = SetTree.isBlackBlack (tree t) := by
  rw [isBlackBlack, SetTree.isBlackBlack, isRed_root hs]
  cases t with
  | null => rfl
  | node a x l r =>
      show (SetTree.isRed _ >>= fun red => if red = true then pure false else
        deref s (some a) >>= fun n => isRed s n.left >>= fun red => pure !red) = _
      rw [deref_root hs, ok_bind, isRed_root hs.left]
      rfl

/-! ## A function of the heap and a function of the tree -/

/-- Where the tree function returns, the heap function returns a pointer to the
    same tree, and `Q` holds of where it is. -/
def Mirrors (Q : Heap T → Placed (Label T) → Prop) (x : Except Fault (SetTree.Tree T))
    (y : Except Fault (Heap T × Ptr)) : Prop :=
  ∀ u, x = .ok u → ∃ s' t', y = .ok (s', t'.root) ∧ tree t' = u ∧ Q s' t'

section Mirrors

variable {Q R : Heap T → Placed (Label T) → Prop} {x x' : Except Fault (SetTree.Tree T)}
  {y y' : Except Fault (Heap T × Ptr)} {k : SetTree.Tree T → Except Fault (SetTree.Tree T)}
  {k' : Heap T × Ptr → Except Fault (Heap T × Ptr)}

theorem Mirrors.pure (hQ : Q s t) : Mirrors Q (pure (tree t)) (pure (s, t.root)) := by
  intro u hu
  cases hu
  exact ⟨s, t, rfl, rfl, hQ⟩

/-- Nothing is said about a tree on which the function of the tree fails. -/
theorem Mirrors.error (e : Fault) : Mirrors Q (.error e) y := by
  intro u hu
  cases hu

/-- **COMPOSITION**: the second function starts from a tree that the first has stored. -/
theorem Mirrors.bind (hx : Mirrors Q x y)
    (hk : ∀ s' t', x = .ok (tree t') → Q s' t' → Mirrors R (k (tree t')) (k' (s', t'.root))) :
    Mirrors R (x >>= k) (y >>= k') := by
  intro u hu
  obtain ⟨u', hxu, hku⟩ := bind_eq_ok.mp hu
  obtain ⟨s', t', hy, rfl, hQ⟩ := hx u' hxu
  rw [hy]
  exact hk s' t' hxu hQ u hku

/-- A test with the same outcome on both sides. -/
theorem Mirrors.test {q : Except Fault Bool} (htrue : q = .ok true → Mirrors R x y)
    (hfalse : q = .ok false → Mirrors R x' y') :
    Mirrors R (q >>= fun b => if b then x else x') (q >>= fun b => if b then y else y') := by
  cases q with
  | error e => exact .error e
  | ok b => cases b with
    | true => exact htrue rfl
    | false => exact hfalse rfl

/-- A repair that is made or not, and what comes after it. -/
theorem Mirrors.repair {q : Except Fault Bool} (hx : Mirrors Q x y) (hQ : Q s t)
    (hk : ∀ s' t', Q s' t' → Mirrors R (k (tree t')) (k' (s', t'.root))) :
    Mirrors R (q >>= fun b => if b then x >>= k else Pure.pure (tree t) >>= k)
      (q >>= fun b => if b then y >>= k' else Pure.pure (s, t.root) >>= k') :=
  .test (fun _ => hx.bind fun s' t' _ => hk s' t') fun _ =>
    (Mirrors.pure hQ).bind fun s' t' _ => hk s' t'

theorem Mirrors.weaken (hx : Mirrors Q x y) (hQR : ∀ s t, Q s t → R s t) : Mirrors R x y := by
  intro u hu
  obtain ⟨s', t', hy, htree, hQ⟩ := hx u hu
  exact ⟨s', t', hy, htree, hQR s' t' hQ⟩

end Mirrors

/-- The nodes are the same, and so is the number of live cells. -/
abbrev Keeps (s : Heap T) (t : Placed (Label T)) : Heap T → Placed (Label T) → Prop :=
  fun s' t' => Becomes 0 s s' t t'

/-! ## Rotations and flips -/

/-- The right child comes up, and its left subtree changes sides. -/
theorem leftRotate_mirrors (hs : Stores s t) :
    Mirrors (Keeps s t) (SetTree.leftRotate (tree t)) (leftRotate s t.root) := by
  rcases t with _ | ⟨a, x, l, _ | ⟨b, y, rl, rr⟩⟩
  · exact .error _
  · exact .error _
  · intro u hu
    cases hu
    have hb := hs.right.cell
    have hab : a ≠ b := fun h => (stores_node.mp hs).2.2.1 (h ▸ List.mem_cons_self)
    obtain ⟨s', heval, ha', hb', hrest, hlive⟩ : ∃ s', leftRotate s (some a) = .ok (s', some b) ∧
        s'.cell a = some ⟨⟨x.value, .red⟩, l.root, rl.root⟩ ∧
        s'.cell b = some ⟨⟨y.value, x.color⟩, some a, rr.root⟩ ∧
        (∀ c, c ≠ a → c ≠ b → s'.cell c = s.cell c) ∧ s'.live = s.live := by
      simp +contextual [leftRotate, deref, setRight, setLeft, setColor, assign, hs.cell, hb,
        hab, hab.symm, Placed.root]
    exact ⟨s', .node b ⟨y.value, x.color⟩ (.node a ⟨x.value, .red⟩ l rl) rr, heval, rfl,
      hs.rotateLeft ha' hb' hrest hlive⟩

theorem rightRotate_mirrors (hs : Stores s t) :
    Mirrors (Keeps s t) (SetTree.rightRotate (tree t)) (rightRotate s t.root) := by
  rcases t with _ | ⟨a, x, _ | ⟨b, y, ll, lr⟩, r⟩
  · exact .error _
  · exact .error _
  · intro u hu
    cases hu
    have hb := hs.left.cell
    have hab : a ≠ b := fun h => (stores_node.mp hs).2.1 (h ▸ List.mem_cons_self)
    obtain ⟨s', heval, ha', hb', hrest, hlive⟩ : ∃ s', rightRotate s (some a) = .ok (s', some b) ∧
        s'.cell a = some ⟨⟨x.value, .red⟩, lr.root, r.root⟩ ∧
        s'.cell b = some ⟨⟨y.value, x.color⟩, ll.root, some a⟩ ∧
        (∀ c, c ≠ a → c ≠ b → s'.cell c = s.cell c) ∧ s'.live = s.live := by
      simp +contextual [rightRotate, deref, setRight, setLeft, setColor, assign, hs.cell, hb,
        hab, hab.symm, Placed.root]
    exact ⟨s', .node b ⟨y.value, x.color⟩ ll (.node a ⟨x.value, .red⟩ lr r), heval, rfl,
      hs.rotateRight ha' hb' hrest hlive⟩

/-- `p->color = c` at the root of a tree. -/
theorem setColor_root (hs : Stores s (.node a x l r)) (c : Color) :
    ∃ s', setColor s (some a) c = .ok s' ∧
      Becomes 0 s s' (.node a x l r) (.node a ⟨x.value, c⟩ l r) :=
  ⟨_, assign_root hs _, hs.relabel rfl⟩

/-- A child is recoloured, if there is one. -/
theorem flipChild_root (hs : Stores s t) :
    ∃ s' t', flipChild s t.root = .ok s' ∧ SetTree.flipChild (tree t) = .ok (tree t') ∧
      t'.root = t.root ∧ Becomes 0 s s' t t' := by
  cases t with
  | null => exact ⟨s, .null, rfl, rfl, rfl, hs.becomes⟩
  | node a x l r =>
      obtain ⟨s', hset, hbecomes⟩ := setColor_root hs x.color.flip
      refine ⟨s', .node a ⟨x.value, x.color.flip⟩ l r, ?_, rfl, rfl, hbecomes⟩
      show flipChild s (some a) = _
      rw [flipChild, if_neg (Option.some_ne_none a), deref_root hs]
      exact hset

/-- A node and its two children change colour, one after the other. -/
theorem colorFlip_mirrors (hs : Stores s t) :
    Mirrors (Keeps s t) (SetTree.colorFlip (tree t)) (colorFlip s t.root) := by
  cases t with
  | null => exact .error _
  | node a x l r =>
      obtain ⟨s₁, hset, h₁⟩ := setColor_root hs x.color.flip
      obtain ⟨s₂, l', hleft, hl', hlroot, h₂⟩ := flipChild_root h₁.stores.left
      have h₂ := h₂.left_kept h₁.stores hlroot
      obtain ⟨s₃, r', hright, hr', hrroot, h₃⟩ := flipChild_root h₂.stores.right
      have h₃ := h₃.right_kept h₂.stores hrroot
      have heval : colorFlip s (some a) = .ok (s₃, some a) := by
        simp only [colorFlip, deref_root hs, deref_root h₁.stores, deref_root h₂.stores, ok_bind,
          hset, hleft, hright]
        rfl
      intro u hu
      rw [tree, SetTree.colorFlip, deref_node, ok_bind, hl', ok_bind, hr'] at hu
      cases hu
      exact ⟨s₃, .node a ⟨x.value, x.color.flip⟩ l' r', heval, rfl,
        (h₁.keep h₂).keep h₃⟩

/-! ## Repairs -/

/-- The last repair of `fixUp` and of `insert`. -/
theorem flipReds_mirrors (h : Becomes 0 s s' t (.node a x l r)) :
    Mirrors (Keeps s t)
      (do
        if ← SetTree.isRed (tree l) then
          if ← SetTree.isRed (tree r) then SetTree.colorFlip (tree (.node a x l r))
          else pure (tree (.node a x l r))
        else pure (tree (.node a x l r)))
      (do
        if ← SetTree.isRed (tree l) then
          if ← SetTree.isRed (tree r) then colorFlip s' (some a) else pure (s', some a)
        else pure (s', some a)) := by
  have hkeep : Mirrors (Keeps s t) (pure (tree (.node a x l r))) (pure (s', some a)) :=
    .pure (t := .node a x l r) h
  refine .test (fun _ => .test (fun _ => ?_) fun _ => hkeep) fun _ => hkeep
  exact (colorFlip_mirrors h.stores).weaken fun _ _ => h.keep

/-- `fixUp` is three guarded repairs in a row. -/
theorem fixUp_mirrors (hs : Stores s t) :
    Mirrors (Keeps s t) (SetTree.fixUp (tree t)) (fixUp s t.root) := by
  cases t with
  | null => exact .error _
  | node a x l r =>
      simp only [fixUp, SetTree.fixUp, tree, deref_node, ok_bind, root_node, deref_root hs,
        isRed_root hs.right]
      refine Mirrors.repair (leftRotate_mirrors hs) hs.becomes fun s₁ t₁ h₁ => ?_
      cases t₁ with
      | null => exact .error _
      | node a₁ x₁ l₁ r₁ =>
          simp only [tree, deref_node, ok_bind, root_node, deref_root h₁.stores,
            isRedRed_root h₁.stores.left]
          refine Mirrors.repair ((rightRotate_mirrors h₁.stores).weaken fun _ _ => h₁.keep) h₁
            fun s₂ t₂ h₂ => ?_
          cases t₂ with
          | null => exact .error _
          | node a₂ x₂ l₂ r₂ =>
              simp only [tree, deref_node, ok_bind, root_node, deref_root h₂.stores,
                isRed_root h₂.stores.left, isRed_root h₂.stores.right]
              exact flipReds_mirrors h₂

/-- A repair behind a null test, and what comes after it. -/
theorem Mirrors.guarded {Q R : Heap T → Placed (Label T) → Prop}
    {x : Except Fault (SetTree.Tree T)} {y : Except Fault (Heap T × Ptr)}
    {k : SetTree.Tree T → Except Fault (SetTree.Tree T)}
    {k' : Heap T × Ptr → Except Fault (Heap T × Ptr)} {q : Except Fault Bool}
    (hx : Mirrors Q x y) (hQ : Q s t)
    (hk : ∀ s' t', Q s' t' → Mirrors R (k (tree t')) (k' (s', t'.root))) :
    Mirrors R
      (if SetTree.isNull (tree r) then Pure.pure (tree t) >>= k
        else q >>= fun b => if b then x >>= k else Pure.pure (tree t) >>= k)
      (if r.root = none then Pure.pure (s, t.root) >>= k'
        else q >>= fun b => if b then y >>= k' else Pure.pure (s, t.root) >>= k') := by
  by_cases hnull : SetTree.isNull (tree r) = true
  · rw [if_pos hnull, if_pos (root_eq_none_iff.mpr hnull)]
    exact (Mirrors.pure hQ).bind fun s' t' _ => hk s' t'
  · rw [if_neg hnull, if_neg fun hroot => hnull (root_eq_none_iff.mp hroot)]
    exact .repair hx hQ hk

/-- The three repairs of `insert` test for null pointers first. -/
theorem insertFix_mirrors (hs : Stores s t) :
    Mirrors (Keeps s t) (SetTree.insertFix (tree t)) (insertFix s t.root) := by
  cases t with
  | null => exact .error _
  | node a x l r =>
      simp only [insertFix, SetTree.insertFix, tree, deref_node, ok_bind, root_node, deref_root hs,
        isRed_root hs.right]
      refine Mirrors.guarded (leftRotate_mirrors hs) hs.becomes fun s₁ t₁ h₁ => ?_
      cases t₁ with
      | null => exact .error _
      | node a₁ x₁ l₁ r₁ =>
          simp only [tree, deref_node, ok_bind, root_node, deref_root h₁.stores,
            isRedRed_root h₁.stores.left]
          refine Mirrors.guarded ((rightRotate_mirrors h₁.stores).weaken fun _ _ => h₁.keep) h₁
            fun s₂ t₂ h₂ => ?_
          cases t₂ with
          | null => exact .error _
          | node a₂ x₂ l₂ r₂ =>
              simp only [tree, deref_node, ok_bind, root_node, deref_root h₂.stores,
                isRed_root h₂.stores.left, isRed_root h₂.stores.right, Bool.or_eq_true,
                root_eq_none_iff]
              split
              · exact .pure (t := .node a₂ x₂ l₂ r₂) h₂
              · exact flipReds_mirrors h₂

/-! ## Down the tree -/

/-- `h->left = x`, with what a call on `h->left` has made of the left child. -/
theorem setLeft_child (hs : Stores s (.node a x l r)) (hl : Becomes d s s' l l') :
    ∃ s'', setLeft s' (some a) l'.root = .ok s'' ∧
      Becomes d s s'' (.node a x l r) (.node a x l' r) := by
  have hcell := (hl.parent hs.cell (stores_node.mp hs).2.1).1
  refine ⟨s'.modify a fun n => { n with left := l'.root }, ?_, hl.left_modify hs rfl⟩
  rw [setLeft, assign, if_pos (by rw [hcell]; rfl)]

/-- `h->right = x`. -/
theorem setRight_child (hs : Stores s (.node a x l r)) (hr : Becomes d s s' r r') :
    ∃ s'', setRight s' (some a) r'.root = .ok s'' ∧
      Becomes d s s'' (.node a x l r) (.node a x l r') := by
  have hcell := (hr.parent hs.cell (stores_node.mp hs).2.2.1).1
  refine ⟨s'.modify a fun n => { n with right := r'.root }, ?_, hr.right_modify hs rfl⟩
  rw [setRight, assign, if_pos (by rw [hcell]; rfl)]

/-- A flip, and a rotation and a flip back when the left child has a red left one. -/
theorem moveRedRight_mirrors (hs : Stores s t) :
    Mirrors (Keeps s t) (SetTree.moveRedRight (tree t)) (moveRedRight s t.root) := by
  rw [SetTree.moveRedRight, moveRedRight]
  refine (colorFlip_mirrors hs).bind fun s₁ t₁ _ h₁ => ?_
  cases t₁ with
  | null => exact .error _
  | node a x l r =>
      have hkeep : Mirrors (Keeps s t) (pure (tree (.node a x l r))) (pure (s₁, some a)) :=
        .pure (t := .node a x l r) h₁
      simp only [deref_root h₁.stores, root_node, ok_bind, tree, deref_node]
      cases l with
      | null => exact hkeep
      | node b y ll lr =>
          simp only [deref_root h₁.stores.left, root_node, ok_bind, tree, deref_node, isNull_node,
            reduceCtorEq, Bool.false_eq_true, if_false, isRed_root h₁.stores.left.left]
          refine .test (fun _ => ?_) fun _ => hkeep
          refine (rightRotate_mirrors h₁.stores).bind fun s₂ t₂ _ h₂ => ?_
          exact (colorFlip_mirrors h₂.stores).weaken fun _ _ h₃ => (h₁.keep h₂).keep h₃

/-- A flip, and two rotations and a flip back when the right child has a red left one. -/
theorem moveRedLeft_mirrors (hs : Stores s t) :
    Mirrors (Keeps s t) (SetTree.moveRedLeft (tree t)) (moveRedLeft s t.root) := by
  rw [SetTree.moveRedLeft, moveRedLeft]
  refine (colorFlip_mirrors hs).bind fun s₁ t₁ _ h₁ => ?_
  cases t₁ with
  | null => exact .error _
  | node a x l r =>
      have hkeep : Mirrors (Keeps s t) (pure (tree (.node a x l r))) (pure (s₁, some a)) :=
        .pure (t := .node a x l r) h₁
      simp only [deref_root h₁.stores, root_node, ok_bind, tree, deref_node]
      cases r with
      | null => exact hkeep
      | node b y rl rr =>
          simp only [deref_root h₁.stores.right, root_node, ok_bind, tree, deref_node, isNull_node,
            reduceCtorEq, Bool.false_eq_true, if_false, isRed_root h₁.stores.right.left]
          refine .test (fun _ => ?_) fun _ => hkeep
          refine (rightRotate_mirrors h₁.stores.right).bind fun s₂ r₂ _ h₂ => ?_
          -- `h->right = rightRotate(h->right)`
          obtain ⟨s₃, hset, h₃⟩ := setRight_child h₁.stores h₂
          simp only [hset, ok_bind]
          refine (leftRotate_mirrors h₃.stores).bind fun s₄ t₄ _ h₄ => ?_
          exact (colorFlip_mirrors h₄.stores).weaken fun _ _ h₅ =>
            ((h₁.keep h₃).keep h₄).keep h₅

/-- One step down to the left. -/
theorem pushLeft_mirrors (hs : Stores s t) :
    Mirrors (Keeps s t) (SetTree.pushLeft (tree t)) (pushLeft s t.root) := by
  cases t with
  | null => exact .error _
  | node a x l r =>
      simp only [SetTree.pushLeft, pushLeft, tree, deref_node, ok_bind, root_node, deref_root hs,
        isBlackBlack_root hs.left]
      exact .test (fun _ => moveRedLeft_mirrors hs) fun _ => .pure (t := .node a x l r) hs.becomes

/-- A red left child is rotated up before the way goes right. -/
theorem leanRight_mirrors [LinearOrder T] (hs : Stores s t) :
    Mirrors (Keeps s t) (SetTree.leanRight (tree t)) (leanRight s t.root) := by
  cases t with
  | null => exact .error _
  | node a x l r =>
      have hkeep : Mirrors (Keeps s (.node a x l r)) (pure (tree (.node a x l r)))
        (pure (s, some a)) := .pure (t := .node a x l r) hs.becomes
      simp only [SetTree.leanRight, leanRight, tree, deref_node, ok_bind, root_node, deref_root hs,
        isRed_root hs.left, root_eq_none_iff]
      split
      · exact hkeep
      · exact .test (fun _ => rightRotate_mirrors hs) fun _ => hkeep

/-- One step down to the right. -/
theorem pushRight_mirrors [LinearOrder T] (hs : Stores s t) :
    Mirrors (Keeps s t) (SetTree.pushRight (tree t)) (pushRight s t.root) := by
  cases t with
  | null => exact .error _
  | node a x l r =>
      have hkeep : Mirrors (Keeps s (.node a x l r)) (pure (tree (.node a x l r)))
        (pure (s, some a)) := .pure (t := .node a x l r) hs.becomes
      simp only [SetTree.pushRight, pushRight, tree, deref_node, ok_bind, root_node, deref_root hs,
        isBlackBlack_root hs.right, root_eq_none_iff]
      split
      · exact hkeep
      · exact .test (fun _ => moveRedRight_mirrors hs) fun _ => hkeep

/-! ## What the way down leaves of a tree -/

section Shape

variable {c : Color} {v : T} {tl tr u : SetTree.Tree T}

theorem flipChild_inv (h : SetTree.flipChild tl = .ok u) : u = flipTop tl := by
  cases tl with
  | null | node => cases h; rfl
  | freed => cases h

theorem colorFlip_inv (h : SetTree.colorFlip (.node c v tl tr) = .ok u) :
    u = .node c.flip v (flipTop tl) (flipTop tr) := by
  obtain ⟨n, hn, h⟩ := bind_eq_ok.mp h
  cases hn
  obtain ⟨l', hl', h⟩ := bind_eq_ok.mp h
  obtain ⟨r', hr', h⟩ := bind_eq_ok.mp h
  obtain rfl := flipChild_inv hl'
  obtain rfl := flipChild_inv hr'
  cases h
  rfl

/-- What `pushLeft` makes of a node: nothing, a node with its links turned over,
    or one that has taken a node from its right. -/
inductive PushedLeft (c : Color) (v : T) (tl tr : SetTree.Tree T) : SetTree.Tree T → Prop where
  | still : PushedLeft c v tl tr (.node c v tl tr)
  | merged : PushedLeft c v tl tr (.node c.flip v (flipTop tl) (flipTop tr))
  | borrowed {cr crl : Color} {rv rlv : T} {rll rlr rr : SetTree.Tree T}
      (hr : flipTop tr = .node cr rv (.node crl rlv rll rlr) rr) :
      PushedLeft c v tl tr (.node c.flip.flip rlv (flipTop (.node .red v (flipTop tl) rll))
        (flipTop (.node .red rv rlr rr)))

/-- Everything a step to the left can leave. -/
theorem pushedLeft_of_pushLeft (h : SetTree.pushLeft (.node c v tl tr) = .ok u) :
    PushedLeft c v tl tr u := by
  simp only [SetTree.pushLeft, deref_node, ok_bind] at h
  obtain ⟨b, -, h⟩ := bind_eq_ok.mp h
  cases b with
  | false =>
      cases h
      exact .still
  | true =>
      obtain ⟨t₁, hflip, h⟩ := bind_eq_ok.mp h
      obtain rfl := colorFlip_inv hflip
      have hmerged : PushedLeft c v tl tr _ := .merged
      rw [deref_node, ok_bind] at h
      rcases hr : flipTop tr with _ | _ | ⟨cr, rv, _ | _ | ⟨_ | _, rlv, rll, rlr⟩, rr⟩ <;>
        rw [hr] at h hmerged
      · cases h
        exact hmerged
      · cases h
      · cases h
        exact hmerged
      · cases h
      · -- the right child has a red left link to lend
        have hflip : SetTree.colorFlip (.node c.flip rlv (.node .red v (flipTop tl) rll)
            (.node .red rv rlr rr)) = .ok u := h
        obtain rfl := colorFlip_inv hflip
        exact .borrowed hr
      · cases h
        exact hmerged

/-- What `leanRight` makes of a node. -/
inductive LeanedRight (c : Color) (v : T) (tl tr : SetTree.Tree T) : SetTree.Tree T → Prop where
  | still : LeanedRight c v tl tr (.node c v tl tr)
  | turned {cl : Color} {lv : T} {ll lr : SetTree.Tree T} (hl : tl = .node cl lv ll lr) :
      LeanedRight c v tl tr (.node c lv ll (.node .red v lr tr))

/-- Everything `leanRight` can leave. -/
theorem leanedRight_of_leanRight [LinearOrder T]
    (h : SetTree.leanRight (.node c v tl tr) = .ok u) : LeanedRight c v tl tr u := by
  rcases tl with _ | _ | ⟨_ | _, lv, ll, lr⟩
  · cases h
    exact .still
  · cases h
  · cases h
    exact .turned rfl
  · cases h
    exact .still

/-- What `pushRight` makes of a node. -/
inductive PushedRight (c : Color) (v : T) (tl tr : SetTree.Tree T) : SetTree.Tree T → Prop where
  | still : PushedRight c v tl tr (.node c v tl tr)
  | merged : PushedRight c v tl tr (.node c.flip v (flipTop tl) (flipTop tr))
  | borrowed {cl : Color} {lv : T} {ll lr : SetTree.Tree T} (hl : flipTop tl = .node cl lv ll lr) :
      PushedRight c v tl tr (.node c.flip.flip lv (flipTop ll)
        (flipTop (.node .red v lr (flipTop tr))))

/-- Everything a step to the right can leave. -/
theorem pushedRight_of_pushRight [LinearOrder T]
    (h : SetTree.pushRight (.node c v tl tr) = .ok u) : PushedRight c v tl tr u := by
  simp only [SetTree.pushRight, deref_node, ok_bind] at h
  split at h
  · cases h
    exact .still
  · obtain ⟨b, -, h⟩ := bind_eq_ok.mp h
    cases b with
    | false =>
        cases h
        exact .still
    | true =>
        obtain ⟨t₁, hflip, h⟩ := bind_eq_ok.mp h
        obtain rfl := colorFlip_inv hflip
        have hmerged : PushedRight c v tl tr _ := .merged
        rw [deref_node, ok_bind] at h
        rcases hl : flipTop tl with _ | _ | ⟨cl, lv, _ | _ | ⟨_ | _, llv, lll, llr⟩, lr⟩ <;>
          rw [hl] at h hmerged
        · cases h
          exact hmerged
        · cases h
        · cases h
          exact hmerged
        · cases h
        · -- the left child has a red left link to lend
          have hflip : SetTree.colorFlip (.node c.flip lv (.node .red llv lll llr)
              (.node .red v lr (flipTop tr))) = .ok u := h
          obtain rfl := colorFlip_inv hflip
          exact .borrowed hl
        · cases h
          exact hmerged

/-- The values are the same, in the same order. -/
theorem PushedLeft.toList_eq (h : PushedLeft c v tl tr u) :
    toList u = toList (.node c v tl tr) := by
  cases h with
  | still => rfl
  | merged => rw [toList_node, toList_node, toList_flipTop, toList_flipTop]
  | borrowed hr =>
      rw [toList_node c, ← toList_flipTop tr, hr]
      simp [toList_flipTop]

/-- No entry is lost on the way to the right. -/
theorem LeanedRight.toList_eq (h : LeanedRight c v tl tr u) :
    toList u = toList (.node c v tl tr) := by
  cases h with
  | still => rfl
  | turned hl =>
      rw [hl]
      simp

theorem PushedRight.toList_eq (h : PushedRight c v tl tr u) :
    toList u = toList (.node c v tl tr) := by
  cases h with
  | still => rfl
  | merged => rw [toList_node, toList_node, toList_flipTop, toList_flipTop]
  | borrowed hl =>
      rw [toList_node c, ← toList_flipTop tl, hl]
      simp [toList_flipTop]

/-- A recoloured tree is as empty as before. -/
theorem isNull_flipTop (t : SetTree.Tree T) :
    SetTree.isNull (flipTop t) = SetTree.isNull t := by
  cases t <;> rfl

/-- The step to the left leaves something to go down to. -/
theorem PushedLeft.isNull_eq {c₁ : Color} {v₁ : T} {l₁ r₁ : SetTree.Tree T}
    (h : PushedLeft c v tl tr (.node c₁ v₁ l₁ r₁)) (hl : SetTree.isNull tl = false) :
    SetTree.isNull l₁ = false := by
  cases h with
  | still => exact hl
  | merged => rw [isNull_flipTop, hl]
  | borrowed => rfl

end Shape

/-! ## Deletion -/

section Bare

variable [LinearOrder T] {c c₁ : Color} {v v₁ value : T} {tl tr l₁ r₁ u : SetTree.Tree T}

/-- The node with the value has no right child. -/
def bare (value : T) : SetTree.Tree T → Bool
  | .null | .freed => true
  | .node _ v l r =>
      if value < v then bare value l
      else if value = v then SetTree.isNull r
      else bare value r

theorem bare_flipTop (value : T) (t : SetTree.Tree T) : bare value (flipTop t) = bare value t := by
  cases t <;> rfl

/-- On the way to the left the node keeps its right child. -/
theorem PushedLeft.bare_eq (h : PushedLeft c v tl tr (.node c₁ v₁ l₁ r₁)) (hlt : value < v) :
    bare value l₁ = bare value tl := by
  cases h with
  | still => rfl
  | merged => exact bare_flipTop value tl
  | borrowed =>
      show bare value (.node _ v (flipTop tl) _) = _
      rw [bare, if_pos hlt, bare_flipTop]

/-- Leaning to the right does not change whether the node with the value has a right child. -/
theorem LeanedRight.bare_eq (h : LeanedRight c v tl tr (.node c₁ v₁ l₁ r₁))
    (hs : StrictSorted (toList tl ++ v :: toList tr)) (hge : v ≤ value) :
    v₁ ≤ v ∧ bare value (.node c₁ v₁ l₁ r₁) = bare value (.node c v tl tr) := by
  cases h with
  | still => exact ⟨le_rfl, rfl⟩
  | turned hl =>
      have hlt : v₁ < v := by
        refine (strictSorted_split.mp hs).2.2.1 v₁ ?_
        rw [hl]
        simp
      refine ⟨hlt.le, ?_⟩
      rw [bare, if_neg (hlt.trans_le hge).not_gt, if_neg (hlt.trans_le hge).ne']
      simp only [bare, if_neg hge.not_gt]

theorem PushedRight.bare_eq (h : PushedRight c v tl tr (.node c₁ v₁ l₁ r₁))
    (hs : StrictSorted (toList tl ++ v :: toList tr)) (hge : v ≤ value) :
    v₁ ≤ v ∧ bare value (.node c₁ v₁ l₁ r₁) = bare value (.node c v tl tr) := by
  have hflip : ∀ c', bare value (.node c' v (flipTop tl) (flipTop tr)) =
      bare value (.node c v tl tr) := by
    intro c'
    simp only [bare, bare_flipTop, isNull_flipTop]
  cases h with
  | still => exact ⟨le_rfl, rfl⟩
  | merged => exact ⟨le_rfl, hflip _⟩
  | borrowed hl =>
      have hlt : v₁ < v := by
        refine (strictSorted_split.mp hs).2.2.1 v₁ ?_
        rw [← toList_flipTop tl, hl]
        simp
      refine ⟨hlt.le, ?_⟩
      rw [bare, if_neg (hlt.trans_le hge).not_gt, if_neg (hlt.trans_le hge).ne', ← hflip c]
      simp only [flipTop, bare, if_neg hge.not_gt]

end Bare

/-- The loop of `min` runs down the left links. -/
theorem min_root {m : T} (hs : Stores s t) (h : SetTree.min (tree t) = .ok m) :
    min s t.root = .ok m := by
  have hloop : ∀ {t : Placed (Label T)} {fuel : Nat}, Stores s t → t.addrs.length < fuel →
      SetTree.min (tree t) = .ok m → minFrom s fuel t.root = .ok m := by
    intro t
    induction t with
    | null =>
        intro fuel _ _ hm
        cases hm
    | node a x l r ihl _ =>
        intro fuel hs hfuel hm
        obtain ⟨fuel, rfl⟩ := Nat.exists_eq_succ_of_ne_zero (by omega : fuel ≠ 0)
        simp only [root_node, minFrom, deref_root hs, ok_bind, root_eq_none_iff]
        rw [tree, SetTree.min] at hm
        split
        · next hnull =>
            rw [if_pos hnull] at hm
            exact hm
        · next hnull =>
            rw [if_neg hnull] at hm
            refine ihl hs.left ?_ hm
            rw [addrs, List.length_cons, List.length_append] at hfuel
            omega
  exact hloop hs (Nat.lt_succ_of_le hs.length_le) h

/-- The node keeps its place and its colour. -/
theorem setValue_root (hs : Stores s (.node a x l r)) (m : T) :
    ∃ s', setValue s (some a) m = .ok s' ∧
      Becomes 0 s s' (.node a x l r) (.node a ⟨m, x.color⟩ l r) :=
  ⟨_, assign_root hs _, hs.relabel rfl⟩

/-- **ERASEMIN** gives back one node. -/
theorem eraseMin_mirrors {k fuel : Nat} (hk : k ≤ fuel) (hs : Stores s t) :
    Mirrors (fun s' t' => Becomes (bif SetTree.isNull (tree t) then 0 else -1) s s' t t')
      (SetTree.eraseMin k (tree t)) (eraseMin fuel s t.root) := by
  induction k generalizing fuel s t with
  | zero => exact .error _
  | succ k ih =>
      obtain ⟨fuel, rfl⟩ := Nat.exists_eq_succ_of_ne_zero (by omega : fuel ≠ 0)
      cases t with
      | null => exact .pure (t := .null) hs.becomes
      | node a x l r =>
          by_cases hnull : SetTree.isNull (tree l) = true
          · -- `delete h; return nullptr;`
            intro u hu
            rw [tree, SetTree.eraseMin, isNull_node, deref_node, ok_bind,
              if_neg Bool.false_ne_true, if_pos hnull] at hu
            cases hu
            refine ⟨s.free a, .null, ?_, rfl, hs.free⟩
            simp only [root_node, eraseMin, deref_root hs, ok_bind, root_eq_none_iff, hnull,
              if_true, reduceCtorEq, if_false, delete, hs.cell, Option.isSome_some]
            rfl
          · have hl : SetTree.isNull (tree l) = false := eq_false_of_ne_true hnull
            rw [tree, eraseMin_node k hl]
            simp only [root_node, eraseMin, deref_root hs, ok_bind, root_eq_none_iff, hl,
              reduceCtorEq, if_false, Bool.false_eq_true]
            refine (pushLeft_mirrors hs).bind fun s₁ t₁ ht₁ h₁ => ?_
            cases t₁ with
            | null => exact .error _
            | node a₁ x₁ l₁ r₁ =>
                have hl₁ := (pushedLeft_of_pushLeft ht₁).isNull_eq hl
                simp only [root_node, deref_root h₁.stores, ok_bind, tree, deref_node]
                refine (ih (Nat.le_of_succ_le_succ hk) h₁.stores.left).bind fun s₂ l₂ _ h₂ => ?_
                rw [hl₁] at h₂
                obtain ⟨s₃, hset, h₃⟩ := setLeft_child h₁.stores h₂
                simp only [hset, ok_bind]
                exact (fixUp_mirrors h₃.stores).weaken fun _ _ h₄ => (h₁.kept h₃).keep h₄

section Erase

variable [LinearOrder T] {value : T} {k fuel : Nat}

/-- **ERASE** gives back one node, or none if the node with the value has no
    right child. -/
def EraseMirrored (value : T) (k fuel : Nat) : Prop :=
  ∀ {s : Heap T} {t : Placed (Label T)}, Stores s t → StrictSorted (toList (tree t)) →
    Mirrors (fun s' t' => Becomes (bif bare value (tree t) then 0 else -1) s s' t t')
      (SetTree.erase value k (tree t)) (erase value fuel s t.root)

/-- The right child of a node that was made ready, with the value in it or in
    the node. -/
theorem eraseRight_mirrors (hrest : EraseMirrored value k fuel) (hk : k ≤ fuel)
    (hs : Stores s (.node a x l r)) (hsorted : StrictSorted (toList (tree (.node a x l r))))
    (hge : x.value ≤ value) (hnull : value = x.value → SetTree.isNull (tree r) = false) :
    Mirrors (fun s' t' => Becomes (bif bare value (tree (.node a x l r)) then 0 else -1) s s'
        (.node a x l r) t')
      (if value = x.value then do
        let least ← SetTree.min (tree r)
        let right ← SetTree.eraseMin k (tree r)
        SetTree.fixUp (.node x.color least (tree l) right)
      else do
        let right ← SetTree.erase value k (tree r)
        SetTree.fixUp (.node x.color x.value (tree l) right))
      (if value = x.value then do
        let s ← setValue s (some a) (← min s r.root)
        let (s, right) ← eraseMin fuel s r.root
        let s ← setRight s (some a) right
        fixUp s (some a)
      else do
        let (s, right) ← erase value fuel s r.root
        let s ← setRight s (some a) right
        fixUp s (some a)) := by
  by_cases heq : value = x.value
  · have hr := hnull heq
    have hbare : bare value (tree (.node a x l r)) = false := by
      rw [tree, bare, if_neg hge.not_gt, if_pos heq, hr]
    rw [if_pos heq, if_pos heq, hbare]
    cases hmin : SetTree.min (tree r) with
    | error e => exact .error e
    | ok least =>
        obtain ⟨s₁, hset, h₁⟩ := setValue_root hs least
        simp only [ok_bind, min_root hs.right hmin, hset]
        refine (eraseMin_mirrors hk h₁.stores.right).bind fun s₂ r₂ _ h₂ => ?_
        rw [hr] at h₂
        obtain ⟨s₃, hset', h₃⟩ := setRight_child h₁.stores h₂
        simp only [hset', ok_bind]
        exact (fixUp_mirrors h₃.stores).weaken fun _ _ h₄ => (h₁.kept h₃).keep h₄
  · have hbare : bare value (tree (.node a x l r)) = bare value (tree r) := by
      rw [tree, bare, if_neg hge.not_gt, if_neg heq]
    rw [if_neg heq, if_neg heq, hbare]
    have hsorted' := (strictSorted_split.mp hsorted).2.1
    refine (hrest hs.right hsorted').bind fun s₁ r₁ _ h₁ => ?_
    obtain ⟨s₂, hset, h₂⟩ := setRight_child hs h₁
    simp only [hset, ok_bind]
    exact (fixUp_mirrors h₂.stores).weaken fun _ _ h₃ => h₂.keep h₃

/-- **ERASURE IN THE HEAP IS ERASURE IN THE TREE**, by induction on the fuel of the tree. -/
theorem erase_mirrors (hk : k ≤ fuel) : EraseMirrored value k fuel := by
  induction k generalizing fuel with
  | zero => exact fun _ _ => .error _
  | succ k ih =>
      intro s t hs hsorted
      obtain ⟨fuel, rfl⟩ := Nat.exists_eq_succ_of_ne_zero (by omega : fuel ≠ 0)
      have hk := Nat.le_of_succ_le_succ hk
      rw [erase_succ]
      cases t with
      | null => exact .error _
      | node a x l r =>
          generalize hb : bare value (tree (.node a x l r)) = b
          simp only [eraseLevel, erase, tree, deref_node, ok_bind, root_node, deref_root hs]
          by_cases hlt : value < x.value
          · rw [if_pos hlt, if_pos hlt]
            refine (pushLeft_mirrors hs).bind fun s₁ t₁ ht₁ h₁ => ?_
            cases t₁ with
            | null => exact .error _
            | node a₁ x₁ l₁ r₁ =>
                have hpushed := pushedLeft_of_pushLeft ht₁
                have hbare : bare value (tree l₁) = b := by
                  rw [hpushed.bare_eq hlt, ← hb, tree, bare, if_pos hlt]
                have hsorted₁ : StrictSorted (toList (tree (.node a₁ x₁ l₁ r₁))) :=
                  hpushed.toList_eq ▸ hsorted
                simp only [root_node, deref_root h₁.stores, ok_bind, tree, deref_node]
                refine (ih hk h₁.stores.left (strictSorted_split.mp hsorted₁).1).bind
                  fun s₂ l₂ _ h₂ => ?_
                rw [hbare] at h₂
                obtain ⟨s₃, hset, h₃⟩ := setLeft_child h₁.stores h₂
                simp only [hset, ok_bind]
                exact (fixUp_mirrors h₃.stores).weaken fun _ _ h₄ => (h₁.kept h₃).keep h₄
          · rw [if_neg hlt, if_neg hlt]
            refine (leanRight_mirrors hs).bind fun s₁ t₁ ht₁ h₁ => ?_
            cases t₁ with
            | null => exact .error _
            | node a₁ x₁ l₁ r₁ =>
                have hleaned := leanedRight_of_leanRight ht₁
                obtain ⟨hle₁, hbare₁⟩ := hleaned.bare_eq hsorted (not_lt.mp hlt)
                have hb₁ : bare value (tree (.node a₁ x₁ l₁ r₁)) = b := hbare₁.trans hb
                have hsorted₁ : StrictSorted (toList (tree (.node a₁ x₁ l₁ r₁))) :=
                  hleaned.toList_eq ▸ hsorted
                have hge₁ := hle₁.trans (not_lt.mp hlt)
                simp only [root_node, deref_root h₁.stores, ok_bind, tree, deref_node,
                  root_eq_none_iff]
                by_cases hfound : value = x₁.value ∧ SetTree.isNull (tree r₁) = true
                · -- `return nullptr;`
                  rw [if_pos hfound, if_pos hfound, ← hb₁, tree, bare, if_neg hge₁.not_gt,
                    if_pos hfound.1, hfound.2]
                  exact .pure (t := .null) (h₁.keep (becomes_forget s₁ _))
                · rw [if_neg hfound, if_neg hfound]
                  refine (pushRight_mirrors h₁.stores).bind fun s₂ t₂ ht₂ h₂ => ?_
                  cases t₂ with
                  | null => exact .error _
                  | node a₂ x₂ l₂ r₂ =>
                      have hpushed := pushedRight_of_pushRight ht₂
                      obtain ⟨hle₂, hbare₂⟩ := hpushed.bare_eq hsorted₁ hge₁
                      have hb₂ : bare value (tree (.node a₂ x₂ l₂ r₂)) = b := hbare₂.trans hb₁
                      have hsorted₂ : StrictSorted (toList (tree (.node a₂ x₂ l₂ r₂))) :=
                        hpushed.toList_eq ▸ hsorted₁
                      simp only [root_node, deref_root h₂.stores, ok_bind, tree, deref_node]
                      refine (eraseRight_mirrors (ih hk) hk h₂.stores hsorted₂ (hle₂.trans hge₁)
                        fun heq => ?_).weaken fun s₃ t₃ h₃ => ?_
                      · -- the root is the one that was tested above
                        have heq₁ : value = x₁.value := (hge₁.antisymm (heq ▸ hle₂)).symm
                        rw [bare, if_neg (heq ▸ lt_irrefl _), if_pos heq, bare,
                          if_neg (heq₁ ▸ lt_irrefl _), if_pos heq₁] at hbare₂
                        rw [hbare₂]
                        exact eq_false_of_ne_true fun hnull => hfound ⟨heq₁, hnull⟩
                      · rw [hb₂] at h₃
                        exact (h₁.keep h₂).kept h₃

end Erase

end SetHeap
