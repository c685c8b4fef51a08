import UniqueFreshman.SetTreeProofs
import UniqueFreshman.SortedListProofs

/-! # Balance of the set's tree — rotations, repairs and insertion

    `LLRB c n t`: the subtree `t` is left-leaning red-black, its top link has
    colour `c`, and every path down to a null pointer passes `n` black nodes.
    Over it:

    * what the repair `fixUp` computes, one equation for each shape it meets,
    * that the null tests in front of the repairs of `insert` change nothing,
    * `insert`: it does not fault, it keeps the black height, and the contents
      become `SortedList.ins` of the contents. -/

namespace SetTree

open SortedList CallSequence

variable {T : Type}

/-- The values below a pointer, in order. -/
def toList : Tree T → List T
  | .null | .freed => []
  | .node _ value left right => toList left ++ value :: toList right

@[simp] theorem toList_null : toList (.null : Tree T) = [] := rfl

@[simp] theorem toList_node (c : Color) (v : T) (l r : Tree T) :
    toList (.node c v l r) = toList l ++ v :: toList r := rfl

/-- One entry for each node. -/
theorem length_toList (t : Tree T) : (toList t).length = nodes t := by
  induction t with
  | null => rfl
  | freed => rfl
  | node c v l r ihl ihr =>
      rw [toList_node, List.length_append, List.length_cons, ihl, ihr]
      show _ = nodes l + 1 + nodes r
      omega

/-! ## Evaluation -/

@[simp] theorem deref_node (c : Color) (v : T) (l r : Tree T) :
    deref (.node c v l r) = .ok ⟨c, v, l, r⟩ := rfl

@[simp] theorem isNull_null : isNull (.null : Tree T) = true := rfl

@[simp] theorem isNull_node (c : Color) (v : T) (l r : Tree T) :
    isNull (.node c v l r) = false := rfl

@[simp] theorem isRed_null : isRed (.null : Tree T) = .ok false := rfl

@[simp] theorem isRed_node (c : Color) (v : T) (l r : Tree T) :
    isRed (.node c v l r) = .ok (c == .red) := rfl

@[simp] theorem leftRotate_node (c cr : Color) (v rv : T) (l rl rr : Tree T) :
    leftRotate (.node c v l (.node cr rv rl rr)) =
      .ok (.node c rv (.node .red v l rl) rr) := rfl

@[simp] theorem rightRotate_node (c cl : Color) (v lv : T) (ll lr r : Tree T) :
    rightRotate (.node c v (.node cl lv ll lr) r) =
      .ok (.node c lv ll (.node .red v lr r)) := rfl

@[simp] theorem colorFlip_node (c cl cr : Color) (v lv rv : T) (ll lr rl rr : Tree T) :
    colorFlip (.node c v (.node cl lv ll lr) (.node cr rv rl rr)) =
      .ok (.node c.flip v (.node cl.flip lv ll lr) (.node cr.flip rv rl rr)) := rfl

@[simp] theorem flip_red : Color.red.flip = .black := rfl

@[simp] theorem flip_black : Color.black.flip = .red := rfl

/-! ## Left-leaning red-black -/

/-- Left-leaning red-black, with the colour of the top link (a null pointer is
    black) and the number of black nodes on every path down. -/
inductive LLRB : Color → Nat → Tree T → Prop where
  | null : LLRB .black 0 .null
  | red {n : Nat} {v : T} {l r : Tree T} :
      LLRB .black n l → LLRB .black n r → LLRB .red n (.node .red v l r)
  | black {c : Color} {n : Nat} {v : T} {l r : Tree T} :
      LLRB c n l → LLRB .black n r → LLRB .black (n + 1) (.node .black v l r)

/-- `isRed` reads the colour that the tree is valid with. -/
theorem LLRB.isRed_eq {c : Color} {n : Nat} {t : Tree T} (h : LLRB c n t) :
    isRed t = .ok (c == .red) := by
  cases h <;> rfl

/-- No red node has a red left child. -/
theorem LLRB.isRedRed_eq {c : Color} {n : Nat} {t : Tree T} (h : LLRB c n t) :
    isRedRed t = .ok false := by
  cases h with
  | null => rfl
  | red hl _ => simp [isRedRed, hl.isRed_eq]
  | black _ _ => simp [isRedRed]

/-- The most nodes on a path down from a link of colour `c`, with `n` black ones. -/
def levels : Color → Nat → Nat
  | .red, n => 2 * n + 1
  | .black, n => 2 * n

/-- The children of a node are a level below, and the right one is black. -/
theorem LLRB.children {c c' : Color} {n : Nat} {v : T} {l r : Tree T}
    (h : LLRB c n (.node c' v l r)) :
    ∃ cl m, LLRB cl m l ∧ LLRB .black m r ∧
      levels cl m < levels c n ∧ levels .black m < levels c n := by
  cases h with
  | red hl hr => exact ⟨_, _, hl, hr, Nat.lt_succ_self _, Nat.lt_succ_self _⟩
  | @black cl m _ _ _ hl hr =>
      refine ⟨_, _, hl, hr, ?_, ?_⟩
      · cases cl <;> simp only [levels] <;> omega
      · simp only [levels]
        omega

/-- A tree of black height `n` is full down to `n` levels. -/
theorem LLRB.two_pow_le {c : Color} {n : Nat} {t : Tree T} (h : LLRB c n t) :
    2 ^ n ≤ nodes t + 1 := by
  induction h with
  | null => exact Nat.le_refl 1
  | red _ _ ihl ihr =>
      rw [nodes]
      omega
  | black _ _ ihl ihr =>
      rw [nodes, Nat.pow_succ]
      omega

/-- A tree has at least one node for each black level. -/
theorem LLRB.height_le_nodes {c : Color} {n : Nat} {t : Tree T} (h : LLRB c n t) :
    n ≤ nodes t := by
  have hpow := h.two_pow_le
  have hlt : n < 2 ^ n := Nat.lt_two_pow_self
  omega

/-! ## What `fixUp` computes -/

section FixUp

variable {c cl : Color} {m n : Nat} {v lv rv x : T} {l r ll lr rl rr a b : Tree T}

/-- Nothing to repair. -/
theorem fixUp_still (hl : LLRB cl m l) (hr : LLRB .black n r) :
    fixUp (.node c v l r) = .ok (.node c v l r) := by
  simp [fixUp, hr.isRed_eq, hl.isRedRed_eq, hl.isRed_eq]

/-- A red right link is leaned left. -/
theorem fixUp_lean (hl : LLRB .black m l) (hr : LLRB .black n rr) :
    fixUp (.node c v l (.node .red rv rl rr)) =
      .ok (.node c rv (.node .red v l rl) rr) := by
  simp [fixUp, isRedRed, hl.isRed_eq, hr.isRed_eq]

/-- Two red links are pushed up. -/
theorem fixUp_split :
    fixUp (.node c v (.node .red lv ll lr) (.node .red rv rl rr)) =
      .ok (.node c.flip v (.node .black lv ll lr) (.node .black rv rl rr)) := by
  simp [fixUp, isRedRed]

/-- Two red links in a row on the left are rotated and pushed up. -/
theorem fixUp_chain (hr : LLRB .black n r) :
    fixUp (.node c v (.node .red lv (.node .red x a b) lr) r) =
      .ok (.node c.flip lv (.node .black x a b) (.node .black v lr r)) := by
  simp [fixUp, isRedRed, hr.isRed_eq]

/-- **FIXUP RESTORES A BLACK NODE.**  Whatever the colours of two balanced
    children, the result is balanced, and red only if both were red. -/
theorem fixUp_black {cr : Color} (hl : LLRB cl n l) (hr : LLRB cr n r) :
    ∃ c' t, fixUp (.node .black v l r) = .ok t ∧ LLRB c' (n + 1) t ∧
      toList t = toList l ++ v :: toList r ∧ (c' = .red → cl = .red ∧ cr = .red) := by
  cases cr with
  | black => exact ⟨.black, _, fixUp_still hl hr, .black hl hr, rfl, nofun⟩
  | red =>
      cases hr with
      | red hrl hrr =>
          cases cl with
          | black =>
              refine ⟨.black, _, fixUp_lean hl hrr, .black (.red hl hrl) hrr, ?_, nofun⟩
              simp
          | red =>
              cases hl with
              | red hll hlr =>
                  exact ⟨.red, _, fixUp_split, .red (.black hll hlr) (.black hrl hrr),
                    rfl, fun _ => ⟨rfl, rfl⟩⟩

end FixUp

/-- The null tests of `insert` only guard reads that are safe on a null
    pointer, so its repairs are those of `fixUp`. -/
theorem insertFix_eq_fixUp (h : Tree T) : insertFix h = fixUp h := by
  -- A dangling left link faults in the second repair, before the third reads it.
  have hrest (h : Tree T) :
      (do
        let n ← deref h
        let h ← if isNull n.left then pure h
          else do if ← isRedRed n.left then rightRotate h else pure h
        let n ← deref h
        if isNull n.left || isNull n.right then pure h
        else do
          if ← isRed n.left then
            if ← isRed n.right then colorFlip h else pure h
          else pure h : Except Fault (Tree T)) =
      (do
        let n ← deref h
        let h ← if ← isRedRed n.left then rightRotate h else pure h
        let n ← deref h
        if ← isRed n.left then
          if ← isRed n.right then colorFlip h else pure h
        else pure h) := by
    cases h with
    | null => rfl
    | freed => rfl
    | node c v l r =>
        cases l with
        | null => rfl
        | freed => rfl
        | node cl lv ll lr =>
            cases cl with
            | black => cases r <;> rfl
            | red =>
                cases ll with
                | null => cases r <;> rfl
                | freed => rfl
                | node cll llv a b => cases cll <;> cases r <;> rfl
  simp only [insertFix, fixUp, hrest]
  cases h with
  | null => rfl
  | freed => rfl
  | node c v l r => cases r <;> rfl

/-! ## Insertion -/

/-- What `insert` makes of a subtree of colour `c`: below a black link any
    balanced tree, below a red one a red node whose left child may be red. -/
def Grown (c : Color) (n : Nat) (t : Tree T) : Prop :=
  match c with
  | .black => ∃ c', LLRB c' n t
  | .red => ∃ c' v l r, t = .node .red v l r ∧ LLRB c' n l ∧ LLRB .black n r

section Insert

variable {c cl : Color} {n : Nat} {v : T} {l r : Tree T}

/-- A balanced tree has grown by nothing. -/
theorem LLRB.grown {t : Tree T} (h : LLRB c n t) : Grown c n t := by
  cases h with
  | null => exact ⟨_, .null⟩
  | red hl hr => exact ⟨_, _, _, _, rfl, hl, hr⟩
  | black hl hr => exact ⟨_, .black hl hr⟩

/-- The left child of a black node has grown. -/
theorem fixUp_grown_left (hl : Grown cl n l) (hr : LLRB .black n r) :
    ∃ t, fixUp (.node .black v l r) = .ok t ∧ Grown .black (n + 1) t ∧
      toList t = toList l ++ v :: toList r := by
  cases cl with
  | black =>
      obtain ⟨c', hl⟩ := hl
      exact ⟨_, fixUp_still hl hr, ⟨_, .black hl hr⟩, rfl⟩
  | red =>
      obtain ⟨c', lv, ll, lr, rfl, hll, hlr⟩ := hl
      cases c' with
      | black =>
          have hl := LLRB.red (v := lv) hll hlr
          exact ⟨_, fixUp_still hl hr, ⟨_, .black hl hr⟩, rfl⟩
      | red =>
          cases hll with
          | red ha hb =>
              refine ⟨_, fixUp_chain hr, ⟨_, .red (.black ha hb) (.black hlr hr)⟩, ?_⟩
              simp

/-- The left child of a red node has grown. -/
theorem fixUp_red_left (hl : Grown .black n l) (hr : LLRB .black n r) :
    ∃ t, fixUp (.node .red v l r) = .ok t ∧ Grown .red n t ∧
      toList t = toList l ++ v :: toList r := by
  obtain ⟨c', hl⟩ := hl
  exact ⟨_, fixUp_still hl hr, ⟨_, _, _, _, rfl, hl, hr⟩, rfl⟩

/-- The right child of a black node has grown. -/
theorem fixUp_grown_right (hl : LLRB cl n l) (hr : Grown .black n r) :
    ∃ t, fixUp (.node .black v l r) = .ok t ∧ Grown .black (n + 1) t ∧
      toList t = toList l ++ v :: toList r := by
  obtain ⟨c', hr⟩ := hr
  obtain ⟨c'', t, ht, hbal, hlist, -⟩ := fixUp_black (v := v) hl hr
  exact ⟨t, ht, ⟨c'', hbal⟩, hlist⟩

/-- The right child of a red node has grown. -/
theorem fixUp_red_right (hl : LLRB .black n l) (hr : Grown .black n r) :
    ∃ t, fixUp (.node .red v l r) = .ok t ∧ Grown .red n t ∧
      toList t = toList l ++ v :: toList r := by
  obtain ⟨c', hr⟩ := hr
  cases c' with
  | black => exact ⟨_, fixUp_still hl hr, ⟨_, _, _, _, rfl, hl, hr⟩, rfl⟩
  | red =>
      cases hr with
      | red hrl hrr =>
          refine ⟨_, fixUp_lean hl hrr, ⟨_, _, _, _, rfl, .red hl hrl, hrr⟩, ?_⟩
          simp

/-- What happens below the left link, seen from the node. -/
theorem LLRB.grow_left {c' : Color} (h : LLRB c n (.node c' v l r)) :
    ∃ cl m, LLRB cl m l ∧ ∀ l', Grown cl m l' →
      ∃ t, fixUp (.node c' v l' r) = .ok t ∧ Grown c n t ∧
        toList t = toList l' ++ v :: toList r := by
  cases h with
  | red hl hr => exact ⟨_, _, hl, fun _ hg => fixUp_red_left hg hr⟩
  | black hl hr => exact ⟨_, _, hl, fun _ hg => fixUp_grown_left hg hr⟩

/-- What happens below the right link, seen from the node. -/
theorem LLRB.grow_right {c' : Color} (h : LLRB c n (.node c' v l r)) :
    ∃ cr m, LLRB cr m r ∧ ∀ r', Grown cr m r' →
      ∃ t, fixUp (.node c' v l r') = .ok t ∧ Grown c n t ∧
        toList t = toList l ++ v :: toList r' := by
  cases h with
  | red hl hr => exact ⟨_, _, hr, fun _ hg => fixUp_red_right hl hg⟩
  | black hl hr => exact ⟨_, _, hr, fun _ hg => fixUp_grown_right hl hg⟩

/-- A balanced node is not repaired. -/
theorem LLRB.fixUp_eq {c' : Color} (h : LLRB c n (.node c' v l r)) :
    fixUp (.node c' v l r) = .ok (.node c' v l r) := by
  cases h with
  | red hl hr => exact fixUp_still hl hr
  | black hl hr => exact fixUp_still hl hr

variable [LinearOrder T]

/-- One level of `insert`, with the repairs of both branches. -/
theorem insert_node (value : T) (c : Color) (x : T) (l r : Tree T) :
    insert value (.node c x l r) =
      if value < x then do fixUp (.node c x (← insert value l) r)
      else if value > x then do fixUp (.node c x l (← insert value r))
      else fixUp (.node c x l r) := by
  simp only [insert, insertFix_eq_fixUp]

/-- **INSERT KEEPS THE BALANCE.**  It does not fault, the black height stays,
    and the value is put at its place. -/
theorem insert_spec (value : T) {t : Tree T} (h : LLRB c n t)
    (hs : StrictSorted (toList t)) :
    ∃ t', insert value t = .ok t' ∧ Grown c n t' ∧ toList t' = ins value (toList t) := by
  induction t generalizing c n with
  | null =>
      cases h
      exact ⟨_, rfl, ⟨_, .red .null .null⟩, rfl⟩
  | freed => nomatch h
  | node c' x l r ihl ihr =>
      obtain ⟨hsl, hsr, hlx, hxr⟩ := strictSorted_split.mp hs
      rw [insert_node, toList_node]
      rcases lt_trichotomy value x with hlt | rfl | hgt
      · obtain ⟨cl, m, hl, hleft⟩ := h.grow_left
        obtain ⟨l', hl', hgl, hlist⟩ := ihl hl hsl
        rw [if_pos hlt, hl', ins_append_of_lt hlt, ← hlist]
        exact hleft l' hgl
      · rw [if_neg (lt_irrefl _), if_neg (lt_irrefl _), ins_append_self hlx]
        exact ⟨_, h.fixUp_eq, h.grown, rfl⟩
      · obtain ⟨cr, m, hr, hright⟩ := h.grow_right
        obtain ⟨r', hr', hgr, hlist⟩ := ihr hr hsr
        rw [if_neg (not_lt_of_gt hgt), if_pos hgt, hr',
          ins_append_of_gt hgt (fun y hy => lt_trans (hlx y hy) hgt), ← hlist]
        exact hright r' hgr

end Insert

end SetTree
