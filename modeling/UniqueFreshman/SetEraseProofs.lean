import UniqueFreshman.SetBalanceProofs

/-! # Deletion from the set's tree — `eraseMin` and `erase`

    On its way down a deletion makes sure that the node it enters is red or has
    a red left link (`Ready`), so that a node can be cut off at the bottom
    without changing a black height; on its way up `fixUp` leans and splits
    what the descent left behind.  One lemma says what a descent to the left
    prepares and repairs (`descend_left`, shared by `eraseMin` and `erase`),
    one does so for a descent to the right (`descend_right`).

    After `moveRedRight` rotated, `erase` enters a black node whose RIGHT link
    is red; `Entered` has that shape as well.

    The trees are rebuilt on the way down, so the depth of the recursion is not a
    matter of the tree it starts on.  Each descent goes to a child with fewer
    `levels`, and these are the fuel that the recursion needs. -/

namespace SetTree

open SortedList CallSequence

variable {T : Type}

/-! ## What a descent keeps -/

/-- A red node, or a black one with a red left link. -/
inductive Ready : Color → Nat → Tree T → Prop where
  | red {n : Nat} {v : T} {l r : Tree T} :
      LLRB .black n l → LLRB .black n r → Ready .red n (.node .red v l r)
  | black {n : Nat} {v lv : T} {ll lr r : Tree T} :
      LLRB .black n ll → LLRB .black n lr → LLRB .black n r →
      Ready .black (n + 1) (.node .black v (.node .red lv ll lr) r)

/-- The levels of such a subtree, which are the fuel of a deletion, are no more than its nodes. -/
theorem Ready.levels_le_nodes {c : Color} {n : Nat} {t : Tree T} (h : Ready c n t) :
    levels c n ≤ nodes t := by
  cases h with
  | red hl hr =>
      have hnl := hl.height_le_nodes
      have hnr := hr.height_le_nodes
      simp only [levels, nodes]
      omega
  | black hll hlr hr =>
      have hnll := hll.height_le_nodes
      have hnlr := hlr.height_le_nodes
      simp only [levels, nodes]
      omega

/-- What a deletion leaves in the place of a subtree of colour `c`: a balanced
    tree of the same black height, black where a black one was. -/
def Settled (c : Color) (n : Nat) (t : Tree T) : Prop :=
  ∃ c', LLRB c' n t ∧ (c = .black → c' = .black)

/-- Any settled tree below the left link is repaired to a settled tree. -/
def ClosesLeft (c : Color) (n : Nat) (c' : Color) (m : Nat) (top : Color) (v : T)
    (r : Tree T) : Prop :=
  ∀ l, Settled c' m l → ∃ t, fixUp (.node top v l r) = .ok t ∧ Settled c n t ∧
    toList t = toList l ++ v :: toList r

/-- Any settled tree below the right link is repaired to a settled tree,
    whatever value the node has got. -/
def ClosesRight (c : Color) (n : Nat) (c' : Color) (m : Nat) (top : Color)
    (l : Tree T) : Prop :=
  ∀ v r, Settled c' m r → ∃ t, fixUp (.node top v l r) = .ok t ∧ Settled c n t ∧
    toList t = toList l ++ v :: toList r

section Closing

variable {c cl cr : Color} {n : Nat} {v : T} {t l r : Tree T}

/-- A tree that is ready for a descent is valid. -/
theorem Ready.llrb (h : Ready c n t) : LLRB c n t := by
  cases h with
  | red hl hr => exact .red hl hr
  | black hll hlr hr => exact .black (.red hll hlr) hr

/-- What is settled as a black tree is one. -/
theorem Settled.black (h : Settled .black n t) : LLRB .black n t := by
  obtain ⟨c', ht, hc⟩ := h
  exact hc rfl ▸ ht

theorem LLRB.settled (h : LLRB c n t) : Settled .red n t :=
  ⟨c, h, nofun⟩

/-- Below a red node the child stays black. -/
theorem closesLeft_red (hr : LLRB .black n r) : ClosesLeft .red n .black n .red v r :=
  fun _ hl => ⟨_, fixUp_still hl.black hr, (LLRB.red hl.black hr).settled, rfl⟩

theorem closesRight_red (hl : LLRB .black n l) : ClosesRight .red n .black n .red l :=
  fun _ _ hr => ⟨_, fixUp_still hl hr.black, (LLRB.red hl hr.black).settled, rfl⟩

/-- Below a black node that was a red one before a colour flip. -/
theorem closesLeft_merged (hr : LLRB cr n r) :
    ClosesLeft .red (n + 1) .red n .black v r := by
  rintro l ⟨c', hl, -⟩
  obtain ⟨c'', t, ht, hbal, hlist, -⟩ := fixUp_black (v := v) hl hr
  exact ⟨t, ht, hbal.settled, hlist⟩

theorem closesRight_merged (hl : LLRB cl n l) :
    ClosesRight .red (n + 1) .red n .black l := by
  rintro v r ⟨c', hr, -⟩
  obtain ⟨c'', t, ht, hbal, hlist, -⟩ := fixUp_black (v := v) hl hr
  exact ⟨t, ht, hbal.settled, hlist⟩

/-- Below a black node with a black child on the other side. -/
theorem closesLeft_black (hr : LLRB .black n r) :
    ClosesLeft .black (n + 1) .red n .black v r := by
  rintro l ⟨c', hl, -⟩
  obtain ⟨c'', t, ht, hbal, hlist, hred⟩ := fixUp_black (v := v) hl hr
  cases c'' with
  | black => exact ⟨t, ht, ⟨_, hbal, fun _ => rfl⟩, hlist⟩
  | red => nomatch (hred rfl).2

theorem closesRight_black (hl : LLRB .black n l) :
    ClosesRight .black (n + 1) .red n .black l := by
  rintro v r ⟨c', hr, -⟩
  obtain ⟨c'', t, ht, hbal, hlist, hred⟩ := fixUp_black (v := v) hl hr
  cases c'' with
  | black => exact ⟨t, ht, ⟨_, hbal, fun _ => rfl⟩, hlist⟩
  | red => nomatch (hred rfl).1

end Closing

/-! ## Down the left link -/

section Left

variable {c c₀ : Color} {n : Nat} {v : T} {l r : Tree T}

/-- A black child needs a red link unless its own left link is red. -/
theorem isBlackBlack_black {cll : Color} {lv : T} {ll lr : Tree T} {m : Nat}
    (hll : LLRB cll m ll) : isBlackBlack (.node .black lv ll lr) = .ok (cll == .black) := by
  cases cll <;> simp [isBlackBlack, hll.isRed_eq]

/-- The right sibling lends its red link. -/
theorem moveRedLeft_borrow (v lv rv x : T) (ll lr a b rr : Tree T) :
    moveRedLeft (.node .red v (.node .black lv ll lr)
      (.node .black rv (.node .red x a b) rr)) =
      .ok (.node .red x (.node .black v (.node .red lv ll lr) a)
        (.node .black rv b rr)) := by
  simp [moveRedLeft]

/-- The right sibling has none to lend, and both go red. -/
theorem moveRedLeft_merge (v lv rv : T) (ll lr rr : Tree T) {rl : Tree T} {m : Nat}
    (hrl : LLRB .black m rl) :
    moveRedLeft (.node .red v (.node .black lv ll lr) (.node .black rv rl rr)) =
      .ok (.node .black v (.node .red lv ll lr) (.node .red rv rl rr)) := by
  simp [moveRedLeft, hrl.isRed_eq]

/-- The step of `eraseMin` and of `erase` in front of the left child. -/
def pushLeft (h : Tree T) : Except Fault (Tree T) := do
  let n ← deref h
  if ← isBlackBlack n.left then moveRedLeft h else pure h

/-- **DOWN THE LEFT LINK.**  From a node that is ready, one step prepares the
    left child, a level below, and loses nothing; the child gets at most new
    values at its right end. -/
theorem descend_left (h : Ready c n (.node c₀ v l r)) (hl : isNull l = false) :
    ∃ c₁ v₁ l₁ r₁ c' m,
      pushLeft (.node c₀ v l r) = .ok (.node c₁ v₁ l₁ r₁) ∧
      toList (.node c₀ v l r) = toList l₁ ++ v₁ :: toList r₁ ∧
      toList l <+: toList l₁ ∧ Ready c' m l₁ ∧ levels c' m < levels c n ∧
      ClosesLeft c n c' m c₁ v₁ r₁ := by
  cases h with
  | black hll hlr hr =>
      exact ⟨_, _, _, _, _, _, rfl, rfl, List.prefix_rfl, .red hll hlr,
        Nat.lt_succ_self _, closesLeft_black hr⟩
  | red hl hr =>
      cases hl with
      | null => nomatch hl
      | @black cll m lv ll lr hll hlr =>
          simp only [pushLeft, deref_node, ok_bind, isBlackBlack_black hll]
          cases cll with
          | red =>
              cases hll with
              | red ha hb =>
                  exact ⟨_, _, _, _, _, _, rfl, rfl, List.prefix_rfl, .black ha hb hlr,
                    Nat.lt_succ_self _, closesLeft_red hr⟩
          | black =>
              cases hr with
              | @black crl _ rv rl rr hrl hrr =>
                  cases crl with
                  | black =>
                      exact ⟨_, _, _, _, _, _, moveRedLeft_merge v lv rv ll lr rr hrl, rfl,
                        List.prefix_rfl, .red hll hlr, by simp only [levels]; omega,
                        closesLeft_merged (.red hrl hrr)⟩
                  | red =>
                      cases hrl with
                      | @red _ x a b ha hb =>
                          refine ⟨_, _, _, _, _, _,
                            moveRedLeft_borrow v lv rv x ll lr a b rr, ?_, ?_,
                            .black hll hlr ha, Nat.lt_succ_self _,
                            closesLeft_red (.black hb hrr)⟩
                          · simp
                          · simp

end Left

/-! ## The minimum -/

section Minimum

variable {c : Color} {n : Nat} {t : Tree T}

/-- `min` finds the first value in order. -/
theorem LLRB.min_eq {x : T} {xs : List T} (h : LLRB c n t) (hx : toList t = x :: xs) :
    min t = .ok x := by
  induction t generalizing c n x xs with
  | null => nomatch hx
  | freed => nomatch h
  | node c₀ v l r ihl _ =>
      obtain ⟨cl, m, hl, -, -, -⟩ := h.children
      cases l with
      | null =>
          obtain ⟨rfl, -⟩ := List.cons.inj hx
          rfl
      | freed => nomatch hl
      | node cl lv ll lr =>
          cases hy : toList (.node cl lv ll lr) with
          | nil => simp at hy
          | cons y ys =>
              rw [toList_node, hy] at hx
              obtain ⟨rfl, -⟩ := List.cons.inj hx
              exact ihl hl hy

/-- The loop of `min` on a budget of levels. -/
def minWithin : Nat → Tree T → Except Fault T
  | _, .null => .error .nullDeref
  | _, .freed => .error .useAfterFree
  | 0, .node .. => .error .outOfFuel
  | k + 1, .node _ value left _ => if isNull left then .ok value else minWithin k left

/-- The search for the minimum ends within the levels of the tree. -/
theorem LLRB.minWithin_eq {k : Nat} (h : LLRB c n t) (hk : levels c n ≤ k) :
    minWithin k t = min t := by
  induction t generalizing c n k with
  | null => cases k <;> rfl
  | freed => nomatch h
  | node c₀ v l r ihl _ =>
      obtain ⟨cl, m, hl, -, hlevel, -⟩ := h.children
      obtain ⟨k, rfl⟩ := Nat.exists_eq_succ_of_ne_zero (n := k) (by omega)
      rw [minWithin, SetTree.min, ihl hl (by omega)]

/-- One level of `eraseMin`. -/
theorem eraseMin_node (fuel : Nat) {c : Color} {v : T} {l r : Tree T}
    (hl : isNull l = false) :
    eraseMin (fuel + 1) (.node c v l r) = (do
      let n ← deref (← pushLeft (.node c v l r))
      let left ← eraseMin fuel n.left
      fixUp (.node n.color n.value left n.right)) := by
  simp only [eraseMin, pushLeft, isNull_node, deref_node, ok_bind, hl]
  rcases isBlackBlack l with _ | (_ | _) <;> rfl

/-- **ERASEMIN** cuts off the first value in order, and keeps the balance; it
    goes no deeper than the levels of the subtree. -/
theorem eraseMin_spec (k : Nat) (h : Ready c n t) (hk : levels c n ≤ k) :
    ∃ x t', (∀ fuel, k ≤ fuel → eraseMin fuel t = .ok t') ∧ Settled c n t' ∧
      toList t = x :: toList t' := by
  induction k generalizing c n t with
  | zero =>
      cases h with
      | red | black => simp only [levels] at hk; omega
  | succ k ih =>
      obtain ⟨c₀, v, l, r, rfl⟩ : ∃ c₀ v l r, t = .node c₀ v l r := by
        cases h <;> exact ⟨_, _, _, _, rfl⟩
      cases hl : isNull l with
      | true =>
          cases h with
          | black _ _ _ => exact absurd hl Bool.false_ne_true
          | red hbl hbr =>
              cases hbl with
              | black _ _ => exact absurd hl Bool.false_ne_true
              | null =>
                  cases hbr
                  refine ⟨v, .null, fun fuel hfuel => ?_, LLRB.null.settled, rfl⟩
                  obtain ⟨fuel, rfl⟩ := Nat.exists_eq_add_of_le' hfuel
                  rfl
      | false =>
          obtain ⟨c₁, v₁, l₁, r₁, c', m, hmove, hlist, -, hready, hlevel, hclose⟩ :=
            descend_left h hl
          obtain ⟨x, l', hl', hset, hx⟩ := ih hready (by omega)
          obtain ⟨t', ht', hset', hlist'⟩ := hclose l' hset
          refine ⟨x, t', fun fuel hfuel => ?_, hset', ?_⟩
          · obtain ⟨fuel, rfl⟩ := Nat.exists_eq_succ_of_ne_zero (n := fuel) (by omega)
            simp [eraseMin_node fuel hl, hmove, hl' fuel (by omega), ht']
          · rw [hlist, hx, hlist', List.cons_append]

end Minimum

/-! ## Down the right link -/

/-- Where `erase` enters a subtree: a node that is ready, or, behind a rotation
    of `moveRedRight`, a black node with a red right link and a value that is
    not above the one looked for. -/
inductive Entered [LinearOrder T] (value : T) : Color → Nat → Tree T → Prop where
  | ready {c : Color} {n : Nat} {t : Tree T} : Ready c n t → Entered value c n t
  | right {n : Nat} {v rv : T} {l rl rr : Tree T} : v ≤ value →
      LLRB .black n l → LLRB .black n rl → LLRB .black n rr →
      Entered value .black (n + 1) (.node .black v l (.node .red rv rl rr))

section Right

variable {c c₀ : Color} {n : Nat} {v : T} {l r : Tree T}

/-- The left sibling lends its red link. -/
theorem moveRedRight_borrow (v lv rv x : T) (a b lr rl rr : Tree T) :
    moveRedRight (.node .red v (.node .black lv (.node .red x a b) lr)
      (.node .black rv rl rr)) =
      .ok (.node .red lv (.node .black x a b)
        (.node .black v lr (.node .red rv rl rr))) := by
  simp [moveRedRight]

/-- The left sibling has none to lend, and both go red. -/
theorem moveRedRight_merge (v lv rv : T) (lr rl rr : Tree T) {ll : Tree T} {m : Nat}
    (hll : LLRB .black m ll) :
    moveRedRight (.node .red v (.node .black lv ll lr) (.node .black rv rl rr)) =
      .ok (.node .black v (.node .red lv ll lr) (.node .red rv rl rr)) := by
  simp [moveRedRight, hll.isRed_eq]

/-- and a black one stays. -/
theorem leanRight_black {m : Nat} (hl : LLRB .black m l) :
    leanRight (.node c v l r) = .ok (.node c v l r) := by
  cases hl <;> rfl

/-- A red left child is rotated up, -/
theorem leanRight_red (c : Color) (v lv : T) (ll lr r : Tree T) :
    leanRight (.node c v (.node .red lv ll lr) r) =
      .ok (.node c lv ll (.node .red v lr r)) := rfl

theorem pushRight_red (c : Color) (v rv : T) (l rl rr : Tree T) :
    pushRight (.node c v l (.node .red rv rl rr)) =
      .ok (.node c v l (.node .red rv rl rr)) := rfl

/-- A black right child gets a red link, unless it has one. -/
theorem pushRight_black {crl : Color} {m : Nat} {rl : Tree T} (c : Color) (v rv : T)
    (l rr : Tree T) (hrl : LLRB crl m rl) :
    pushRight (.node c v l (.node .black rv rl rr)) =
      if crl = .black then moveRedRight (.node c v l (.node .black rv rl rr))
      else .ok (.node c v l (.node .black rv rl rr)) := by
  cases crl <;> simp [pushRight, isBlackBlack_black hrl]

variable [LinearOrder T] {value : T}

/-- **DOWN THE RIGHT LINK.**  From an entered node whose value is not above the
    one looked for, either the node is the whole subtree, or one step prepares
    the right child, a level below, and loses nothing. -/
theorem descend_right (h : Entered value c n (.node c₀ v l r)) (hv : v ≤ value)
    (hs : StrictSorted (toList (.node c₀ v l r))) :
    (l = .null ∧ r = .null ∧ c = .red ∧ n = 0) ∨
    ∃ c₂ v₂ l₂ r₂ c₁ v₁ l₁ r₁ c' m,
      leanRight (.node c₀ v l r) = .ok (.node c₂ v₂ l₂ r₂) ∧ isNull r₂ = false ∧
      pushRight (.node c₂ v₂ l₂ r₂) = .ok (.node c₁ v₁ l₁ r₁) ∧
      toList (.node c₀ v l r) = toList l₁ ++ v₁ :: toList r₁ ∧
      v₁ ≤ value ∧ (v₁ = value → Ready c' m r₁) ∧ Entered value c' m r₁ ∧
      levels c' m < levels c n ∧ ClosesRight c n c' m c₁ l₁ := by
  cases h with
  | right _ hl hrl hrr =>
      exact .inr ⟨_, _, _, _, _, _, _, _, _, _, leanRight_black hl, rfl, rfl, rfl, hv,
        fun _ => .red hrl hrr, .ready (.red hrl hrr), Nat.lt_succ_self _,
        closesRight_black hl⟩
  | ready h =>
      cases h with
      | @black n v lv ll lr r hll hlr hr =>
          -- The rotated node has the left child's value, below the one looked for.
          have hlv : lv < v := (strictSorted_split.mp hs).2.2.1 lv (by simp)
          refine .inr ⟨_, _, _, _, _, _, _, _, _, _, leanRight_red .., rfl,
            pushRight_red .., ?_, (lt_of_lt_of_le hlv hv).le, fun _ => .red hlr hr,
            .ready (.red hlr hr), Nat.lt_succ_self _, closesRight_black hll⟩
          simp
      | red hl hr =>
          cases hr with
          | null =>
              cases hl
              exact .inl ⟨rfl, rfl, rfl, rfl⟩
          | @black crl m rv rl rr hrl hrr =>
              have hlean := leanRight_black (c := .red) (v := v)
                (r := .node .black rv rl rr) hl
              have hpush := pushRight_black .red v rv l rr hrl
              cases crl with
              | red =>
                  cases hrl with
                  | red ha hb =>
                      exact .inr ⟨_, _, _, _, _, _, _, _, _, _, hlean, rfl, hpush, rfl, hv,
                        fun _ => .black ha hb hrr, .ready (.black ha hb hrr),
                        Nat.lt_succ_self _, closesRight_red hl⟩
              | black =>
                  cases hl with
                  | @black cll _ lv ll lr hll hlr =>
                      have hlv : lv < v := (strictSorted_split.mp hs).2.2.1 lv (by simp)
                      have hlt : lv < value := lt_of_lt_of_le hlv hv
                      cases cll with
                      | black =>
                          rw [if_pos rfl, moveRedRight_merge v lv rv lr rl rr hll] at hpush
                          exact .inr ⟨_, _, _, _, _, _, _, _, _, _, hlean, rfl, hpush, rfl,
                            hv, fun _ => .red hrl hrr, .ready (.red hrl hrr),
                            by simp only [levels]; omega, closesRight_merged (.red hll hlr)⟩
                      | red =>
                          cases hll with
                          | @red _ x a b ha hb =>
                              rw [if_pos rfl, moveRedRight_borrow] at hpush
                              refine .inr ⟨_, _, _, _, _, _, _, _, _, _, hlean, rfl,
                                hpush, ?_, hlt.le, fun heq => absurd heq hlt.ne,
                                .right hv hlr hrl hrr, Nat.lt_succ_self _,
                                closesRight_red (.black ha hb)⟩
                              simp

end Right

/-! ## Deletion -/

section Erase

variable [LinearOrder T] {c c₀ : Color} {n : Nat} {value : T}

/-- One level of `erase`, with what it calls below: `least` and `cut` on the
    right child where the value is found, `rest` on a child where it is not. -/
def eraseLevel (least : Tree T → Except Fault T) (cut rest : Tree T → Except Fault (Tree T))
    (value : T) (h : Tree T) : Except Fault (Tree T) := do
  let n ← deref h
  if value < n.value then
    let n ← deref (← pushLeft h)
    let left ← rest n.left
    fixUp (.node n.color n.value left n.right)
  else
    let h ← leanRight h
    let n ← deref h
    if value = n.value ∧ isNull n.right then pure .null
    else do
      let n ← deref (← pushRight h)
      if value = n.value then
        let x ← least n.right
        let right ← cut n.right
        fixUp (.node n.color x n.left right)
      else
        let right ← rest n.right
        fixUp (.node n.color n.value n.left right)

/-- `erase` is one level of work, and itself below. -/
theorem erase_succ (value : T) (fuel : Nat) (h : Tree T) :
    erase value (fuel + 1) h =
      eraseLevel min (eraseMin fuel) (erase value fuel) value h := by
  rcases h with _ | _ | ⟨c, v, l, r⟩
  · rfl
  · rfl
  · simp only [erase, eraseLevel, pushLeft, deref_node, ok_bind]
    rcases isBlackBlack l with _ | (_ | _) <;> rfl

/-- `erase` with the loop of `min` on the same budget of levels. -/
def eraseWithin (value : T) : Nat → Tree T → Except Fault (Tree T)
  | 0, _ => .error .outOfFuel
  | k + 1, h => eraseLevel (minWithin k) (eraseMin k) (eraseWithin value k) value h

variable {least : Tree T → Except Fault T} {cut rest : Tree T → Except Fault (Tree T)}

/-- One level to the left. -/
theorem eraseLevel_left {c : Color} {v : T} {l r : Tree T} (hlt : value < v) :
    eraseLevel least cut rest value (.node c v l r) = (do
      let n ← deref (← pushLeft (.node c v l r))
      let left ← rest n.left
      fixUp (.node n.color n.value left n.right)) := by
  simp only [eraseLevel, deref_node, ok_bind, if_pos hlt]

/-- One level to the right. -/
theorem eraseLevel_right {c c₂ c₁ : Color} {v v₂ v₁ : T} {l r l₂ r₂ l₁ r₁ : Tree T}
    (hge : v ≤ value) (hlean : leanRight (.node c v l r) = .ok (.node c₂ v₂ l₂ r₂))
    (hr₂ : isNull r₂ = false)
    (hpush : pushRight (.node c₂ v₂ l₂ r₂) = .ok (.node c₁ v₁ l₁ r₁)) :
    eraseLevel least cut rest value (.node c v l r) =
      (do
        if value = v₁ then
          let x ← least r₁
          let right ← cut r₁
          fixUp (.node c₁ x l₁ right)
        else
          let right ← rest r₁
          fixUp (.node c₁ v₁ l₁ right)) := by
  simp [eraseLevel, not_lt_of_ge hge, hlean, hr₂, hpush]

/-- The deletion of `value` from `t` gives `t'` and goes down `k` levels at most. -/
def Erases (value : T) (k : Nat) (t t' : Tree T) : Prop :=
  ∀ fuel, k ≤ fuel → erase value fuel t = .ok t' ∧ eraseWithin value fuel t = .ok t'

section Levels

variable {k : Nat} {c₁ c₂ : Color} {v v₁ v₂ : T} {l r l₁ r₁ l₂ r₂ t t' : Tree T}

/-- A level on top of the `k` below. -/
theorem erases_succ
    (h : ∀ fuel, k ≤ fuel →
      eraseLevel min (eraseMin fuel) (erase value fuel) value t = .ok t' ∧
      eraseLevel (minWithin fuel) (eraseMin fuel) (eraseWithin value fuel) value t = .ok t') :
    Erases value (k + 1) t t' := by
  intro fuel hfuel
  obtain ⟨fuel, rfl⟩ := Nat.exists_eq_succ_of_ne_zero (n := fuel) (by omega)
  rw [erase_succ, eraseWithin]
  exact h fuel (by omega)

/-- The value is in the left subtree. -/
theorem Erases.left {l' : Tree T} (h : Erases value k l₁ l') (hlt : value < v)
    (hmove : pushLeft (.node c v l r) = .ok (.node c₁ v₁ l₁ r₁))
    (hfix : fixUp (.node c₁ v₁ l' r₁) = .ok t') :
    Erases value (k + 1) (.node c v l r) t' := by
  refine erases_succ fun fuel hfuel => ?_
  obtain ⟨herase, hwithin⟩ := h fuel hfuel
  rw [eraseLevel_left hlt, eraseLevel_left hlt, hmove]
  simp only [ok_bind, deref_node, herase, hwithin, hfix, and_self]

/-- The value is in the right subtree. -/
theorem Erases.right {r' : Tree T} (h : Erases value k r₁ r') (hge : v ≤ value)
    (hlean : leanRight (.node c v l r) = .ok (.node c₂ v₂ l₂ r₂)) (hr₂ : isNull r₂ = false)
    (hpush : pushRight (.node c₂ v₂ l₂ r₂) = .ok (.node c₁ v₁ l₁ r₁)) (hne : value ≠ v₁)
    (hfix : fixUp (.node c₁ v₁ l₁ r') = .ok t') :
    Erases value (k + 1) (.node c v l r) t' := by
  refine erases_succ fun fuel hfuel => ?_
  obtain ⟨herase, hwithin⟩ := h fuel hfuel
  rw [eraseLevel_right hge hlean hr₂ hpush, eraseLevel_right hge hlean hr₂ hpush]
  simp only [if_neg hne, ok_bind, herase, hwithin, hfix, and_self]

/-- The value is found above the right child, whose first value takes its place. -/
theorem erases_found {n : Nat} {x : T} {r' : Tree T} (hr : LLRB c₀ n r₁)
    (hk : levels c₀ n ≤ k) (hx : toList r₁ = x :: toList r')
    (hcut : ∀ fuel, k ≤ fuel → eraseMin fuel r₁ = .ok r') (hge : v ≤ value)
    (hlean : leanRight (.node c v l r) = .ok (.node c₂ v₂ l₂ r₂)) (hr₂ : isNull r₂ = false)
    (hpush : pushRight (.node c₂ v₂ l₂ r₂) = .ok (.node c₁ value l₁ r₁))
    (hfix : fixUp (.node c₁ x l₁ r') = .ok t') :
    Erases value (k + 1) (.node c v l r) t' := by
  refine erases_succ fun fuel hfuel => ?_
  rw [eraseLevel_right hge hlean hr₂ hpush, eraseLevel_right hge hlean hr₂ hpush,
    hr.minWithin_eq (hk.trans hfuel), hr.min_eq hx, hcut fuel hfuel]
  simp only [if_pos, ok_bind, hfix, and_self]

/-- The value is in a leaf, which is deleted. -/
theorem erases_leaf (k : Nat) (c : Color) (value : T) :
    Erases value (k + 1) (.node c value .null .null) .null := by
  refine erases_succ fun fuel _ => ?_
  simp [eraseLevel, leanRight]

end Levels

/-- **ERASE KEEPS THE BALANCE.**  Entered at a subtree that has the value, it
    does not fault, the black height stays, and the value is gone; it goes no
    deeper than the levels of the subtree. -/
theorem erase_spec {k : Nat} {t : Tree T} (h : Entered value c n t)
    (hs : StrictSorted (toList t)) (hmem : value ∈ toList t) (hk : levels c n ≤ k) :
    ∃ t', Erases value k t t' ∧ Settled c n t' ∧ toList t' = (toList t).erase value := by
  induction k generalizing c n t with
  | zero =>
      cases h with
      | ready h =>
          cases h with
          | red | black => simp only [levels] at hk; omega
      | right => simp only [levels] at hk; omega
  | succ k ih =>
      cases t with
      | null => exact absurd hmem List.not_mem_nil
      | freed => exact absurd hmem List.not_mem_nil
      | node c₀ v l r =>
          rcases lt_or_ge value v with hlt | hge
          · -- To the left: the child still has the value after the step.
            have hready : Ready c n (.node c₀ v l r) := by
              cases h with
              | ready h => exact h
              | right hle _ _ _ => exact absurd hlt (not_lt_of_ge hle)
            have hml := (mem_left_of_lt hs hlt).mp hmem
            have hl : isNull l = false := by
              cases l with
              | null => exact absurd hml List.not_mem_nil
              | freed | node => rfl
            obtain ⟨c₁, v₁, l₁, r₁, c', m, hmove, hlist, hpre, hready₁, hlevel, hclose⟩ :=
              descend_left hready hl
            rw [hlist] at hs ⊢
            have hml₁ : value ∈ toList l₁ := hpre.subset hml
            obtain ⟨l', hl', hset, hx⟩ :=
              ih (.ready hready₁) (strictSorted_split.mp hs).1 hml₁ (by omega)
            obtain ⟨t', ht', hset', hlist'⟩ := hclose l' hset
            refine ⟨t', hl'.left hlt hmove ht', hset', ?_⟩
            rw [hlist', hx, List.erase_append_left _ hml₁]
          · rcases descend_right h hge hs with ⟨rfl, rfl, rfl, rfl⟩ |
              ⟨c₂, v₂, l₂, r₂, c₁, v₁, l₁, r₁, c', m, hlean, hr₂, hpush, hlist, hv₁,
                hready, hentered, hlevel, hclose⟩
            · -- The node is a leaf, so it has the value.
              obtain rfl : value = v := by simpa using hmem
              exact ⟨.null, erases_leaf k c₀ value, LLRB.null.settled, by simp⟩
            · rw [hlist] at hs hmem ⊢
              have hnl : value ∉ toList l₁ := not_mem_left_of_ge hs hv₁
              rw [List.erase_append_right _ hnl]
              rcases hv₁.eq_or_lt with rfl | hlt
              · -- Found: the next value takes its place.
                obtain ⟨x, r', hr', hset, hx⟩ := eraseMin_spec k (hready rfl) (by omega)
                obtain ⟨t', ht', hset', hlist'⟩ := hclose x r' hset
                refine ⟨t', erases_found (hready rfl).llrb (by omega) hx hr' hge hlean hr₂
                  hpush ht', hset', ?_⟩
                rw [hlist', List.erase_cons_head, hx]
              · have hmr : value ∈ toList r₁ := (mem_right_of_gt hs hlt).mp hmem
                obtain ⟨r', hr', hset, hx⟩ :=
                  ih hentered (strictSorted_split.mp hs).2.1 hmr (by omega)
                obtain ⟨t', ht', hset', hlist'⟩ := hclose v₁ r' hset
                refine ⟨t', hr'.right hge hlean hr₂ hpush hlt.ne' ht', hset', ?_⟩
                rw [hlist', hx, List.erase_cons_tail (by simpa using hlt.ne)]

end Erase

/-! ## Deletion at the root

    The root is black and nobody reddens it before a deletion, so with a black
    left link it is not ready.  No function on the way reads the colour of the
    node it is called on, and the root is painted black afterwards: the deletion
    runs as it does on the red root. -/

section Root

/-- The colour of the top link turned over. -/
def flipTop : Tree T → Tree T
  | .null => .null
  | .freed => .freed
  | .node c v l r => .node c.flip v l r

/-- No function on the way tests the colour of the node it is given, so a recoloured node gives the
    recoloured result. -/
theorem colorFlip_flip (h : Tree T) : colorFlip (flipTop h) = flipTop <$> colorFlip h := by
  rcases h with _ | _ | ⟨c, v, _ | _ | _, _ | _ | _⟩ <;> rfl

theorem fixUp_flip (h : Tree T) : fixUp (flipTop h) = flipTop <$> fixUp h := by
  rcases h with _ | _ | ⟨c, v, l, r⟩
  · rfl
  · rfl
  · rcases r with _ | _ | ⟨_ | _, rv, rl, rr⟩
    · rcases l with _ | _ | ⟨_ | _, lv, _ | _ | ⟨_ | _, _, _, _⟩, lr⟩ <;> rfl
    · rfl
    · -- After the rotation the old left child is two links down.
      rcases l with _ | _ | ⟨_ | _, _, _, _⟩ <;>
        rcases rr with _ | _ | ⟨_ | _, _, _, _⟩ <;> rfl
    · rcases l with _ | _ | ⟨_ | _, lv, _ | _ | ⟨_ | _, _, _, _⟩, lr⟩ <;> rfl

theorem moveRedRight_flip (h : Tree T) :
    moveRedRight (flipTop h) = flipTop <$> moveRedRight h := by
  simp only [moveRedRight, colorFlip_flip]
  rcases colorFlip h with
    _ | _ | _ | ⟨c, v, _ | _ | ⟨cl, lv, _ | _ | ⟨_ | _, _, _, _⟩, lr⟩, _ | _ | _⟩ <;> rfl

theorem moveRedLeft_flip (h : Tree T) :
    moveRedLeft (flipTop h) = flipTop <$> moveRedLeft h := by
  simp only [moveRedLeft, colorFlip_flip]
  rcases colorFlip h with
    _ | _ | _ | ⟨c, v, l, _ | _ | ⟨cr, rv, _ | _ | ⟨_ | _, _, _, b⟩, rr⟩⟩ <;> rfl

theorem pushLeft_flip (h : Tree T) :
    pushLeft (flipTop h) = flipTop <$> pushLeft h := by
  rcases h with _ | _ | ⟨c, v, l, r⟩
  · rfl
  · rfl
  · have hmove : moveRedLeft (.node c.flip v l r) = flipTop <$> moveRedLeft (.node c v l r) :=
      moveRedLeft_flip (.node c v l r)
    simp only [pushLeft, flipTop, deref_node, ok_bind, hmove]
    rcases isBlackBlack l with _ | (_ | _) <;> rfl

theorem pushRight_flip (h : Tree T) :
    pushRight (flipTop h) = flipTop <$> pushRight h := by
  rcases h with _ | _ | ⟨c, v, l, r⟩
  · rfl
  · rfl
  · have hmove : moveRedRight (.node c.flip v l r) = flipTop <$> moveRedRight (.node c v l r) :=
      moveRedRight_flip (.node c v l r)
    simp only [pushRight, flipTop, deref_node, ok_bind, hmove]
    cases isNull r with
    | true => rfl
    | false => rcases isBlackBlack r with _ | (_ | _) <;> rfl

theorem leanRight_flip (h : Tree T) :
    leanRight (flipTop h) = flipTop <$> leanRight h := by
  rcases h with _ | _ | ⟨c, v, _ | _ | ⟨_ | _, _, _, _⟩, r⟩ <;> rfl

variable [LinearOrder T]

/-- A level of `erase` does not read the colour of its node. -/
theorem eraseLevel_flip (least : Tree T → Except Fault T)
    (cut rest : Tree T → Except Fault (Tree T)) (value : T) (h : Tree T) :
    eraseLevel least cut rest value (flipTop h) =
      flipTop <$> eraseLevel least cut rest value h := by
  rcases h with _ | _ | ⟨c, v, l, r⟩
  · rfl
  · rfl
  · have hfix (c : Color) (v : T) (l r : Tree T) :
        fixUp (.node c.flip v l r) = flipTop <$> fixUp (.node c v l r) :=
      fixUp_flip (.node c v l r)
    rcases lt_or_ge value v with hlt | hge
    · have hpush : pushLeft (.node c.flip v l r) = _ := pushLeft_flip (.node c v l r)
      simp only [flipTop, eraseLevel_left hlt, hpush]
      rcases pushLeft (.node c v l r) with _ | _ | _ | ⟨c₁, v₁, l₁, r₁⟩
      · rfl
      · rfl
      · rfl
      · show (rest l₁ >>= _) = flipTop <$> (rest l₁ >>= _)
        rcases rest l₁ with _ | l'
        · rfl
        · exact hfix c₁ v₁ l' r₁
    · have hlean : leanRight (.node c.flip v l r) = _ := leanRight_flip (.node c v l r)
      simp only [flipTop, eraseLevel, deref_node, ok_bind, if_neg (not_lt_of_ge hge), hlean]
      rcases leanRight (.node c v l r) with _ | _ | _ | ⟨c₂, v₂, l₂, r₂⟩
      · rfl
      · rfl
      · rfl
      · have hpush : pushRight (.node c₂.flip v₂ l₂ r₂) = _ := pushRight_flip (.node c₂ v₂ l₂ r₂)
        simp only [Functor.map, Except.map, flipTop, deref_node, ok_bind, hpush]
        by_cases hfound : value = v₂ ∧ isNull r₂
        · simp only [if_pos hfound]
          rfl
        · simp only [if_neg hfound]
          rcases pushRight (.node c₂ v₂ l₂ r₂) with _ | _ | _ | ⟨c₁, v₁, l₁, r₁⟩
          · rfl
          · rfl
          · rfl
          · simp only [deref_node, ok_bind]
            split
            · rcases least r₁ with _ | x
              · rfl
              · rcases cut r₁ with _ | r'
                · rfl
                · exact hfix c₁ x l₁ r'
            · rcases rest r₁ with _ | r'
              · rfl
              · exact hfix c₁ v₁ l₁ r'

/-- `erase` does not read the colour of the node it is called on. -/
theorem Erases.flip {value : T} {k : Nat} {t t' : Tree T} (h : Erases value k t t') :
    Erases value k (flipTop t) (flipTop t') := by
  intro fuel hfuel
  obtain ⟨herase, hwithin⟩ := h fuel hfuel
  cases fuel with
  | zero => nomatch herase
  | succ fuel =>
      rw [erase_succ] at herase ⊢
      rw [eraseWithin] at hwithin ⊢
      rw [eraseLevel_flip, eraseLevel_flip, herase, hwithin]
      exact ⟨rfl, rfl⟩

end Root

end SetTree
