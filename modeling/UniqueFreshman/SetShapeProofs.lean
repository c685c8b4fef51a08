import UniqueFreshman.SetRefinementProofs

/-! # The shape of the set's tree — what balance gives to its users

    Two consequences of the left-leaning red-black shape for every set that
    insertions and deletions build, and the contract of `eraseMin` on any subtree
    that has the shape.  An insertion of a value that is there runs
    all the repairs of `insert` on its way back, and none of them finds anything
    to do.  And a path from the root is at most twice as long as a path in a
    full tree, so that no function goes down further than
    `2 * log2 (n + 1)` levels in a set of `n` elements.

    The bound on the levels is stated with budgets: `countWithin`, `insertWithin`
    and `eraseWithin` are the functions of the source with a number of levels
    they may enter, and answer the same. -/

namespace SetTree

open SortedList CallSequence

variable {T : Type}

/-! ## Inserting what is there -/

/-- The tests of the three repairs of `insertFix` are all false: the right child
    is not red, and the left child is not the upper of two red links. -/
def NoRepair : Tree T → Prop
  | .null | .freed => False
  | .node _ _ left right => isRed right = .ok false ∧ isRedRed left = .ok false

/-- A valid tree needs none of the three repairs of `insert`. -/
theorem LLRB.noRepair {c c' : Color} {n : Nat} {v : T} {l r : Tree T}
    (h : LLRB c n (.node c' v l r)) : NoRepair (.node c' v l r) := by
  obtain ⟨cl, m, hl, hr, -, -⟩ := h.children
  exact ⟨hr.isRed_eq, hl.isRedRed_eq⟩

section Search

variable [LinearOrder T]

/-- The nodes that a search for `value` passes, from the top down. -/
def searchPath (value : T) : Tree T → List (Tree T)
  | .null | .freed => []
  | .node c x left right =>
      .node c x left right ::
        (if value < x then searchPath value left
        else if value > x then searchPath value right
        else [])

/-- Nothing on the search path changes. -/
theorem insert_of_mem {c : Color} {n : Nat} {t : Tree T} {value : T} (h : LLRB c n t)
    (hs : StrictSorted (toList t)) (hmem : value ∈ toList t) :
    insert value t = .ok t ∧
      ∀ u ∈ searchPath value t, insert value u = .ok u ∧ NoRepair u := by
  induction t generalizing c n with
  | null => nomatch hmem
  | freed => nomatch h
  | node c₀ x l r ihl ihr =>
      obtain ⟨cl, m, hl, hr, -, -⟩ := h.children
      obtain ⟨hsl, hsr, -, -⟩ := strictSorted_split.mp hs
      rw [searchPath, List.forall_mem_cons]
      rcases lt_trichotomy value x with hlt | rfl | hgt
      · obtain ⟨hins, hpath⟩ := ihl hl hsl ((mem_left_of_lt hs hlt).mp hmem)
        have htop : insert value (.node c₀ x l r) = .ok (.node c₀ x l r) := by
          rw [insert_node, if_pos hlt, hins]
          exact h.fixUp_eq
        rw [if_pos hlt]
        exact ⟨htop, ⟨htop, h.noRepair⟩, hpath⟩
      · have htop : insert value (.node c₀ value l r) = .ok (.node c₀ value l r) := by
          rw [insert_node, if_neg (lt_irrefl _), if_neg (lt_irrefl _)]
          exact h.fixUp_eq
        rw [if_neg (lt_irrefl _), if_neg (lt_irrefl _)]
        exact ⟨htop, ⟨htop, h.noRepair⟩, List.forall_mem_nil _⟩
      · obtain ⟨hins, hpath⟩ := ihr hr hsr ((mem_right_of_gt hs hgt).mp hmem)
        have htop : insert value (.node c₀ x l r) = .ok (.node c₀ x l r) := by
          rw [insert_node, if_neg (not_lt_of_gt hgt), if_pos hgt, hins]
          exact h.fixUp_eq
        rw [if_neg (not_lt_of_gt hgt), if_pos hgt]
        exact ⟨htop, ⟨htop, h.noRepair⟩, hpath⟩

omit [LinearOrder T] in
/-- A black root is painted black to no effect. -/
theorem LLRB.blacken_eq {n : Nat} {t : Tree T} (h : LLRB .black n t) (hne : t ≠ .null) :
    blacken t = .ok t := by
  cases h with
  | null => exact absurd rfl hne
  | black _ _ => rfl

/-- The public `insert` blackens the root, which is black. -/
theorem Sound.insert_of_mem {s : Set T} (h : Sound s) {value : T} (hmem : value ∈ s.elements) :
    s.insert value = .ok s ∧
      ∀ u ∈ searchPath value s.root, SetTree.insert value u = .ok u ∧ NoRepair u := by
  obtain ⟨n, hbal⟩ := h.balanced
  have hin : value ∈ toList s.root := List.mem_toFinset.mp hmem
  obtain ⟨hins, hpath⟩ := SetTree.insert_of_mem hbal h.sorted hin
  have hne : s.root ≠ .null := fun hnull => by
    rw [hnull] at hin
    nomatch hin
  refine ⟨?_, hpath⟩
  simp only [Set.insert, h.count_eq, if_pos hmem, hins, hbal.blacken_eq hne, ok_bind, pure_eq_ok]
  rw [if_neg (by decide), UInt64.add_zero]

/-- **INSERTING TWICE IS INSERTING ONCE.**  On every set that calls other than
    `clear` build, the insertion of a value that is there returns the set as it
    is, tree, colours and size.  Each level of the recursion gets its own
    subtree back, and finds none of the three repairs to make. -/
theorem reinsertion_changes_nothing (cs : List (Call T)) (hcs : .clear ∉ cs) :
    ∃ s answers, (Set.fresh : Set T).calls cs = .ok (s, answers) ∧
      ∀ value ∈ s.elements, s.insert value = .ok s ∧
        ∀ u ∈ searchPath value s.root, SetTree.insert value u = .ok u ∧ NoRepair u := by
  obtain ⟨s, answers, hs, hsound⟩ := sound_fresh.calls hcs
  exact ⟨s, answers, hs, fun value hmem => hsound.insert_of_mem hmem⟩

theorem reinsertion_changes_nothing_after_an_erase :
    ∃ s answers, (Set.fresh : Set Nat).calls
        [.insert 1, .insert 2, .insert 3, .insert 4, .erase 2] = .ok (s, answers) ∧
      ∀ value ∈ s.elements, s.insert value = .ok s ∧
        ∀ u ∈ searchPath value s.root, SetTree.insert value u = .ok u ∧ NoRepair u :=
  reinsertion_changes_nothing _ (by decide)

/-! ## The levels of a search -/

/-- The loop of `count` on a budget of levels. -/
def countWithin (value : T) : Nat → Tree T → Except Fault UInt64
  | _, .null => .ok 0
  | _, .freed => .error .useAfterFree
  | 0, .node .. => .error .outOfFuel
  | k + 1, .node _ x left right =>
      if value < x then countWithin value k left
      else if value = x then .ok 1
      else countWithin value k right

/-- The private `insert` on a budget of levels. -/
def insertWithin (value : T) : Nat → Tree T → Except Fault (Tree T)
  | _, .null => pure (.node .red value .null .null)
  | _, .freed => .error .useAfterFree
  | 0, .node .. => .error .outOfFuel
  | k + 1, .node c x left right => do
      if value < x then
        let left ← insertWithin value k left
        insertFix (.node c x left right)
      else if value > x then
        let right ← insertWithin value k right
        insertFix (.node c x left right)
      else insertFix (.node c x left right)

section Within

variable {c : Color} {k n : Nat} {t : Tree T}

/-- A search ends within the levels of the tree. -/
theorem LLRB.countWithin_eq (h : LLRB c n t) (hk : levels c n ≤ k) (value : T) :
    countWithin value k t = countFrom value t := by
  induction t generalizing c n k with
  | null => cases k <;> rfl
  | freed => nomatch h
  | node c₀ x l r ihl ihr =>
      obtain ⟨cl, m, hl, hr, hleft, hright⟩ := h.children
      obtain ⟨k, rfl⟩ := Nat.exists_eq_succ_of_ne_zero (n := k) (by omega)
      rw [countWithin, countFrom, ihl hl (by omega), ihr hr (by omega)]

/-- So does an insertion. -/
theorem LLRB.insertWithin_eq (h : LLRB c n t) (hk : levels c n ≤ k) (value : T) :
    insertWithin value k t = insert value t := by
  induction t generalizing c n k with
  | null => cases k <;> rfl
  | freed => nomatch h
  | node c₀ x l r ihl ihr =>
      obtain ⟨cl, m, hl, hr, hleft, hright⟩ := h.children
      obtain ⟨k, rfl⟩ := Nat.exists_eq_succ_of_ne_zero (n := k) (by omega)
      rw [insertWithin, SetTree.insert, ihl hl (by omega), ihr hr (by omega)]

end Within

/-- `count`, `insert` and `erase` get along with `k` levels: each of them
    returns, and returns what it does without a budget. -/
structure Descends (s : Set T) (k : Nat) : Prop where
  count : ∀ value, ∃ found,
    countWithin value k s.root = .ok found ∧ s.count value = .ok found
  insert : ∀ value, ∃ root,
    insertWithin value k s.root = .ok root ∧ SetTree.insert value s.root = .ok root
  erase : ∀ value ∈ s.elements, ∃ root,
    eraseWithin value k s.root = .ok root ∧
      SetTree.erase value (nodes s.root) s.root = .ok root

/-- Searching, inserting and erasing go no deeper than the levels. -/
theorem Sound.descends {s : Set T} (h : Sound s) {n : Nat} (hbal : LLRB .black n s.root) :
    Descends s (levels .black n) where
  count value := ⟨_, (hbal.countWithin_eq le_rfl value).trans (h.count_eq value),
    h.count_eq value⟩
  insert value := by
    obtain ⟨root, hroot, -, -⟩ := insert_spec value hbal h.sorted
    exact ⟨root, (hbal.insertWithin_eq le_rfl value).trans hroot, hroot⟩
  erase value hmem := by
    obtain ⟨k, root, herases, hlevels, hnodes, -, -⟩ :=
      erase_root hbal h.sorted (List.mem_toFinset.mp hmem)
    exact ⟨root, (herases _ hlevels).2, (herases _ hnodes).1⟩

/-! ## Paths are logarithmic -/

/-- The number of nodes on each path from the top to a null pointer. -/
def pathLengths : Tree T → List Nat
  | .null => [0]
  | .freed => []
  | .node _ _ left right => (pathLengths left ++ pathLengths right).map (· + 1)

omit [LinearOrder T] in
/-- No path is longer than the levels. -/
theorem LLRB.pathLengths_le {c : Color} {n : Nat} {t : Tree T} (h : LLRB c n t) :
    ∀ k ∈ pathLengths t, k ≤ levels c n := by
  induction t generalizing c n with
  | null =>
      intro k hk
      rw [List.mem_singleton.mp hk]
      exact Nat.zero_le _
  | freed => nomatch h
  | node c₀ x l r ihl ihr =>
      obtain ⟨cl, m, hl, hr, hleft, hright⟩ := h.children
      intro k hk
      obtain ⟨k', hk', rfl⟩ := List.mem_map.mp hk
      rcases List.mem_append.mp hk' with hk' | hk'
      · exact (ihl hl k' hk').trans_lt hleft
      · exact (ihr hr k' hk').trans_lt hright

/-- The black height is the logarithm of a full tree. -/
theorem Sound.levels_le_log {s : Set T} (h : Sound s) {n : Nat} (hbal : LLRB .black n s.root) :
    (levels .black n : ℝ) ≤ 2 * Real.logb 2 (s.elements.card + 1) := by
  have hpow : (2 : ℝ) ^ n ≤ s.elements.card + 1 := by
    rw [h.card_elements]
    exact_mod_cast hbal.two_pow_le
  have hlog : (n : ℝ) ≤ Real.logb 2 (s.elements.card + 1) := by
    rw [Real.le_logb_iff_rpow_le (by norm_num) (by positivity), Real.rpow_natCast]
    exact hpow
  rw [levels]
  push_cast
  linarith

/-- **BALANCE.**  On every set that calls other than `clear` build, a path from
    the root to a null pointer has at most `2 * log2 (n + 1)` nodes, where `n`
    is the number of elements, and `count`, `insert` and `erase` get along with
    as many levels. -/
theorem paths_are_logarithmic (cs : List (Call T)) (hcs : .clear ∉ cs) :
    ∃ s answers, (Set.fresh : Set T).calls cs = .ok (s, answers) ∧
      (∀ k ∈ pathLengths s.root, (k : ℝ) ≤ 2 * Real.logb 2 (s.elements.card + 1)) ∧
      ∃ k : Nat, (k : ℝ) ≤ 2 * Real.logb 2 (s.elements.card + 1) ∧ Descends s k := by
  obtain ⟨s, answers, hs, hsound⟩ := sound_fresh.calls hcs
  obtain ⟨n, hbal⟩ := hsound.balanced
  have hlog := hsound.levels_le_log hbal
  refine ⟨s, answers, hs, fun k hk => ?_, levels .black n, hlog, hsound.descends hbal⟩
  exact (Nat.cast_le.mpr (hbal.pathLengths_le k hk)).trans hlog

theorem paths_are_logarithmic_after_an_erase :
    ∃ s answers, (Set.fresh : Set Nat).calls
        [.insert 1, .insert 2, .insert 3, .insert 4, .erase 2] = .ok (s, answers) ∧
      (∀ k ∈ pathLengths s.root, (k : ℝ) ≤ 2 * Real.logb 2 (s.elements.card + 1)) ∧
      ∃ k : Nat, (k : ℝ) ≤ 2 * Real.logb 2 (s.elements.card + 1) ∧ Descends s k :=
  paths_are_logarithmic _ (by decide)

end Search

/-! ## The contract of `eraseMin` -/

section Contract

theorem Everywhere.blackCounts_ne_nil {P : Color → T → Tree T → Tree T → Prop} {t : Tree T}
    (h : Everywhere P t) : blackCounts t ≠ [] := by
  induction t with
  | null => exact List.cons_ne_nil 0 []
  | freed => exact h.elim
  | node c v l r ihl _ =>
      intro hnil
      rw [blackCounts, List.map_eq_nil_iff, List.append_eq_nil_iff] at hnil
      exact ihl h.2.1 hnil.1

variable {c : Color} {n : Nat} {v : T} {l r t : Tree T}

/-- A tree whose root is not red is a black one. -/
theorem LLRB.black_of_isRed (h : LLRB c n t) (hred : isRed t = .ok false) :
    LLRB .black n t := by
  cases h with
  | null => exact .null
  | red _ _ => nomatch hred
  | black hl hr => exact .black hl hr

/-- The precondition of `eraseMin`, for a node that is red or has a red left child. -/
theorem LLRB.ready (h : LLRB c n (.node c v l r)) (hred : c = .red ∨ isRed l = .ok true) :
    Ready c n (.node c v l r) := by
  cases h with
  | red hl hr => exact .red hl hr
  | black hl hr =>
      cases hl with
      | null | black => simp at hred
      | red hll hlr => exact .black hll hlr hr

variable [LinearOrder T]

/-- The rules of a left-leaning red-black subtree, with `n` black nodes on every path from
    its top to a null pointer. -/
structure Rules (n : Nat) (t : Tree T) : Prop where
  ordered : Everywhere (fun _ v l r => (∀ x ∈ toList l, x < v) ∧ ∀ x ∈ toList r, v < x) t
  noRedRight : Everywhere (fun _ _ _ r => isRed r = .ok false) t
  noRedRed : Everywhere (fun c _ l _ => c = .red → isRed l = .ok false) t
  sameBlacks : ∀ k ∈ blackCounts t, k = n

/-- A valid tree obeys the rules of the contract. -/
theorem LLRB.rules (h : LLRB c n t) (hs : StrictSorted (toList t)) : Rules n t :=
  ⟨h.ordered hs, h.noRedRight, h.noRedRed, h.sameBlacks⟩

/-- The children of a node under the rules. -/
theorem Rules.children (h : Rules n (.node c v l r)) :
    ∃ m, n = m + (if c = .black then 1 else 0) ∧ Rules m l ∧ Rules m r := by
  obtain ⟨⟨-, hol, hor⟩, ⟨-, hrl, hrr⟩, ⟨-, hrrl, hrrr⟩, hcounts⟩ := h
  obtain ⟨m, hm⟩ := List.exists_mem_of_ne_nil _ hol.blackCounts_ne_nil
  have hcount {k : Nat} (hk : k ∈ blackCounts l ++ blackCounts r) :
      k + (if c = .black then 1 else 0) = n :=
    hcounts _ (List.mem_map.mpr ⟨k, hk, rfl⟩)
  have hn := hcount (List.mem_append_left _ hm)
  refine ⟨m, hn.symm, ⟨hol, hrl, hrrl, fun k hk => ?_⟩, ⟨hor, hrr, hrrr, fun k hk => ?_⟩⟩
  · exact Nat.add_right_cancel ((hcount (List.mem_append_left _ hk)).trans hn.symm)
  · exact Nat.add_right_cancel ((hcount (List.mem_append_right _ hk)).trans hn.symm)

/-- **THE RULES ARE THE BALANCE** of the proofs. -/
theorem Rules.llrb (h : Rules n t) : ∃ c, LLRB c n t := by
  induction t generalizing n with
  | null => exact ⟨.black, h.sameBlacks 0 List.mem_cons_self ▸ .null⟩
  | freed => exact h.ordered.elim
  | node c v l r ihl ihr =>
      obtain ⟨m, rfl, hl, hr⟩ := h.children
      obtain ⟨cl, hl⟩ := ihl hl
      obtain ⟨cr, hr⟩ := ihr hr
      have hr := hr.black_of_isRed h.noRedRight.1
      cases c with
      | red => exact ⟨.red, .red (hl.black_of_isRed (h.noRedRed.1 rfl)) hr⟩
      | black => exact ⟨.black, .black hl hr⟩

/-- The rules give the order of the whole tree back. -/
theorem Rules.sorted (h : Rules n t) : StrictSorted (toList t) := by
  induction t generalizing n with
  | null => exact List.Pairwise.nil
  | freed => exact h.ordered.elim
  | node c v l r ihl ihr =>
      obtain ⟨m, -, hl, hr⟩ := h.children
      exact strictSorted_split.mpr ⟨ihl hl, ihr hr, h.ordered.1⟩

/-- **ERASEMIN'S CONTRACT.**  On every subtree that keeps the rules and whose top or left
    link is red, `eraseMin` returns, without a fault, what is left in order behind the first
    value; the rules hold again, with as many black nodes on every path, and a black node is
    on top if one was. -/
theorem eraseMin_contract (n : Nat) (c : Color) (v : T) (l r : Tree T)
    (hrules : Rules n (.node c v l r)) (hred : c = .red ∨ isRed l = .ok true) :
    ∃ t', (∀ fuel, nodes (.node c v l r) ≤ fuel → eraseMin fuel (.node c v l r) = .ok t') ∧
      toList t' = (toList (.node c v l r)).tail ∧ Rules n t' ∧
      (c = .black → ∃ v' l' r', t' = .node .black v' l' r') := by
  obtain ⟨c₀, hbal⟩ := hrules.llrb
  obtain rfl : c₀ = c := by cases hbal <;> rfl
  have hready := hbal.ready hred
  obtain ⟨x, t', herase, ⟨c', hbal', hblack⟩, hlist⟩ := eraseMin_spec _ hready le_rfl
  have hsorted := hrules.sorted
  rw [hlist] at hsorted ⊢
  refine ⟨t', fun fuel hfuel => herase fuel (hready.levels_le_nodes.trans hfuel), rfl,
    hbal'.rules (List.pairwise_cons.mp hsorted).2, ?_⟩
  rintro rfl
  obtain rfl := hblack rfl
  cases hready with
  | black =>
      cases hbal' with
      | black => exact ⟨_, _, _, rfl⟩

/-- A black node with a red left link. -/
theorem eraseMin_contract_of_five :
    ∃ t', (∀ fuel, 5 ≤ fuel → eraseMin fuel (.node .black 4
        (.node .red 2 (.node .black 1 .null .null) (.node .black 3 .null .null))
        (.node .black 5 .null .null)) = .ok t') ∧
      toList t' = [2, 3, 4, 5] ∧ Rules 2 t' ∧
      ((.black : Color) = .black → ∃ v' l' r', t' = .node .black v' l' r') := by
  have hbal : LLRB .black 2 (.node .black 4
      (.node .red 2 (.node .black 1 .null .null) (.node .black 3 .null .null))
      (.node .black 5 .null .null)) :=
    .black (.red (.black .null .null) (.black .null .null)) (.black .null .null)
  have hsorted : [1, 2, 3, 4, 5].Pairwise (· < ·) := by decide
  exact eraseMin_contract 2 .black 4 _ _ (hbal.rules hsorted) (.inr rfl)

end Contract

end SetTree
