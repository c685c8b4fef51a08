import UniqueFreshman.SetEraseProofs

/-! # The set against finite sets — `unique::set` as a whole

    `Sound s` is the representation invariant of the public type: a balanced
    tree with a black top, values strictly in order, and a `size_` that counts
    the nodes in 64 bits.  Every call but `clear` keeps it and answers as a
    `Finset` does; `clear` frees the nodes and keeps the root pointer, so that
    what comes after it is settled by whether there was a node to free. -/

namespace SetTree

open SortedList CallSequence

variable {T : Type}

/-! ## The top of the tree -/

/-- A tree whose top can be painted black. -/
inductive Rooted : Tree T → Prop where
  | null : Rooted .null
  | node {c : Color} {n : Nat} {v : T} {l r : Tree T} :
      LLRB .black n (.node .black v l r) → Rooted (.node c v l r)

/-- A valid tree has a valid top. -/
theorem LLRB.rooted {c : Color} {n : Nat} {t : Tree T} (h : LLRB c n t) : Rooted t := by
  cases h with
  | null => exact .null
  | red hl hr => exact .node (.black hl hr)
  | black hl hr => exact .node (.black hl hr)

theorem Rooted.flipTop {t : Tree T} (h : Rooted t) : Rooted (flipTop t) := by
  cases h with
  | null => exact .null
  | node h => exact .node h

/-- `root->color = BLACK`, where there is a root. -/
theorem Rooted.blacken {t : Tree T} (h : Rooted t) (hne : t ≠ .null) :
    ∃ t', blacken t = .ok t' ∧ (∃ n, LLRB .black n t') ∧ toList t' = toList t := by
  cases h with
  | null => exact absurd rfl hne
  | node h => exact ⟨_, rfl, ⟨_, h⟩, rfl⟩

/-- The same behind the null test of `erase`, whatever is done with the root. -/
theorem Rooted.settle {t : Tree T} (h : Rooted t) :
    ∃ t', (∀ {α : Type} (k : Tree T → Except Fault α),
        (if isNull t then k t else SetTree.blacken t >>= k) = k t') ∧
      (∃ n, LLRB .black n t') ∧ toList t' = toList t := by
  cases h with
  | null => exact ⟨_, fun _ => rfl, ⟨_, .null⟩, rfl⟩
  | node h => exact ⟨_, fun _ => rfl, ⟨_, h⟩, rfl⟩

/-- Recolouring keeps the entries. -/
theorem toList_flipTop (t : Tree T) : toList (flipTop t) = toList t := by
  cases t <;> rfl

variable [LinearOrder T]

/-- **ERASE AT THE ROOT.**  It goes down at most twice the black height, and
    meets a new node at every level. -/
theorem erase_root {n : Nat} {value : T} {t : Tree T} (h : LLRB .black n t)
    (hs : StrictSorted (toList t)) (hmem : value ∈ toList t) :
    ∃ k t', Erases value k t t' ∧ k ≤ levels .black n ∧ k ≤ nodes t ∧ Rooted t' ∧
      toList t' = (toList t).erase value := by
  cases h with
  | null => nomatch hmem
  | @black cl n v l r hl hr =>
      cases cl with
      | red =>
          cases hl with
          | @red _ lv ll lr hll hlr =>
              have hready : Ready .black (n + 1) (.node .black v (.node .red lv ll lr) r) :=
                .black hll hlr hr
              obtain ⟨t', ht', ⟨c', hbal, -⟩, hlist⟩ := erase_spec (.ready hready) hs hmem le_rfl
              exact ⟨_, t', ht', le_rfl, hready.levels_le_nodes, hbal.rooted, hlist⟩
      | black =>
          -- As on the red root, with the top colour turned over.
          have hready : Ready .red n (.node .red v l r) := .red hl hr
          obtain ⟨t', ht', ⟨c', hbal, -⟩, hlist⟩ := erase_spec (.ready hready) hs hmem le_rfl
          exact ⟨_, flipTop t', ht'.flip, Nat.le_succ _, hready.levels_le_nodes,
            hbal.rooted.flipTop, (toList_flipTop t').trans hlist⟩

/-- `count` looks a value up. -/
theorem countFrom_spec {c : Color} {n : Nat} {t : Tree T} (value : T) (h : LLRB c n t)
    (hs : StrictSorted (toList t)) :
    countFrom value t = .ok (if value ∈ toList t then 1 else 0) := by
  induction t generalizing c n with
  | null => rfl
  | freed => nomatch h
  | node c₀ v l r ihl ihr =>
      obtain ⟨cl, m, hl, hr, -, -⟩ := h.children
      obtain ⟨hsl, hsr, -, -⟩ := strictSorted_split.mp hs
      rw [countFrom]
      rcases lt_trichotomy value v with hlt | rfl | hgt
      · rw [if_pos hlt, ihl hl hsl]
        simp only [toList_node, mem_left_of_lt hs hlt]
      · simp
      · rw [if_neg (not_lt_of_gt hgt), if_neg (ne_of_gt hgt), ihr hr hsr]
        simp only [toList_node, mem_right_of_gt hs hgt]

/-! ## The representation invariant -/

/-- What holds of a set between two calls. -/
structure Sound (s : Set T) : Prop where
  balanced : ∃ n, LLRB .black n s.root
  sorted : StrictSorted (toList s.root)
  size_eq : s.size_ = UInt64.ofNat (nodes s.root)

theorem sound_fresh : Sound (Set.fresh : Set T) :=
  ⟨⟨0, .null⟩, List.Pairwise.nil, rfl⟩

/-- The mathematical set a value of the type stands for. -/
def Set.elements (s : Set T) : Finset T :=
  (toList s.root).toFinset

/-- A sound set has as many elements as nodes. -/
theorem Sound.card_elements {s : Set T} (h : Sound s) : s.elements.card = nodes s.root := by
  rw [Set.elements, ← h.sorted.length_eq_card, length_toList]

/-- `count` answers whether the value is there. -/
theorem Sound.count_eq {s : Set T} (h : Sound s) (value : T) :
    s.count value = .ok (if value ∈ s.elements then 1 else 0) := by
  obtain ⟨n, hbal⟩ := h.balanced
  simp only [Set.elements, List.mem_toFinset]
  exact countFrom_spec value hbal h.sorted

/-- **INSERT** adds its value, and keeps the set sound. -/
theorem Sound.insert {s : Set T} (h : Sound s) (value : T) :
    ∃ s', s.insert value = .ok s' ∧ Sound s' ∧
      s'.elements = Insert.insert value s.elements := by
  obtain ⟨n, hbal⟩ := h.balanced
  obtain ⟨t, ht, ⟨c, hgrown⟩, hlist⟩ := insert_spec value hbal h.sorted
  have hne : t ≠ .null := fun hnull => by
    have hmem : value ∈ toList t := hlist ▸ mem_ins.mpr (.inl rfl)
    rw [hnull] at hmem
    nomatch hmem
  obtain ⟨root, hroot, hbal', hlist'⟩ := hgrown.rooted.blacken hne
  have hcontents : toList root = ins value (toList s.root) := hlist'.trans hlist
  have hsize : s.size_ + (if value ∈ s.elements then 0 else 1) =
      UInt64.ofNat (nodes root) := by
    rw [← length_toList root, hcontents, length_ins value h.sorted, h.size_eq, length_toList,
      UInt64.ofNat_add]
    simp only [Set.elements, List.mem_toFinset]
    split <;> rfl
  refine ⟨⟨_, root⟩, ?_, ⟨hbal', hcontents ▸ strictSorted_ins h.sorted, hsize⟩, ?_⟩
  · simp only [Set.insert, h.count_eq, ht, hroot, ok_bind, pure_eq_ok]
    split <;> rfl
  · show (toList root).toFinset = _
    rw [hcontents, toFinset_ins]
    rfl

/-- **ERASE.**  It answers whether the value was there. -/
theorem Sound.erase {s : Set T} (h : Sound s) (value : T) :
    ∃ s', s.erase value = .ok (s', if value ∈ s.elements then 1 else 0) ∧ Sound s' ∧
      s'.elements = s.elements.erase value := by
  obtain ⟨n, hbal⟩ := h.balanced
  by_cases hin : value ∈ s.elements
  · have hmem : value ∈ toList s.root := List.mem_toFinset.mp hin
    obtain ⟨k, t, herases, -, hnodes, hrooted, hlist⟩ := erase_root hbal h.sorted hmem
    have ht := (herases _ hnodes).1
    obtain ⟨root, hroot, hbal', hlist'⟩ := hrooted.settle
    have hcontents : toList root = (toList s.root).erase value := hlist'.trans hlist
    have hsize : s.size_ - 1 = UInt64.ofNat (nodes root) := by
      have hpos : (toList s.root).length = (toList root).length + 1 := by
        rw [hcontents, List.length_erase_of_mem hmem]
        have := List.length_pos_of_mem hmem
        omega
      rw [h.size_eq, ← length_toList, hpos, UInt64.ofNat_add, length_toList]
      exact UInt64.add_sub_cancel ..
    refine ⟨⟨_, root⟩, ?_, ⟨hbal', hcontents ▸ h.sorted.erase value, hsize⟩, ?_⟩
    · simp only [Set.erase, h.count_eq, if_pos hin, ht, ok_bind, pure_eq_ok]
      rw [if_neg (by decide)]
      exact hroot fun root => .ok ((⟨s.size_ - 1, root⟩ : Set T), (1 : UInt64))
    · show (toList root).toFinset = _
      rw [hcontents, h.sorted.toFinset_erase]
      rfl
  · refine ⟨s, ?_, h, (Finset.erase_eq_of_notMem hin).symm⟩
    simp [Set.erase, h.count_eq, hin]

/-! ## The specification -/

/-- What each call does to a mathematical finite set, and what it answers. -/
def spec (elements : Finset T) : Call T → Finset T × Answer
  | .insert value => (Insert.insert value elements, .nothing)
  | .erase value => (elements.erase value, .number (if value ∈ elements then 1 else 0))
  | .count value => (elements, .number (if value ∈ elements then 1 else 0))
  | .size => (elements, .number elements.card)
  | .empty => (elements, .truth (elements = ∅))
  | .clear => (∅, .nothing)

/-- `size_` is exact while the number of elements fits into 64 bits. -/
theorem Sound.toNat_size {s : Set T} (h : Sound s) (hcard : s.elements.card < 2 ^ 64) :
    s.size_.toNat = s.elements.card := by
  rw [h.card_elements] at hcard ⊢
  rw [h.size_eq]
  exact Nat.mod_eq_of_lt hcard

/-- `empty` looks at the counter, which is right below `2 ^ 64`. -/
theorem Sound.empty_eq {s : Set T} (h : Sound s) (hcard : s.elements.card < 2 ^ 64) :
    s.empty = decide (s.elements = ∅) := by
  have hzero : s.size_ = 0 ↔ s.elements = ∅ := by
    rw [← Finset.card_eq_zero, ← h.toNat_size hcard, ← UInt64.toNat_inj]
    rfl
  rw [Set.empty, ← decide_eq_decide.mpr hzero]
  rfl

/-- **ONE CALL.**  Every call but `clear` returns and keeps the invariant; it
    answers as the finite set does, where the size fits into 64 bits. -/
theorem Sound.call {s : Set T} (h : Sound s) (c : Call T) (hc : c ≠ .clear) :
    ∃ s' answer, s.call c = .ok (s', answer) ∧ Sound s' ∧
      s'.elements = (spec s.elements c).1 ∧
      (s.elements.card < 2 ^ 64 → answer = (spec s.elements c).2) := by
  have hnum (value : T) :
      (if value ∈ s.elements then 1 else 0 : UInt64).toNat =
        if value ∈ s.elements then 1 else 0 := by
    split <;> rfl
  cases c with
  | insert value =>
      obtain ⟨s', hs', hsound, helem⟩ := h.insert value
      refine ⟨s', .nothing, ?_, hsound, helem, fun _ => rfl⟩
      simp [Set.call, hs']
  | erase value =>
      obtain ⟨s', hs', hsound, helem⟩ := h.erase value
      refine ⟨s', _, ?_, hsound, helem, fun _ => rfl⟩
      simp only [Set.call, hs', ok_bind, pure_eq_ok, hnum, spec]
  | count value =>
      refine ⟨s, _, ?_, h, rfl, fun _ => rfl⟩
      simp only [Set.call, h.count_eq, ok_bind, pure_eq_ok, hnum, spec]
  | size =>
      refine ⟨s, _, rfl, h, rfl, fun hcard => ?_⟩
      exact congrArg Answer.number (h.toNat_size hcard)
  | empty =>
      refine ⟨s, _, rfl, h, rfl, fun hcard => ?_⟩
      exact congrArg Answer.truth (h.empty_eq hcard)
  | clear => exact absurd rfl hc

/-- A sequence of calls without `clear` returns and keeps the invariant. -/
theorem Sound.calls {s : Set T} (h : Sound s) {cs : List (Call T)} (hcs : .clear ∉ cs) :
    ∃ s' answers, s.calls cs = .ok (s', answers) ∧ Sound s' := by
  refine run_total (I := Sound) (P := fun c => c ≠ .clear) (fun s c hs hc => ?_) h
    fun c hc heq => hcs (heq ▸ hc)
  obtain ⟨s', answer, hcall, hsound, -, -⟩ := hs.call c hc
  exact ⟨s', answer, hcall, hsound⟩

/-- **THE SET REFINES A FINITE SET.**  On a fresh set a sequence of calls
    without `clear`, none made on `2 ^ 64` elements or more, meets no fault and
    gets the answers of a mathematical finite set. -/
theorem set_refines_finset (cs : List (Call T))
    (hok : Throughout spec (fun elements c => c ≠ .clear ∧ elements.card < 2 ^ 64) ∅ cs) :
    ∃ s, (Set.fresh : Set T).calls cs = .ok (s, (specRun spec ∅ cs).2) := by
  obtain ⟨s, hs, -⟩ := run_refines (I := fun elements s => Sound s ∧ s.elements = elements)
    (fun elements s c ⟨hsound, helem⟩ ⟨hc, hcard⟩ => by
      obtain ⟨s', answer, hcall, hsound', helem', hanswer⟩ := hsound.call c hc
      rw [helem] at helem' hanswer
      exact ⟨s', hanswer hcard ▸ hcall, hsound', helem'⟩)
    ⟨sound_fresh, rfl⟩ hok
  exact ⟨s, hs⟩

theorem set_refines_finset_of_ten_calls :
    ∃ s, (Set.fresh : Set Nat).calls
        [.insert 2, .insert 1, .insert 3, .insert 2, .count 1, .erase 2, .count 2, .size,
          .erase 2, .empty] =
      .ok (s, [.nothing, .nothing, .nothing, .nothing, .number 1, .number 1, .number 0,
        .number 2, .number 0, .truth false]) :=
  set_refines_finset _ (by decide)

/-! ## The shape of the tree -/

/-- `P` holds of every node, and no pointer dangles. -/
def Everywhere (P : Color → T → Tree T → Tree T → Prop) : Tree T → Prop
  | .null => True
  | .freed => False
  | .node c v l r => P c v l r ∧ Everywhere P l ∧ Everywhere P r

/-- The number of black nodes on each path from the top to a null pointer. -/
def blackCounts : Tree T → List Nat
  | .null => [0]
  | .freed => []
  | .node c _ l r =>
      (blackCounts l ++ blackCounts r).map (· + if c = .black then 1 else 0)

/-- A left-leaning red-black search tree with its number of nodes. -/
structure LeftLeaning (s : Set T) : Prop where
  ordered : Everywhere
    (fun _ v l r => (∀ x ∈ toList l, x < v) ∧ ∀ x ∈ toList r, v < x) s.root
  blackRoot : s.root = .null ∨ ∃ v l r, s.root = .node .black v l r
  noRedRight : Everywhere (fun _ _ _ r => isRed r = .ok false) s.root
  noRedRed : Everywhere (fun c _ l _ => c = .red → isRed l = .ok false) s.root
  sameBlacks : ∃ n, ∀ k ∈ blackCounts s.root, k = n
  size_eq : s.size_ = UInt64.ofNat (nodes s.root)

/-- The order of the whole tree is an order at every node. -/
theorem LLRB.ordered {c : Color} {n : Nat} {t : Tree T} (h : LLRB c n t)
    (hs : StrictSorted (toList t)) :
    Everywhere (fun _ v l r => (∀ x ∈ toList l, x < v) ∧ ∀ x ∈ toList r, v < x) t := by
  induction h with
  | null => trivial
  | red _ _ ihl ihr =>
      obtain ⟨hsl, hsr, hlv, hvr⟩ := strictSorted_split.mp hs
      exact ⟨⟨hlv, hvr⟩, ihl hsl, ihr hsr⟩
  | black _ _ ihl ihr =>
      obtain ⟨hsl, hsr, hlv, hvr⟩ := strictSorted_split.mp hs
      exact ⟨⟨hlv, hvr⟩, ihl hsl, ihr hsr⟩

omit [LinearOrder T] in
/-- No red link leans to the right, -/
theorem LLRB.noRedRight {c : Color} {n : Nat} {t : Tree T} (h : LLRB c n t) :
    Everywhere (fun _ _ _ r => isRed r = .ok false) t := by
  induction h with
  | null => trivial
  | red _ hr ihl ihr => exact ⟨hr.isRed_eq, ihl, ihr⟩
  | black _ hr ihl ihr => exact ⟨hr.isRed_eq, ihl, ihr⟩

omit [LinearOrder T] in
/-- no two red links follow each other, -/
theorem LLRB.noRedRed {c : Color} {n : Nat} {t : Tree T} (h : LLRB c n t) :
    Everywhere (fun c _ l _ => c = .red → isRed l = .ok false) t := by
  induction h with
  | null => trivial
  | red hl _ ihl ihr => exact ⟨fun _ => hl.isRed_eq, ihl, ihr⟩
  | black _ _ ihl ihr => exact ⟨nofun, ihl, ihr⟩

omit [LinearOrder T] in
/-- and every path has the same number of black links. -/
theorem LLRB.sameBlacks {c : Color} {n : Nat} {t : Tree T} (h : LLRB c n t) :
    ∀ k ∈ blackCounts t, k = n := by
  induction h with
  | null => simp [blackCounts]
  | red _ _ ihl ihr =>
      rintro k hk
      simp only [blackCounts, List.mem_map, List.mem_append] at hk
      obtain ⟨k', hl | hr, rfl⟩ := hk
      · exact ihl k' hl
      · exact ihr k' hr
  | black _ _ ihl ihr =>
      rintro k hk
      simp only [blackCounts, List.mem_map, List.mem_append] at hk
      obtain ⟨k', hl | hr, rfl⟩ := hk
      · rw [ihl k' hl]; rfl
      · rw [ihr k' hr]; rfl

/-- Together these are the shape of a left-leaning red-black tree. -/
theorem Sound.leftLeaning {s : Set T} (h : Sound s) : LeftLeaning s := by
  obtain ⟨n, hbal⟩ := h.balanced
  refine ⟨hbal.ordered h.sorted, ?_, hbal.noRedRight, hbal.noRedRed, ⟨n, hbal.sameBlacks⟩,
    h.size_eq⟩
  cases hbal' : s.root with
  | null => exact .inl rfl
  | freed => rw [hbal'] at hbal; nomatch hbal
  | node c v l r =>
      rw [hbal'] at hbal
      cases hbal with
      | black => exact .inr ⟨v, l, r, rfl⟩

/-- **THE TREE STAYS A LEFT-LEANING RED-BLACK TREE** under every sequence of
    insertions and deletions. -/
theorem tree_stays_left_leaning (cs : List (Call T)) (hcs : .clear ∉ cs) :
    ∃ s answers, (Set.fresh : Set T).calls cs = .ok (s, answers) ∧ LeftLeaning s := by
  obtain ⟨s, answers, hs, hsound⟩ := (sound_fresh (T := T)).calls hcs
  exact ⟨s, answers, hs, hsound.leftLeaning⟩

theorem tree_stays_left_leaning_of_five_calls :
    ∃ s answers, (Set.fresh : Set Nat).calls
        [.insert 1, .insert 2, .insert 3, .insert 4, .erase 2] = .ok (s, answers) ∧
      LeftLeaning s :=
  tree_stays_left_leaning _ (by decide)

/-! ## After `clear` -/

/-- The states a run of calls from a fresh set can leave. -/
def Reached (s : Set T) : Prop :=
  ∃ cs answers, (Set.fresh : Set T).calls cs = .ok (s, answers)

omit [LinearOrder T] in
/-- Freeing the nodes of a tree leaves a null root null and any other dangling. -/
theorem LLRB.freeSubtree_eq {c : Color} {n : Nat} {t : Tree T} (h : LLRB c n t) :
    freeSubtree t = .ok (if isNull t then .null else .freed) := by
  induction h with
  | null => rfl
  | red _ _ ihl ihr => simp [freeSubtree, ihl, ihr]
  | black _ _ ihl ihr => simp [freeSubtree, ihl, ihr]

/-- `clear` sets the counter back, and leaves the pointer to the freed root. -/
theorem Sound.clear {s : Set T} (h : Sound s) :
    s.clear = .ok ⟨0, if isNull s.root then .null else .freed⟩ := by
  obtain ⟨n, hbal⟩ := h.balanced
  simp [Set.clear, hbal.freeSubtree_eq]

/-- On a dangling root only `size` and `empty` return. -/
theorem call_freed {s s' : Set T} {c : Call T} {answer : Answer} (hs : s.root = .freed)
    (h : s.call c = .ok (s', answer)) : (c = .size ∨ c = .empty) ∧ s' = s := by
  obtain ⟨k, root⟩ := s
  obtain rfl : root = .freed := hs
  cases c with
  | size =>
      obtain ⟨rfl, -⟩ := Prod.mk.inj (Except.ok.inj h)
      exact ⟨.inl rfl, rfl⟩
  | empty =>
      obtain ⟨rfl, -⟩ := Prod.mk.inj (Except.ok.inj h)
      exact ⟨.inr rfl, rfl⟩
  | insert value => nomatch h
  | erase value => nomatch h
  | count value => nomatch h
  | clear => nomatch h

/-- A reachable set is sound, or its nodes have been freed. -/
theorem reached_cases {s : Set T} (h : Reached s) : Sound s ∨ s = ⟨0, .freed⟩ := by
  obtain ⟨cs, answers, hrun⟩ := h
  refine run_invariant (I := fun s => Sound s ∨ s = ⟨0, .freed⟩) ?_ (.inl sound_fresh) hrun
  rintro s c s' answer (hsound | rfl) hcall
  · by_cases hc : c = .clear
    · subst hc
      simp only [Set.call, hsound.clear, ok_bind, pure_eq_ok] at hcall
      obtain ⟨rfl, -⟩ := Prod.mk.inj (Except.ok.inj hcall)
      cases isNull s.root with
      | true => exact .inl sound_fresh
      | false => exact .inr rfl
    · obtain ⟨s₁, answer₁, hcall₁, hsound₁, -, -⟩ := hsound.call c hc
      rw [hcall₁] at hcall
      obtain ⟨rfl, -⟩ := Prod.mk.inj (Except.ok.inj hcall)
      exact .inl hsound₁
  · exact .inr (call_freed rfl hcall).2

/-- A run that returned on a dangling root asked for nothing but the size. -/
theorem calls_freed {s s' : Set T} {cs : List (Call T)} {answers : List Answer}
    (hs : s.root = .freed) (h : s.calls cs = .ok (s', answers)) :
    ∀ c ∈ cs, c = .size ∨ c = .empty := by
  induction cs generalizing answers with
  | nil => nofun
  | cons c cs ih =>
      obtain ⟨s₁, answer, rest, hcall, hrest, -⟩ := run_cons_inv h
      obtain ⟨hc, rfl⟩ := call_freed hs hcall
      exact List.forall_mem_cons.mpr ⟨hc, ih hrest⟩

/-- `size` and `empty` read nothing but `size_`. -/
theorem calls_of_size {cs : List (Call T)} (hcs : ∀ c ∈ cs, c = .size ∨ c = .empty)
    (size_ : UInt64) :
    ∃ answers, ∀ root, (⟨size_, root⟩ : Set T).calls cs = .ok (⟨size_, root⟩, answers) := by
  induction cs with
  | nil => exact ⟨[], fun _ => rfl⟩
  | cons c cs ih =>
      obtain ⟨hc, hcs⟩ := List.forall_mem_cons.mp hcs
      obtain ⟨answers, hanswers⟩ := ih hcs
      rcases hc with rfl | rfl
      · exact ⟨.number size_.toNat :: answers, fun root => run_cons rfl (hanswers root)⟩
      · exact ⟨.truth (size_ == 0) :: answers, fun root => run_cons rfl (hanswers root)⟩

/-- **AFTER CLEAR.**  `clear` assigns `size_` and not `root`.  The set then
    behaves as a fresh one exactly if there was no node to free, or if there was
    one, not freed before, and only the size is asked for. -/
theorem clear_is_fresh_iff {s : Set T} (hs : Reached s) {cs : List (Call T)}
    (hcs : .clear ∉ cs) :
    (∃ s₁ s₂ s₃ answers, s.clear = .ok s₁ ∧ s₁.calls cs = .ok (s₂, answers) ∧
        (Set.fresh : Set T).calls cs = .ok (s₃, answers)) ↔
      s.root = .null ∨ s.root ≠ .freed ∧ ∀ c ∈ cs, c = .size ∨ c = .empty := by
  rcases reached_cases hs with hsound | rfl
  · obtain ⟨s₃, answers, hfresh, -⟩ := (sound_fresh (T := T)).calls hcs
    have hclear := hsound.clear
    obtain ⟨n, hbal⟩ := hsound.balanced
    cases hroot : s.root with
    | null =>
        rw [hroot] at hclear
        exact iff_of_true ⟨_, s₃, s₃, answers, hclear, hfresh, hfresh⟩ (.inl rfl)
    | freed => rw [hroot] at hbal; nomatch hbal
    | node c v l r =>
        rw [hroot] at hclear
        constructor
        · rintro ⟨s₁, s₂, s₃, answers, hs₁, hs₂, -⟩
          obtain rfl := Except.ok.inj (hclear.symm.trans hs₁)
          exact .inr ⟨nofun, calls_freed rfl hs₂⟩
        · rintro (hnull | ⟨-, hsize⟩)
          · nomatch hnull
          · obtain ⟨answers, hanswers⟩ := calls_of_size hsize 0
            exact ⟨_, _, _, answers, hclear, hanswers .freed, hanswers .null⟩
  · -- A second `clear` frees the nodes again.
    constructor
    · rintro ⟨s₁, -, -, -, hs₁, -⟩
      nomatch hs₁
    · rintro (hnull | ⟨hne, -⟩)
      · nomatch hnull
      · exact absurd rfl hne

theorem clear_is_fresh_of_emptied_set :
    ∃ s₁ s₂ s₃ answers, (⟨0, .null⟩ : Set Nat).clear = .ok s₁ ∧
      s₁.calls [.insert 5, .count 5] = .ok (s₂, answers) ∧
      (Set.fresh : Set Nat).calls [.insert 5, .count 5] = .ok (s₃, answers) :=
  (clear_is_fresh_iff ⟨[.insert 1, .erase 1], [.nothing, .number 1], rfl⟩
    (by decide)).mpr (.inl rfl)

/-- After `insert(1); clear();` a `count(1)` reads the node that was freed, where
    a fresh set answers 0. -/
theorem count_after_clear_reads_freed_node :
    ∃ s s₁ s₂ : Set Nat, (Set.fresh : Set Nat).calls [.insert 1] = .ok (s, [.nothing]) ∧
      s.clear = .ok s₁ ∧ s₁.calls [.count 1] = .error .useAfterFree ∧
      (Set.fresh : Set Nat).calls [.count 1] = .ok (s₂, [.number 0]) :=
  ⟨_, _, _, rfl, rfl, rfl, rfl⟩

end SetTree
