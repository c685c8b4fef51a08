import UniqueFreshman.QueuePopProofs

/-! # The priority queue against multisets — `unique::priority_queue` as a whole

    `Rep M q ts` is the representation invariant of the public type: the trees
    `ts` are linked from `min_node` on, hold the values `M`, and the first of
    them has a least value.  `push` and `pop` keep it, and so a sequence of calls
    gets the answers of a multiset, from which `pop` takes one least value.

    `pop` is taken apart into `removeMin`, `reroot` and `walkSwap`; between the
    first two of them the least value may be at any root (`Unordered`). -/

namespace PriorityQueue

open BinomialTree LinkedList CallSequence

variable {T : Type} [LinearOrder T]

/-! ## The specification -/

/-- The smaller of `v` and what may be there. -/
def lower (v : T) : Option T → Option T
  | none => some v
  | some w => some (min v w)

instance : LeftCommutative (lower : T → Option T → Option T) where
  left_comm v w o := by
    cases o with
    | none => exact congrArg some (min_comm v w)
    | some u => exact congrArg some (min_left_comm v w u)

/-- The minimum of a multiset, if it is not empty. -/
def least (M : Multiset T) : Option T :=
  M.foldr lower none

@[simp] theorem least_cons (v : T) (M : Multiset T) : least (v ::ₘ M) = lower v (least M) :=
  Multiset.foldr_cons ..

/-- `least` is the minimum. -/
theorem exists_least {M : Multiset T} (hM : M ≠ 0) :
    ∃ v ∈ M, least M = some v ∧ ∀ w ∈ M, v ≤ w := by
  induction M using Multiset.induction with
  | empty => exact absurd rfl hM
  | cons u M ih =>
      by_cases hzero : M = 0
      · subst hzero
        exact ⟨u, Multiset.mem_cons_self .., rfl, by simp⟩
      · obtain ⟨w, hw, hleast, hle⟩ := ih hzero
        refine ⟨min u w, ?_, ?_, fun x hx => ?_⟩
        · rcases min_choice u w with heq | heq
          · rw [heq]
            exact Multiset.mem_cons_self ..
          · rw [heq]
            exact Multiset.mem_cons_of_mem hw
        · rw [least_cons, hleast]
          rfl
        · rcases Multiset.mem_cons.mp hx with rfl | hx
          · exact min_le_left ..
          · exact (min_le_right ..).trans (hle x hx)

/-- An element that is at most all others is the least. -/
theorem least_eq_some {M : Multiset T} {v : T} (hv : v ∈ M) (hle : ∀ w ∈ M, v ≤ w) :
    least M = some v := by
  have hM : M ≠ 0 := by
    rintro rfl
    exact Multiset.notMem_zero v hv
  obtain ⟨w, hw, hleast, hle'⟩ := exists_least hM
  rw [hleast, le_antisymm (hle' v hv) (hle w hw)]

/-- What each call does to a multiset, and what it answers. -/
def spec (M : Multiset T) : Call T → Multiset T × Answer T
  | .push value => (value ::ₘ M, .nothing)
  | .pop => ((least M).elim M M.erase, .nothing)
  | .top => (M, (least M).elim .nothing .item)
  | .size => (M, .number M.card)
  | .empty => (M, .truth (M = 0))

/-- The calls that are allowed: no `pop` and no `top` on an empty queue, and
    fewer than `2 ^ 31` elements. -/
def Allowed (M : Multiset T) : Call T → Prop
  | .push _ => M.card + 1 < 2 ^ 31
  | .pop => M ≠ 0
  | .top => M ≠ 0
  | .size => True
  | .empty => True

instance (M : Multiset T) (c : Call T) : Decidable (Allowed M c) := by
  cases c <;> unfold Allowed <;> infer_instance

/-! ## The representation invariant -/

/-- What holds of a queue between two calls. -/
structure Rep (M : Multiset T) (q : Queue T) (ts : List (Tree Addr T)) : Prop where
  rooted : Rooted q.heap ts
  min_node : q.min_node = (ts.map Tree.addr).head?
  values : contents ts = M
  first : ∀ t, ts.head? = some t → ∀ v ∈ M, t.value ≤ v
  size : q.size_ = UInt64.ofNat M.card

theorem rep_fresh : Rep 0 (Queue.fresh : Queue T) [] where
  rooted := ⟨⟨List.nodup_nil, nofun, nofun⟩, .nil⟩
  min_node := rfl
  values := rfl
  first := nofun
  size := rfl

section Calls

variable {M : Multiset T} {q : Queue T} {ts : List (Tree Addr T)} {t : Tree Addr T}

/-- The counter is right below `2 ^ 64`. -/
theorem Rep.toNat_size (hq : Rep M q ts) (hsmall : M.card < 2 ^ 64) :
    q.size_.toNat = M.card := by
  rw [hq.size]
  exact Nat.mod_eq_of_lt hsmall

/-- `empty` looks at the counter. -/
theorem Rep.empty_eq (hq : Rep M q ts) (hsmall : M.card < 2 ^ 64) :
    q.empty = decide (M = 0) := by
  have hzero : q.size_ = 0 ↔ M = 0 := by
    rw [← Multiset.card_eq_zero, ← hq.toNat_size hsmall, ← UInt64.toNat_inj]
    rfl
  rw [Queue.empty, ← decide_eq_decide.mpr hzero]
  rfl

/-- A queue that is not empty has a first root, with a least value. -/
theorem Rep.exists_first (hq : Rep M q ts) (hM : M ≠ 0) :
    ∃ t us, ts = t :: us ∧ q.min_node = some t.addr ∧ t.value ∈ M ∧
      least M = some t.value := by
  cases ts with
  | nil => exact absurd hq.values.symm hM
  | cons t us =>
      have hmem : t.value ∈ M := hq.values ▸ mem_contents.mpr
        ⟨t, List.mem_cons_self .., Multiset.mem_cons_self ..⟩
      exact ⟨t, us, rfl, hq.min_node, hmem, least_eq_some hmem (hq.first t rfl)⟩

/-- `top` reads the first root, which is the least element. -/
theorem Rep.top_eq (hq : Rep M q ts) {v : T} (hv : least M = some v) : q.top = .ok v := by
  have hM : M ≠ 0 := fun hzero => by
    rw [hzero] at hv
    nomatch hv
  obtain ⟨t, us, rfl, hmin, -, hleast⟩ := hq.exists_first hM
  obtain rfl : t.value = v := Option.some.inj (hleast.symm.trans hv)
  rw [Queue.top, hmin]
  exact getValue_some (hq.rooted.stored.body t (List.mem_cons_self ..)).value

/-- The new node of `push` goes right behind `min_node`. -/
theorem insertNew_spec {h : Heap T} (hr : Rooted h (t :: ts)) (v : T) :
    ∃ h', insertRight (h.alloc v 1 none) (some t.addr) (some h.next) = .ok h' ∧
      Rooted h' (t :: Tree.single h.next v :: ts) := by
  have hs := hr.stored.single v
  have hne (a : Addr) (ha : a ∈ (t :: ts).map Tree.addr) : a ≠ h.next :=
    (hr.stored.bound a ((map_addr_sublist _).subset ha)).ne
  have hl : Linked (h.alloc v 1 none).left (h.alloc v 1 none).right
      ((t :: ts).map Tree.addr) :=
    hr.links.congr (fun a ha => Function.update_of_ne (hne a ha) ..)
      fun a ha => Function.update_of_ne (hne a ha) ..
  obtain ⟨L, R, hinsert, hl', hframe⟩ := insertRight_spec hl (fun hmem => hne _ hmem rfl)
    hs.live_roots (Function.update_self ..)
  refine ⟨_, hinsert, hs.rooted (.swap ..) hl' fun y hy => (hframe y hy).2⟩

/-- **PUSH** adds a tree of one node. -/
theorem Rep.push (hq : Rep M q ts) (v : T) :
    ∃ q' ts', q.push v = .ok q' ∧ Rep (v ::ₘ M) q' ts' ∧
      ts'.Perm (Tree.single q.heap.next v :: ts) := by
  have hsize : q.size_ + 1 = UInt64.ofNat (v ::ₘ M).card := by
    rw [Multiset.card_cons, UInt64.ofNat_add, hq.size]
    rfl
  cases ts with
  | nil =>
      obtain rfl : 0 = M := hq.values
      have hmin : q.min_node = none := hq.min_node
      refine ⟨⟨q.heap.alloc v 1 none, some q.heap.next, q.size_ + 1⟩,
        [Tree.single q.heap.next v], ?_,
        ⟨⟨hq.rooted.stored.single v, ?_⟩, rfl, rfl, ?_, hsize⟩, .refl _⟩
      · simp [Queue.push, Heap.newNode, hmin]
      · refine ⟨List.nodup_singleton _, ?_⟩
        exact ⟨Function.update_self .., Function.update_self .., trivial⟩
      · rintro u hu w hw
        obtain rfl : Tree.single q.heap.next v = u := Option.some.inj hu
        exact (Multiset.mem_singleton.mp hw).ge
  | cons t ts =>
      have hmin : q.min_node = some t.addr := hq.min_node
      obtain ⟨h₁, hinsert, hr₁⟩ := insertNew_spec hq.rooted v
      have hbt := hr₁.stored.body t (List.mem_cons_self ..)
      have hvt : (h₁.value t.addr).isSome := Heap.live_of_value hbt.value
      have hright : h₁.right t.addr = some q.heap.next := hr₁.links.at_head.2
      have hcontents : contents (Tree.single q.heap.next v :: t :: ts) = v ::ₘ M := by
        rw [contents_cons, hq.values]
        exact Multiset.singleton_add v M
      by_cases hlt : v < t.value
      -- a new minimum changes places with the old one, right in front of it
      · obtain ⟨h₂, hswap, hr₂⟩ := Rooted.swap
          (show Rooted h₁ (t :: ([] ++ Tree.single q.heap.next v :: ts)) from hr₁)
        refine ⟨⟨h₂, some q.heap.next, q.size_ + 1⟩, Tree.single q.heap.next v :: t :: ts, ?_,
          ⟨hr₂, rfl, hcontents, ?_, hsize⟩, .refl _⟩
        · have hswap' : nodeSwap h₁ (some t.addr) (some q.heap.next) = .ok h₂ := hswap
          simp [Queue.push, Heap.newNode, hmin, hinsert, getValue_some hbt.value, hlt, hvt,
            hright, hswap']
        · rintro u hu w hw
          obtain rfl : Tree.single q.heap.next v = u := Option.some.inj hu
          rcases Multiset.mem_cons.mp hw with rfl | hw
          · exact le_rfl
          · exact hlt.le.trans (hq.first t rfl w hw)
      · refine ⟨⟨h₁, some t.addr, q.size_ + 1⟩, t :: Tree.single q.heap.next v :: ts, ?_,
          ⟨hr₁, rfl, ?_, ?_, hsize⟩, .swap ..⟩
        · simp [Queue.push, Heap.newNode, hmin, hinsert, getValue_some hbt.value, hlt]
        · exact (contents_perm (.swap ..)).trans hcontents
        · rintro u hu w hw
          obtain rfl : t = u := Option.some.inj hu
          rcases Multiset.mem_cons.mp hw with rfl | hw
          · exact le_of_not_gt hlt
          · exact hq.first t rfl w hw

/-! ## The three parts of `pop` -/

/-- The first part of `pop`: the children of `min_node` become roots and
    `min_node` is deleted. -/
def Queue.removeMin (q : Queue T) : Except Fault (Queue T) := do
  if q.size_ = 0 then .error .exit
  else
    let child ← q.heap.getChild q.min_node
    let h ← spliceChildren q.min_node (q.heap.next + 1) q.heap child
    let (h, min_node) ← deleteMinNode h q.min_node
    return ⟨h, min_node, q.size_ - 1⟩

/-- The second part, where a root is left: `maintainMin` and `consolidate`. -/
def Queue.reroot (q : Queue T) : Except Fault (Queue T) := do
  let (h, min_node) ← maintainMin q.heap q.min_node q.min_node
  let (h, min_node) ← consolidate h min_node q.size_
  return ⟨h, min_node, q.size_⟩

/-- The last part: walk to the left end, and swap it with `min_node`. -/
def Queue.walkSwap (q : Queue T) : Except Fault (Queue T) := do
  let cur ← walkLeft q.heap (q.heap.next + 1) q.min_node
  let h ← nodeSwap q.heap q.min_node cur
  return ⟨h, cur, q.size_⟩

/-- `pop` is its three parts. -/
theorem pop_eq (q : Queue T) :
    q.pop = (do
      let q ← q.removeMin
      if q.min_node = none then return q
      else
        let q ← q.reroot
        q.walkSwap) := by
  by_cases hsize : q.size_ = 0
  · simp only [Queue.pop, Queue.removeMin, if_pos hsize]
    rfl
  · simp only [Queue.pop, Queue.removeMin, Queue.reroot, Queue.walkSwap, if_neg hsize,
      bind_assoc, pure_bind]

/-- A representation whose least value may be at any root. -/
structure Unordered (M : Multiset T) (q : Queue T) (ts : List (Tree Addr T)) : Prop where
  rooted : Rooted q.heap ts
  min_node : q.min_node = (ts.map Tree.addr).head?
  values : contents ts = M
  size : q.size_ = UInt64.ofNat M.card

theorem Rep.size_ne_zero (hq : Rep M q ts) (hM : M ≠ 0) (hcount : M.card < 2 ^ 64) :
    q.size_ ≠ 0 := by
  intro hzero
  have hcard := hq.toNat_size hcount
  rw [hzero] at hcard
  exact hM (Multiset.card_eq_zero.mp hcard.symm)

/-- The root that goes holds a minimum; its children hold the rest of its tree. -/
theorem Rep.removeMin (hq : Rep M q ts) (hM : M ≠ 0) (hcount : M.card < 2 ^ 64)
    (hfits : Fits ts) :
    ∃ v q' ts', least M = some v ∧ v ∈ M ∧ q.removeMin = .ok q' ∧
      Unordered (M.erase v) q' ts' ∧ Fits ts' := by
  obtain ⟨t, ts, rfl, hmin, hmem, hleast⟩ := hq.exists_first hM
  obtain ⟨ks, hks⟩ := t.shape.exists_trees t.heaped
  have hrest : contents (ks.reverse ++ ts) = M.erase t.value := by
    have hopen : M = t.value ::ₘ contents (ks ++ ts) :=
      hq.values.symm.trans (contents_open hks)
    rw [hopen, Multiset.erase_cons_head]
    exact contents_perm ((List.reverse_perm ks).append_right ts)
  have hsize : q.size_ - 1 = UInt64.ofNat (M.erase t.value).card := by
    rw [hq.size, ← Multiset.card_erase_add_one hmem, UInt64.ofNat_add]
    exact UInt64.add_sub_cancel ..
  have hbt := hq.rooted.stored.body t (List.mem_cons_self ..)
  have hvt : (q.heap.value t.addr).isSome := Heap.live_of_value hbt.value
  obtain ⟨h₁, h₂, hsplice, hdelete, hr₂⟩ := removeRoot_spec hq.rooted hks
  refine ⟨t.value, ⟨h₂, ((ks.reverse ++ ts).map Tree.addr).head?, q.size_ - 1⟩,
    ks.reverse ++ ts, hleast, hmem, ?_, ⟨hr₂, rfl, hrest, hsize⟩, hfits.open hks⟩
  simp only [Queue.removeMin, if_neg (hq.size_ne_zero hM hcount), hmin, getChild_some hvt,
    hbt.child, hsplice, hdelete, ok_bind, pure_eq_ok]

/-- A least root is put in front, and one root is left for each rank. -/
theorem Unordered.reroot (hq : Unordered M q (t :: ts)) (hcount : M.card < 2 ^ 64)
    (hfits : Fits (t :: ts)) :
    MayOverflow M q.reroot fun q' =>
      ∃ r rs, Rep M q' (r :: rs) ∧ ((r :: rs).map Tree.rank).Nodup ∧ Fits (r :: rs) := by
  obtain ⟨h₁, u, us, hmaintain, hr₁, hperm, hle⟩ := maintainMin_spec hq.rooted
  have hcontents : contents (u :: us) = M := (contents_perm hperm).trans hq.values
  -- A root has a least value of its tree, and `u` is a least root.
  have hleast (v : T) (hv : v ∈ contents (u :: us)) : u.value ≤ v := by
    obtain ⟨w, hw, hvw⟩ := mem_contents.mp hv
    exact (hle w (hperm.mem_iff.mp hw)).trans (w.le_of_mem v hvw)
  have hsize : q.size_.toNat = (contents (u :: us)).card := by
    rw [hcontents, hq.size]
    exact Nat.mod_eq_of_lt hcount
  have hconsol := consolidate_spec hr₁ hleast hsize fun w hw => hfits w (hperm.mem_iff.mp hw)
  rw [hcontents] at hconsol hleast
  have hmin : q.min_node = some t.addr := hq.min_node
  simp only [Queue.reroot, hmin, hmaintain, ok_bind]
  refine hconsol.bind ?_
  rintro ⟨h₂, min_node⟩ ⟨r, rs, rfl, hr₂, hvalues, hvalue, hrank, hfits'⟩
  refine .ok ⟨r, rs, ⟨hr₂, rfl, hvalues, ?_, hq.size⟩, hrank, hfits'⟩
  rintro r' hr' v hv
  obtain rfl : r = r' := Option.some.inj hr'
  exact hvalue ▸ hleast v hv

/-- `min_node` is at the left end already, and is swapped with itself. -/
theorem Rep.walkSwap (hq : Rep M q (t :: ts)) : q.walkSwap = .ok q := by
  have hmin : q.min_node = some t.addr := hq.min_node
  simp only [Queue.walkSwap, hmin, walkLeft_spec hq.rooted, ok_bind, pure_eq_ok,
    nodeSwap_self hq.rooted.links hq.rooted.stored.live_roots List.mem_cons_self]
  rw [← hmin]

/-- **POP** removes one least value, and leaves roots of different ranks. -/
theorem Rep.pop (hq : Rep M q ts) (hM : M ≠ 0) (hcount : M.card < 2 ^ 64) (hfits : Fits ts) :
    ∃ v, least M = some v ∧ MayOverflow (M.erase v) q.pop fun q' =>
      ∃ ts', Rep (M.erase v) q' ts' ∧ (ts'.map Tree.rank).Nodup ∧ Fits ts' := by
  obtain ⟨v, q₁, ts₁, hleast, hmem, hremove, hq₁, hfits₁⟩ := hq.removeMin hM hcount hfits
  have hcard := Multiset.card_erase_add_one hmem
  refine ⟨v, hleast, ?_⟩
  simp only [pop_eq, hremove, ok_bind]
  cases ts₁ with
  | nil =>
      have hnull : q₁.min_node = none := hq₁.min_node
      rw [if_pos hnull]
      exact .ok ⟨[], ⟨hq₁.rooted, hq₁.min_node, hq₁.values, nofun, hq₁.size⟩,
        List.nodup_nil, nofun⟩
  | cons u us =>
      have hroot : q₁.min_node = some u.addr := hq₁.min_node
      rw [if_neg (by rw [hroot]; exact Option.some_ne_none _)]
      refine (hq₁.reroot (by omega) hfits₁).bind ?_
      rintro q₂ ⟨r, rs, hq₂, hrank, hfits₂⟩
      rw [hq₂.walkSwap]
      exact .ok ⟨r :: rs, hq₂, hrank, hfits₂⟩

/-- The calls a queue serves: no `pop` and no `top` when it is empty, and no more
    elements than `size_` can count. -/
def Legal (M : Multiset T) : Call T → Prop
  | .push _ => M.card + 1 < 2 ^ 64
  | .pop => M ≠ 0
  | .top => M ≠ 0
  | .size => True
  | .empty => True

/-- **ONE CALL.**  Only a `pop` that leaves `2 ^ 31` elements stops. -/
theorem Rep.call (hq : Rep M q ts) {c : Call T} (hcount : M.card < 2 ^ 64) (hfits : Fits ts)
    (hc : Legal M c) :
    Unless (c = .pop ∧ 2 ^ 31 ≤ (spec M c).1.card) Fault.overflow (q.call c)
      fun (q', answer) => answer = (spec M c).2 ∧
        ∃ ts', Rep (spec M c).1 q' ts' ∧ Fits ts' ∧ (c = .pop → (ts'.map Tree.rank).Nodup) ∧
          (spec M c).1.card < 2 ^ 64 := by
  cases c with
  | push value =>
      obtain ⟨q', ts', hpush, hq', hperm⟩ := hq.push value
      refine .inl ⟨(q', .nothing), ?_, rfl, ts', hq', fun t ht => ?_, by rintro ⟨⟩, ?_⟩
      · simp only [Queue.call, hpush, ok_bind, pure_eq_ok]
      · rcases List.mem_cons.mp (hperm.mem_iff.mp ht) with rfl | ht
        · exact Nat.zero_lt_succ 30
        · exact hfits t ht
      · rw [spec, Multiset.card_cons]
        exact hc
  | pop =>
      obtain ⟨v, hv, hpop⟩ := hq.pop hc hcount hfits
      have hspec : (spec M .pop).1 = M.erase v := by rw [spec, hv]; rfl
      rw [hspec]
      rcases hpop with ⟨q', hq', ts', hrep, hrank, hfits'⟩ | ⟨hover, hbig⟩
      · refine .inl ⟨(q', .nothing), ?_, rfl, ts', hrep, hfits', fun _ => hrank, ?_⟩
        · simp only [Queue.call, hq', ok_bind, pure_eq_ok]
        · exact lt_of_le_of_lt (Multiset.card_le_card (Multiset.erase_le v M)) hcount
      · refine .inr ⟨?_, rfl, hbig⟩
        simp only [Queue.call, hover]
        rfl
  | top =>
      obtain ⟨v, -, hv, -⟩ := exists_least hc
      refine .inl ⟨(q, .item v), ?_, ?_, ts, hq, hfits, by rintro ⟨⟩, hcount⟩
      · simp only [Queue.call, hq.top_eq hv, ok_bind, pure_eq_ok]
      · rw [spec, hv]
        rfl
  | size =>
      refine .inl ⟨(q, .number M.card), ?_, rfl, ts, hq, hfits, by rintro ⟨⟩, hcount⟩
      simp only [Queue.call, Queue.size, hq.toNat_size hcount, pure_eq_ok]
  | empty =>
      refine .inl ⟨(q, .truth (M = 0)), ?_, rfl, ts, hq, hfits, by rintro ⟨⟩, hcount⟩
      simp only [Queue.call, hq.empty_eq hcount, pure_eq_ok]

omit [LinearOrder T] in
theorem Allowed.legal {c : Call T} (hc : Allowed M c) : Legal M c := by
  cases c with
  | push value => exact lt_trans (show M.card + 1 < 2 ^ 31 from hc) (by decide)
  | pop => exact hc
  | top => exact hc
  | size => trivial
  | empty => trivial

/-- No allowed call leaves `2 ^ 31` elements. -/
theorem Allowed.card_lt {c : Call T} (hc : Allowed M c) (hsmall : M.card < 2 ^ 31) :
    (spec M c).1.card < 2 ^ 31 := by
  cases c with
  | push value =>
      rw [spec, Multiset.card_cons]
      exact hc
  | pop =>
      obtain ⟨v, -, hv, -⟩ := exists_least hc
      rw [spec, hv]
      exact lt_of_le_of_lt (Multiset.card_le_card (Multiset.erase_le v M)) hsmall
  | top => exact hsmall
  | size => exact hsmall
  | empty => exact hsmall

end Calls

/-- **THE PRIORITY QUEUE REFINES A MULTISET.**  On a fresh queue a sequence of
    calls, with no `pop` or `top` on an empty queue and with fewer than `2 ^ 31`
    elements throughout, meets no fault, gets the answers of a multiset from
    which each `pop` erases one minimum, and leaves trees that hold its values. -/
theorem queue_refines_multiset (cs : List (Call T)) (hok : Throughout spec Allowed 0 cs) :
    ∃ q ts, (Queue.fresh : Queue T).calls cs = .ok (q, (specRun spec 0 cs).2) ∧
      Rep (specRun spec 0 cs).1 q ts := by
  obtain ⟨q, hrun, ⟨ts, hq, -⟩, -⟩ := run_refines
    (I := fun M q => (∃ ts, Rep M q ts ∧ Fits ts) ∧ M.card < 2 ^ 31)
    (fun M q c ⟨⟨ts, hq, hfits⟩, hsmall⟩ hc => by
      have hsmall' := hc.card_lt hsmall
      have hcall := hq.call (hsmall.trans (by decide)) hfits hc.legal
      obtain ⟨⟨q', answer⟩, hcall, rfl, ts', hq', hfits', -⟩ :=
        hcall.returns fun hbig => absurd hbig.2 (not_le_of_gt hsmall')
      exact ⟨q', hcall, ⟨ts', hq', hfits'⟩, hsmall'⟩)
    ⟨⟨[], rep_fresh, nofun⟩, Nat.two_pow_pos 31⟩ hok
  exact ⟨q, ts, hrun, hq⟩

theorem queue_refines_multiset_of_eleven_calls :
    ∃ q ts, (Queue.fresh : Queue Nat).calls
        [.push 3, .push 1, .push 2, .push 1, .top, .pop, .top, .pop, .top, .size, .empty] =
      .ok (q, [.nothing, .nothing, .nothing, .nothing, .item 1, .nothing, .item 1, .nothing,
        .item 2, .number 2, .truth false]) ∧
      Rep {2, 3} q ts :=
  queue_refines_multiset _ (by decide)

end PriorityQueue
