import UniqueFreshman.QueueShapeProofs

/-! # The memory of the priority queue — one node lost with every `pop`

    `consolidate` copies every root and deletes an old one when it goes on to the
    next, so the last old root is never deleted.  Everything else in the source
    moves links and values between nodes that are there (`Keeps`); `push`
    allocates one node and `pop` deletes the one of the minimum.  So after any
    calls there is one live node for each element, and one for each `pop` that
    left the queue with elements. -/

namespace PriorityQueue

open BinomialTree LinkedList CallSequence

variable {T : Type} {h h' h'' : Heap T}

/-! ## The nodes that are there -/

/-- No address from `next` on has been handed out. -/
def Fresh (h : Heap T) : Prop :=
  ∀ a, h.next ≤ a → h.value a = none

/-- The addresses with a node. -/
def Heap.nodes (h : Heap T) : Finset Addr :=
  (Finset.range h.next).filter fun a => (h.value a).isSome

/-- The nodes are the addresses that hold a value. -/
theorem Fresh.mem_nodes (hf : Fresh h) (a : Addr) : a ∈ h.nodes ↔ (h.value a).isSome := by
  rw [Heap.nodes, Finset.mem_filter, Finset.mem_range, and_iff_right_iff_imp]
  intro hlive
  by_contra hge
  rw [hf a (not_lt.mp hge)] at hlive
  cases hlive

/-- The same nodes, whatever they hold. -/
structure SameNodes (h h' : Heap T) : Prop where
  next : h'.next = h.next
  live : ∀ a, (h'.value a).isSome = (h.value a).isSome

theorem SameNodes.refl (h : Heap T) : SameNodes h h :=
  ⟨rfl, fun _ => rfl⟩

/-- Two parts of a function that each leave the nodes alone. -/
theorem SameNodes.trans (h₁ : SameNodes h h') (h₂ : SameNodes h' h'') : SameNodes h h'' :=
  ⟨h₂.next.trans h₁.next, fun a => (h₂.live a).trans (h₁.live a)⟩

/-- The set of nodes is the same, not only their number. -/
theorem SameNodes.nodes_eq (hs : SameNodes h h') : h'.nodes = h.nodes := by
  ext a
  simp only [Heap.nodes, Finset.mem_filter, hs.next, hs.live]

/-- What was free above `next` stays free. -/
theorem SameNodes.fresh (hs : SameNodes h h') (hf : Fresh h) : Fresh h' := by
  intro a ha
  have hdead := hs.live a
  rw [hf a (hs.next ▸ ha)] at hdead
  exact Option.not_isSome_iff_eq_none.mp (Bool.eq_false_iff.mp hdead)

/-- One more node, at the next address. -/
structure NewNode (h h' : Heap T) : Prop where
  next : h'.next = h.next + 1
  live : ∀ a, (h'.value a).isSome ↔ a = h.next ∨ (h.value a).isSome

/-- `new` makes the one node it returns. -/
theorem newNode_alloc (h : Heap T) (v : T) (degree : Nat) (child : Ptr) :
    NewNode h (h.alloc v degree child) := by
  refine ⟨rfl, fun a => ?_⟩
  by_cases ha : a = h.next
  · simp [Heap.alloc, ha]
  · simp [Heap.alloc, ha]

/-- A node is made, and what follows leaves the nodes alone. -/
theorem NewNode.keep (h₁ : NewNode h h') (h₂ : SameNodes h' h'') : NewNode h h'' :=
  ⟨h₂.next.trans h₁.next, fun a => by rw [h₂.live, h₁.live]⟩

theorem NewNode.fresh (hn : NewNode h h') (hf : Fresh h) : Fresh h' := by
  intro a ha
  rw [hn.next] at ha
  rw [← Option.not_isSome_iff_eq_none, hn.live, hf a (Nat.le_of_succ_le ha)]
  rintro (heq | hlive)
  · exact absurd ha (heq ▸ Nat.not_succ_le_self h.next)
  · cases hlive

/-- **ONE NODE MORE.** -/
theorem NewNode.card_nodes (hn : NewNode h h') (hf : Fresh h) :
    h'.nodes.card = h.nodes.card + 1 := by
  have hnew : h.next ∉ h.nodes := by
    rw [hf.mem_nodes, hf h.next le_rfl]
    exact Bool.false_ne_true
  rw [← Finset.card_insert_of_notMem hnew]
  congr 1
  ext a
  rw [(hn.fresh hf).mem_nodes, hn.live, Finset.mem_insert, hf.mem_nodes]

/-- One node less. -/
structure LostNode (a : Addr) (h h' : Heap T) : Prop where
  next : h'.next = h.next
  live : ∀ b, (h'.value b).isSome ↔ b ≠ a ∧ (h.value b).isSome

theorem LostNode.fresh {a : Addr} (hl : LostNode a h h') (hf : Fresh h) : Fresh h' := by
  intro b hb
  rw [← Option.not_isSome_iff_eq_none, hl.live, hf b (hl.next ▸ hb)]
  exact fun hlive => Bool.false_ne_true hlive.2

/-- **ONE NODE FEWER**, if it was there. -/
theorem LostNode.card_nodes {a : Addr} (hl : LostNode a h h') (hf : Fresh h)
    (ha : (h.value a).isSome) : h'.nodes.card + 1 = h.nodes.card := by
  rw [← Finset.card_erase_add_one ((hf.mem_nodes a).mpr ha)]
  congr 2
  ext b
  rw [(hl.fresh hf).mem_nodes, hl.live, Finset.mem_erase, hf.mem_nodes]

/-! ## What leaves them alone -/

/-- Where `x` returns, the heap of its result has the nodes of `h`. -/
def Keeps {α : Type} (f : α → Heap T) (h : Heap T) (x : Except Fault α) : Prop :=
  ∀ r, x = .ok r → SameNodes h (f r)

section Keeps

variable {α β : Type} {f : α → Heap T} {g : β → Heap T} {x : Except Fault β}
  {k : β → Except Fault α}

theorem Keeps.ok {r : α} (hr : SameNodes h (f r)) : Keeps f h (.ok r) := by
  intro r' hr'
  cases hr'
  exact hr

theorem Keeps.error (e : Fault) : Keeps f h (.error e) := by
  intro r hr
  cases hr

/-- A read comes first. -/
theorem Keeps.read (hk : ∀ r, Keeps f h (k r)) : Keeps f h (x >>= k) := by
  intro r hr
  obtain ⟨b, -, hr⟩ := bind_eq_ok.mp hr
  exact hk b r hr

/-- Something that keeps the nodes comes first. -/
theorem Keeps.bind (hx : Keeps g h x) (hk : ∀ r, Keeps f (g r) (k r)) : Keeps f h (x >>= k) := by
  intro r hr
  obtain ⟨b, hb, hr⟩ := bind_eq_ok.mp hr
  exact (hx b hb).trans (hk b r hr)

/-- Both branches leave the nodes alone. -/
theorem Keeps.ite {c : Prop} [Decidable c] {x y : Except Fault α} (hx : Keeps f h x)
    (hy : Keeps f h y) : Keeps f h (if c then x else y) := by
  split
  · exact hx
  · exact hy

end Keeps

section Links

variable {p x skip a b org cur min_node old new0 new1 : Ptr}

theorem setValue_keeps {v : T} : Keeps id h (h.setValue p v) := by
  intro h' hset
  obtain ⟨a, ha, hset⟩ := bind_eq_ok.mp hset
  cases hset
  refine ⟨rfl, fun b => ?_⟩
  have hlive : (h.value a).isSome := by
    cases p with
    | none => cases ha
    | some c =>
        rw [Heap.deref] at ha
        split at ha
        · next hc =>
            cases ha
            exact hc
        · cases ha
  by_cases hb : b = a
  · rw [hb, hlive]
    simp
  · simp [hb]

theorem setLeft_keeps : Keeps id h (h.setLeft p x) :=
  .read fun _ => .ok ⟨rfl, fun _ => rfl⟩

theorem setRight_keeps : Keeps id h (h.setRight p x) :=
  .read fun _ => .ok ⟨rfl, fun _ => rfl⟩

theorem setParent_keeps : Keeps id h (h.setParent p x) :=
  .read fun _ => .ok ⟨rfl, fun _ => rfl⟩

theorem setChild_keeps : Keeps id h (h.setChild p x) :=
  .read fun _ => .ok ⟨rfl, fun _ => rfl⟩

/-- A degree is doubled, or the program ends with the overflow. -/
theorem doubleDegree_keeps : Keeps id h (h.doubleDegree p) :=
  .read fun _ => .ite (.ok ⟨rfl, fun _ => rfl⟩) (.error _)

theorem relinkRight_keeps : Keeps id h (relinkRight h p skip x) :=
  .ite setRight_keeps (.ok (.refl h))

theorem relinkLeft_keeps : Keeps id h (relinkLeft h p skip x) :=
  .ite setLeft_keeps (.ok (.refl h))

theorem swapLeft_keeps : Keeps id h (swapLeft h a b) :=
  .read fun _ => .read fun _ => setLeft_keeps.bind fun _ => setLeft_keeps

theorem swapRight_keeps : Keeps id h (swapRight h a b) :=
  .read fun _ => .read fun _ => setRight_keeps.bind fun _ => setRight_keeps

theorem relinkNeighbours_keeps : Keeps id h (relinkNeighbours h a b) :=
  .read fun _ => relinkRight_keeps.bind fun _ =>
    .read fun _ => relinkLeft_keeps.bind fun _ =>
    .read fun _ => relinkRight_keeps.bind fun _ =>
    .read fun _ => relinkLeft_keeps

/-- Two nodes that are neighbours, in either order, or stand apart. -/
theorem exchangeLinks_keeps : Keeps id h (exchangeLinks h a b) := by
  refine .read fun _ => .ite ?_ (.read fun _ => .ite ?_ ?_)
  · exact .read fun _ => setRight_keeps.bind fun _ => .read fun _ =>
      setLeft_keeps.bind fun _ => setLeft_keeps.bind fun _ => setRight_keeps
  · exact .read fun _ => setRight_keeps.bind fun _ => .read fun _ =>
      setLeft_keeps.bind fun _ => setLeft_keeps.bind fun _ => setRight_keeps
  · exact swapLeft_keeps.bind fun _ => swapRight_keeps

/-- `nodeSwap` moves links, not nodes. -/
theorem nodeSwap_keeps : Keeps id h (nodeSwap h a b) :=
  relinkNeighbours_keeps.bind fun _ => exchangeLinks_keeps

/-- `insertRight` moves links, not nodes. -/
theorem insertRight_keeps : Keeps id h (insertRight h org cur) := by
  refine .ite (.read fun _ => .ite ?_ ?_) (.ok (.refl h))
  · exact setRight_keeps.bind fun _ => setLeft_keeps
  · exact setLeft_keeps.bind fun _ => .read fun _ => setRight_keeps.bind fun _ =>
      .read fun _ => setLeft_keeps.bind fun _ => setRight_keeps

/-- Taking a node out of its list does not delete it. -/
theorem unlink_keeps : Keeps id h (unlink h p) :=
  .read fun _ => .read fun _ => relinkRight_keeps.bind fun _ =>
    .read fun _ => .read fun _ => relinkLeft_keeps

/-- By induction on the children still to be spliced in. -/
theorem spliceChildren_keeps {fuel : Nat} :
    Keeps id h (spliceChildren min_node fuel h p) := by
  induction fuel generalizing h p with
  | zero => exact .error _
  | succ fuel ih =>
      cases p with
      | none => exact .ok (.refl h)
      | some cur =>
          exact .read fun _ => setRight_keeps.bind fun _ => setLeft_keeps.bind fun _ =>
            insertRight_keeps.bind fun _ => setParent_keeps.bind fun _ => ih

theorem setChildParent_keeps : Keeps id h (setChildParent h p x) :=
  .read fun _ => .ite setParent_keeps (.ok (.refl h))

/-- A root becomes a child, with or without children in front of which it is put. -/
theorem adopt_keeps : Keeps id h (adopt h old new0) := by
  have hend {h : Heap T} : Keeps id h (h.setParent old new0 >>= fun h => h.setLeft old none) :=
    setParent_keeps.bind fun _ => setLeft_keeps
  refine .read fun _ => .ite ?_ ?_
  · exact .read fun _ => setLeft_keeps.bind fun _ => .read fun _ => setRight_keeps.bind fun _ =>
      setChild_keeps.bind fun _ => setLeft_keeps.bind fun _ => hend
  · exact setChild_keeps.bind fun _ => .read fun _ => setRight_keeps.bind fun _ =>
      .read fun _ => setLeft_keeps.bind fun _ => hend

theorem hang_keeps : Keeps id h (hang h new1 new0) :=
  .read fun _ => setLeft_keeps.bind fun _ => .read fun _ => setRight_keeps.bind fun _ =>
    setLeft_keeps.bind fun _ => setParent_keeps.bind fun _ => setChild_keeps

/-- Two nodes exchange what they hold, and stay where they are. -/
theorem swapContents_keeps : Keeps id h (swapContents h old new0) :=
  setChildParent_keeps.bind fun _ => setChildParent_keeps.bind fun _ =>
    .read fun _ => .read fun _ => setValue_keeps.bind fun _ => setValue_keeps.bind fun _ =>
    .read fun _ => .read fun _ => setChild_keeps.bind fun _ => setChild_keeps.bind fun _ =>
    .read fun _ => .read fun _ => setParent_keeps.bind fun _ => setParent_keeps

end Links

/-! ## What allocates or deletes -/

/-- `delete p`, at a node that is there. -/
theorem lostNode_delete {a : Addr} (hrun : h.delete (some a) = .ok h') : LostNode a h h' := by
  obtain ⟨b, hb, hrun⟩ := bind_eq_ok.mp hrun
  rw [Heap.deref] at hb
  split at hb
  · cases hb
    cases hrun
    refine ⟨rfl, fun b => ?_⟩
    by_cases hb : b = a
    · simp [hb]
    · simp [hb]
  · cases hb

/-- A node is deleted, and what follows leaves the others alone. -/
theorem LostNode.keep {a : Addr} (h₁ : LostNode a h h') (h₂ : SameNodes h' h'') :
    LostNode a h h'' :=
  ⟨h₂.next.trans h₁.next, fun b => by rw [h₂.live, h₁.live]⟩

/-- The old node in front of the next root is the one that goes. -/
theorem lostNode_dropLeft {a u : Addr} (hleft : h.getLeft (some u) = .ok (some a))
    (hrun : dropLeft h (some u) = .ok h') : LostNode a h h' := by
  rw [dropLeft, if_pos (Option.some_ne_none u), hleft, ok_bind] at hrun
  obtain ⟨h₁, hdelete, hrun⟩ := bind_eq_ok.mp hrun
  exact (lostNode_delete hdelete).keep (setLeft_keeps h' hrun)

/-- `pop` deletes the node of the minimum, and no other. -/
theorem lostNode_deleteMinNode {a : Addr} {p : Ptr}
    (hrun : deleteMinNode h (some a) = .ok (h', p)) : LostNode a h h' := by
  obtain ⟨h₁, hunlink, hrun⟩ := bind_eq_ok.mp hrun
  have hsame : SameNodes h h₁ := unlink_keeps h₁ hunlink
  obtain ⟨right, -, hrun⟩ := bind_eq_ok.mp hrun
  obtain ⟨left, -, hrun⟩ := bind_eq_ok.mp hrun
  have hlost : LostNode a h₁ h' := by
    split at hrun
    · obtain ⟨h₂, hdelete, hrun⟩ := bind_eq_ok.mp hrun
      cases hrun
      exact lostNode_delete hdelete
    · obtain ⟨temp, -, hrun⟩ := bind_eq_ok.mp hrun
      obtain ⟨h₂, hdelete, hrun⟩ := bind_eq_ok.mp hrun
      cases hrun
      exact lostNode_delete hdelete
  exact ⟨hlost.next.trans hsame.next, fun b => by rw [hlost.live, hsame.live]⟩

section Ordered

variable [LinearOrder T] {p min_node old new0 : Ptr} {c : Consol T} {log_degree : Nat}

/-- `maintainMin` looks for the smallest root and exchanges it with the first. -/
theorem maintainMin_keeps : Keeps Prod.fst h (maintainMin h min_node p) :=
  .read fun _ => nodeSwap_keeps.bind fun h' => .ok (.refl h')

theorem sortContents_keeps : Keeps id h (sortContents h old new0) :=
  .read fun _ => .read fun _ => .ite swapContents_keeps (.ok (.refl h))

/-- A tree of a new size becomes a root. -/
theorem addRoot_keeps : Keeps Consol.heap c.heap (addRoot c old log_degree) := by
  refine .ite ?_ ?_
  · exact setLeft_keeps.bind fun _ => setRight_keeps.bind fun h => .read fun _ => .ok (.refl h)
  · exact insertRight_keeps.bind fun h => .read fun _ => .read fun _ => .ok (.refl h)

/-- The inner loop of `consolidate`, by induction on its turns. -/
theorem carry_keeps {fuel : Nat} : Keeps Consol.heap c.heap (carry fuel c new0 log_degree) := by
  induction fuel generalizing c new0 log_degree with
  | zero => exact .error _
  | succ fuel ih =>
      refine .read fun _ => .ite (.read fun _ => .ok (.refl c.heap)) (.read fun _ => ?_)
      exact unlink_keeps.bind fun _ => hang_keeps.bind fun _ => .read fun _ =>
        doubleDegree_keeps.bind fun _ => ih

theorem mergeRoot_keeps : Keeps Consol.heap c.heap (mergeRoot c old new0 log_degree) :=
  sortContents_keeps.bind fun _ => .read fun _ => .read fun _ => adopt_keeps.bind fun _ =>
    .read fun _ => doubleDegree_keeps.bind fun _ => carry_keeps

/-- The copy of a root is a new node. -/
theorem newNode_consolidateRoot {c' : Consol T} (hrun : consolidateRoot c p = .ok c') :
    NewNode c.heap c'.heap := by
  obtain ⟨⟨h, old⟩, hcopy, hrun⟩ := bind_eq_ok.mp hrun
  have hnew : NewNode c.heap h := by
    obtain ⟨v, -, hcopy⟩ := bind_eq_ok.mp hcopy
    obtain ⟨child, -, hcopy⟩ := bind_eq_ok.mp hcopy
    obtain ⟨degree, -, hcopy⟩ := bind_eq_ok.mp hcopy
    cases hcopy
    exact newNode_alloc ..
  obtain ⟨degree, -, hrun⟩ := bind_eq_ok.mp hrun
  obtain ⟨new0, -, hrun⟩ := bind_eq_ok.mp hrun
  refine hnew.keep ?_
  have hkeeps : Keeps Consol.heap h (if new0 = none then
      addRoot { c with heap := h } old (1 + Nat.log2 degree)
      else mergeRoot { c with heap := h } old new0 (1 + Nat.log2 degree)) :=
    .ite addRoot_keeps mergeRoot_keeps
  exact hkeeps c' hrun

section Consolidate

variable {V : Multiset T} {v₀ : T} {rs olds : List (Tree Addr T)} {as : List Addr}

/-- **THE LOOP OF `consolidate`** has one node more at its end: it makes a copy
    of every root, and deletes all the old ones but the last. -/
theorem consolidateLoop_nodes {fuel : Nat} {c' : Consol T}
    (hm : Merged V v₀ c rs olds (olds.map Tree.addr) as) (hleast : ∀ v ∈ V, v₀ ≤ v)
    (hfirst : as = [] → ∃ t, olds.head? = some t ∧ t.value = v₀) (hfits : Fits (olds ++ rs))
    (hf : Fresh c.heap)
    (hrun : consolidateLoop fuel c (olds.map Tree.addr).head? = .ok c') :
    Fresh c'.heap ∧ c'.heap.nodes.card = c.heap.nodes.card + Nat.min 1 olds.length := by
  induction fuel generalizing c rs olds as with
  | zero => cases hrun
  | succ fuel ih =>
      cases olds with
      | nil =>
          cases hrun
          exact ⟨hf, rfl⟩
      | cons t olds =>
          have hfirst' (hnil : as = []) : t.value = v₀ := by
            obtain ⟨u, hu, hvalue⟩ := hfirst hnil
            obtain rfl : t = u := Option.some.inj hu
            exact hvalue
          obtain ⟨c₁, hroot, hrun⟩ := bind_eq_ok.mp hrun
          have hnew := newNode_consolidateRoot hroot
          have hspec := consolidateRoot_spec hm hleast hfirst' fun r hr => hfits r (by
            rcases List.mem_cons.mp hr with rfl | hr
            · simp
            · simp [hr])
          rw [hroot] at hspec
          obtain ⟨c₁', hc₁, rs₁, as₁, hne, hm₁, hfits₁⟩ | ⟨herror, -⟩ := hspec
          · cases hc₁
            have hnotMem : t.addr ∉ cells olds := fun hmem =>
              (hm.hold.stored.perm List.perm_middle).addr_notMem.2
                (by rw [cells_append]; exact List.mem_append_right _ hmem)
            obtain ⟨h₂, hdrop, hm₂⟩ := dropLeft_spec hm₁ hnotMem
            have hvt : (c₁.heap.value t.addr).isSome := hm₁.hold.live t.addr (by simp)
            have hright : c₁.heap.right t.addr = (olds.map Tree.addr).head? :=
              hm₁.hold.links.at_head.2
            simp only [getRight_some hvt, hright, hdrop, ok_bind] at hrun
            have hrest : Fits (olds ++ rs₁) := by
              intro r hr
              rcases List.mem_append.mp hr with hr | hr
              · exact hfits r (by simp [hr])
              · exact hfits₁ r hr
            have hnext : Fresh h₂ ∧ h₂.nodes.card + Nat.min 1 olds.length = c₁.heap.nodes.card := by
              cases olds with
              | nil =>
                  cases hdrop
                  exact ⟨hnew.fresh hf, rfl⟩
              | cons u olds =>
                  have hvu : (c₁.heap.value u.addr).isSome := hm₁.hold.live u.addr (by simp)
                  have hlinks : Linked c₁.heap.left c₁.heap.right
                      ([] ++ t.addr :: (u :: olds).map Tree.addr) := hm₁.hold.links
                  have hleft : c₁.heap.getLeft (some u.addr) = .ok (some t.addr) := by
                    rw [getLeft_some hvu, hlinks.seg.2.2.1]
                  have hlost := lostNode_dropLeft hleft hdrop
                  refine ⟨hlost.fresh (hnew.fresh hf), ?_⟩
                  have hcard := hlost.card_nodes (hnew.fresh hf) hvt
                  have hmin : Nat.min 1 (u :: olds).length = 1 := Nat.min_eq_left (by simp)
                  omega
            obtain ⟨hfresh, hcard⟩ := ih hm₂ (fun hnil => absurd hnil hne) hrest hnext.1 hrun
            have hcard₁ := hnew.card_nodes hf
            have hmin : Nat.min 1 (t :: olds).length = 1 := Nat.min_eq_left (by simp)
            refine ⟨hfresh, ?_⟩
            rw [hmin]
            have := hnext.2
            simp only at hcard
            omega
          · cases herror

end Consolidate

/-! ## The public functions -/

section Calls

variable {M : Multiset T} {q q' : Queue T} {t : Tree Addr T} {ts : List (Tree Addr T)}

/-- The number of nodes that are there. -/
def Queue.nodes (q : Queue T) : Nat :=
  q.heap.nodes.card

/-- **PUSH** allocates a node. -/
theorem push_nodes {v : T} (hf : Fresh q.heap) (hrun : q.push v = .ok q') :
    Fresh q'.heap ∧ q'.nodes = q.nodes + 1 := by
  have hnew : NewNode q.heap q'.heap := by
    refine (newNode_alloc q.heap v 1 none).keep ?_
    have hkeeps : Keeps Queue.heap (q.heap.newNode v).1 (q.push v) := by
      refine .ite (.ok (.refl _)) (insertRight_keeps.bind fun h => .read fun _ => .ite ?_ ?_)
      · exact .read fun _ => .read fun _ => nodeSwap_keeps.bind fun h => .ok (.refl h)
      · exact .ok (.refl h)
    exact hkeeps q' hrun
  exact ⟨hnew.fresh hf, hnew.card_nodes hf⟩

/-- The node of the minimum is deleted. -/
theorem Rep.removeMin_nodes (hq : Rep M q ts) (hM : M ≠ 0) (hf : Fresh q.heap)
    (hrun : q.removeMin = .ok q') : Fresh q'.heap ∧ q'.nodes + 1 = q.nodes := by
  obtain ⟨t, ts, rfl, hmin, -, -⟩ := hq.exists_first hM
  rw [Queue.removeMin] at hrun
  split at hrun
  · cases hrun
  · obtain ⟨child, -, hrun⟩ := bind_eq_ok.mp hrun
    obtain ⟨h₁, hsplice, hrun⟩ := bind_eq_ok.mp hrun
    obtain ⟨⟨h₂, min_node⟩, hdelete, hrun⟩ := bind_eq_ok.mp hrun
    cases hrun
    rw [hmin] at hdelete
    have hsame : SameNodes q.heap h₁ := spliceChildren_keeps h₁ hsplice
    have hlost := lostNode_deleteMinNode hdelete
    have hlive : (h₁.value t.addr).isSome := by
      rw [hsame.live]
      exact hq.rooted.stored.live List.mem_cons_self
    refine ⟨hlost.fresh (hsame.fresh hf), ?_⟩
    rw [Queue.nodes, Queue.nodes, ← hsame.nodes_eq]
    exact hlost.card_nodes (hsame.fresh hf) hlive

/-- A node is lost where `consolidate` runs. -/
theorem Unordered.reroot_nodes (hq : Unordered M q (t :: ts)) (hcount : M.card < 2 ^ 64)
    (hfits : Fits (t :: ts)) (hf : Fresh q.heap) (hrun : q.reroot = .ok q') :
    Fresh q'.heap ∧ q'.nodes = q.nodes + 1 := by
  obtain ⟨h₁, u, us, hmaintain, hr₁, hperm, hle⟩ := maintainMin_spec hq.rooted
  have hcontents : contents (u :: us) = M := (contents_perm hperm).trans hq.values
  have hleast (v : T) (hv : v ∈ contents (u :: us)) : u.value ≤ v := by
    obtain ⟨w, hw, hvw⟩ := mem_contents.mp hv
    exact (hle w (hperm.mem_iff.mp hw)).trans (w.le_of_mem v hvw)
  have hsize : q.size_.toNat = (contents (u :: us)).card := by
    rw [hcontents, hq.size]
    exact Nat.mod_eq_of_lt hcount
  have hmin : q.min_node = some t.addr := hq.min_node
  have hsame : SameNodes q.heap h₁ := maintainMin_keeps _ hmaintain
  simp only [Queue.reroot, hmin, hmaintain, ok_bind] at hrun
  obtain ⟨⟨h₂, min_node⟩, hconsol, hrun⟩ := bind_eq_ok.mp hrun
  cases hrun
  obtain ⟨c, hloop, hconsol⟩ := bind_eq_ok.mp hconsol
  cases hconsol
  have hm : Merged (contents (u :: us)) u.value
      ⟨h₁, none, List.replicate (1 + (1 + Nat.log2 q.size_.toNat)) none⟩ [] (u :: us)
      ((u :: us).map Tree.addr) [] := by
    refine ⟨⟨hr₁.stored, rfl, hr₁.links, hr₁.stored.live_roots, by rintro _ _ ⟨⟩⟩,
      ⟨.nil, .refl _, rfl, by rintro _ ⟨⟩⟩, slots_replicate _, ?_⟩
    rw [List.length_replicate, hsize]
    omega
  obtain ⟨hfresh, hcard⟩ := consolidateLoop_nodes hm hleast (fun _ => ⟨u, rfl, rfl⟩)
    (by rw [List.append_nil]; exact fun w hw => hfits w (hperm.mem_iff.mp hw)) (hsame.fresh hf)
    hloop
  refine ⟨hfresh, ?_⟩
  have hone : Nat.min 1 (u :: us).length = 1 := Nat.min_eq_left (by simp)
  rw [Queue.nodes, Queue.nodes, hcard, hone, hsame.nodes_eq]

/-- **POP** gives one node back, and loses one if elements are left. -/
theorem Rep.pop_nodes (hq : Rep M q ts) (hM : M ≠ 0) (hcount : M.card < 2 ^ 64)
    (hfits : Fits ts) (hf : Fresh q.heap) (hrun : q.pop = .ok q') :
    Fresh q'.heap ∧ q'.nodes + 1 = q.nodes + if M.card = 1 then 0 else 1 := by
  obtain ⟨v, q₁, ts₁, -, hmem, hremove, hq₁, hfits₁⟩ := hq.removeMin hM hcount hfits
  obtain ⟨hf₁, hnodes₁⟩ := hq.removeMin_nodes hM hf hremove
  have hcard := Multiset.card_erase_add_one hmem
  simp only [pop_eq, hremove, ok_bind] at hrun
  cases ts₁ with
  | nil =>
      have hnull : q₁.min_node = none := hq₁.min_node
      rw [if_pos hnull] at hrun
      cases hrun
      have hzero : (M.erase v).card = 0 := by rw [← hq₁.values]; rfl
      rw [if_pos (by omega)]
      exact ⟨hf₁, hnodes₁⟩
  | cons u us =>
      have hroot : q₁.min_node = some u.addr := hq₁.min_node
      rw [if_neg (by rw [hroot]; exact Option.some_ne_none _)] at hrun
      obtain ⟨q₂, hreroot, hrun⟩ := bind_eq_ok.mp hrun
      obtain ⟨hf₂, hnodes₂⟩ := hq₁.reroot_nodes (by omega) hfits₁ hf₁ hreroot
      have hkeeps : Keeps Queue.heap q₂.heap q₂.walkSwap :=
        .read fun _ => nodeSwap_keeps.bind fun h => .ok (.refl h)
      have hsame := hkeeps q' hrun
      have hpos : 0 < (M.erase v).card := by
        rw [← hq₁.values, Multiset.card_pos_iff_exists_mem]
        exact ⟨u.value, mem_contents.mpr ⟨u, List.mem_cons_self, Multiset.mem_cons_self ..⟩⟩
      refine ⟨hsame.fresh hf₂, ?_⟩
      rw [if_neg (by omega), Queue.nodes, hsame.nodes_eq]
      have : q₂.heap.nodes.card = q₂.nodes := rfl
      omega

/-- The nodes a call leaks: one for a `pop` that leaves elements. -/
def leaked (M : Multiset T) : Call T → Nat
  | .pop => if M.card = 1 then 0 else 1
  | .push _ | .top | .size | .empty => 0

/-- The elements, and the number of nodes leaked so far. -/
def ledger (a : Multiset T × Nat) (c : Call T) : (Multiset T × Nat) × Answer T :=
  (((spec a.1 c).1, a.2 + leaked a.1 c), (spec a.1 c).2)

/-- What holds between the calls: one node for each element and one for each
    leak. -/
structure Accounted (a : Multiset T × Nat) (q : Queue T) : Prop where
  kept : Kept a.1 q
  fresh : Fresh q.heap
  nodes_eq : q.nodes = a.1.card + a.2

theorem accounted_fresh : Accounted (0, 0) (Queue.fresh : Queue T) :=
  ⟨kept_fresh, fun _ _ => rfl, rfl⟩

/-- **ONE CALL KEEPS THE ACCOUNTS**, and answers as the specification does. -/
theorem accounted_call (a : Multiset T × Nat) (q : Queue T) (c : Call T) (hq : Accounted a q)
    (hc : Legal a.1 c ∧ PopFits a.1 c) :
    ∃ q', q.call c = .ok (q', (ledger a c).2) ∧ Accounted (ledger a c).1 q' := by
  obtain ⟨q', hcall, hkept⟩ := kept_call a.1 q c hq.kept hc
  refine ⟨q', hcall, ?_⟩
  obtain ⟨⟨ts, hrep, hfits⟩, hcount⟩ := hq.kept
  have hnodes := hq.nodes_eq
  cases c with
  | push v =>
      obtain ⟨q₁, hpush, hcall⟩ := bind_eq_ok.mp hcall
      cases hcall
      obtain ⟨hf, hnodes'⟩ := push_nodes hq.fresh hpush
      refine ⟨hkept, hf, ?_⟩
      show _ = (v ::ₘ a.1).card + (a.2 + 0)
      rw [Multiset.card_cons]
      omega
  | pop =>
      obtain ⟨q₁, hpop, hcall⟩ := bind_eq_ok.mp hcall
      cases hcall
      obtain ⟨hf, hnodes'⟩ := hrep.pop_nodes hc.1 hcount hfits hq.fresh hpop
      have hcard := card_spec_pop hc.1
      refine ⟨hkept, hf, ?_⟩
      show _ = (spec a.1 .pop).1.card + (a.2 + if a.1.card = 1 then 0 else 1)
      omega
  | top =>
      obtain ⟨v, -, hcall⟩ := bind_eq_ok.mp hcall
      obtain ⟨rfl, -⟩ := Prod.mk.inj (Except.ok.inj hcall)
      exact ⟨hkept, hq.fresh, hnodes⟩
  | size | empty =>
      obtain ⟨rfl, -⟩ := Prod.mk.inj (Except.ok.inj hcall)
      exact ⟨hkept, hq.fresh, hnodes⟩

/-- **EVERY POP LEAKS A NODE.**  After any calls, with no `pop` or `top` on an
    empty queue and no `pop` that leaves `2 ^ 31` elements, there is one live node
    for each element and one for each `pop` that left any. -/
theorem pop_leaks_a_node (cs : List (Call T))
    (hok : Throughout ledger (fun a c => Legal a.1 c ∧ PopFits a.1 c) (0, 0) cs) :
    ∃ q, (Queue.fresh : Queue T).calls cs = .ok (q, (specRun ledger (0, 0) cs).2) ∧
      q.heap.nodes.card =
        (specRun ledger (0, 0) cs).1.1.card + (specRun ledger (0, 0) cs).1.2 := by
  obtain ⟨q, hrun, hq⟩ := run_refines accounted_call accounted_fresh hok
  exact ⟨q, hrun, hq.nodes_eq⟩

/-- Two `pop`s that leave an element: one element, and three nodes. -/
theorem pop_leaks_a_node_of_seven_calls :
    ∃ q, (Queue.fresh : Queue Nat).calls
        [.push 3, .push 1, .pop, .push 2, .pop, .size, .top] =
      .ok (q, [.nothing, .nothing, .nothing, .nothing, .nothing, .number 1, .item 3]) ∧
      q.heap.nodes.card = 1 + 2 :=
  pop_leaks_a_node _ (by decide)

end Calls

end Ordered

end PriorityQueue
