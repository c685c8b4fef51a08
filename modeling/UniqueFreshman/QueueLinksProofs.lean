import UniqueFreshman.PriorityQueueProofs
import UniqueFreshman.LinkedListProofs

/-! # The root list of the priority queue — what each list function does

    `insertRight`, `unlink` and `nodeSwap` write `left` and `right` and nothing
    else.  Each has a lemma here of one form: on a list of live nodes it
    returns the same heap with other links, these links run through the list
    the function is for, and outside of the list no link has changed. -/

namespace PriorityQueue

open LinkedList CallSequence

variable {T : Type}

/-- There is a node at `a`. -/
abbrev Heap.Live (h : Heap T) (a : Addr) : Prop :=
  (h.value a).isSome

/-! ## Evaluation -/

section Evaluation

variable {h : Heap T} {a : Addr}

theorem Heap.live_of_value {v : T} (hv : h.value a = some v) : h.Live a := by
  rw [Heap.Live, hv]
  rfl

/-- A pointer to a node that is there can be read and written; the functions below are cases of
    this. -/
@[simp] theorem deref_some (ha : (h.value a).isSome) : h.deref (some a) = .ok a :=
  if_pos ha

theorem getValue_some {v : T} (hv : h.value a = some v) : h.getValue (some a) = .ok v := by
  simp [Heap.getValue, hv]

@[simp] theorem getLeft_some (ha : (h.value a).isSome) :
    h.getLeft (some a) = .ok (h.left a) := by
  simp [Heap.getLeft, ha]

@[simp] theorem getRight_some (ha : (h.value a).isSome) :
    h.getRight (some a) = .ok (h.right a) := by
  simp [Heap.getRight, ha]

@[simp] theorem getChild_some (ha : (h.value a).isSome) :
    h.getChild (some a) = .ok (h.child a) := by
  simp [Heap.getChild, ha]

@[simp] theorem getParent_some (ha : (h.value a).isSome) :
    h.getParent (some a) = .ok (h.parent a) := by
  simp [Heap.getParent, ha]

@[simp] theorem getDegree_some (ha : (h.value a).isSome) :
    h.getDegree (some a) = .ok (h.degree a) := by
  simp [Heap.getDegree, ha]

/-- A write changes its own field of its own node. -/
@[simp] theorem setValue_some (ha : (h.value a).isSome) (v : T) :
    h.setValue (some a) v = .ok { h with value := Function.update h.value a (some v) } := by
  simp [Heap.setValue, ha]

@[simp] theorem setLeft_some (ha : (h.value a).isSome) (x : Ptr) :
    h.setLeft (some a) x = .ok { h with left := Function.update h.left a x } := by
  simp [Heap.setLeft, ha]

@[simp] theorem setRight_some (ha : (h.value a).isSome) (x : Ptr) :
    h.setRight (some a) x = .ok { h with right := Function.update h.right a x } := by
  simp [Heap.setRight, ha]

@[simp] theorem setParent_some (ha : (h.value a).isSome) (x : Ptr) :
    h.setParent (some a) x = .ok { h with parent := Function.update h.parent a x } := by
  simp [Heap.setParent, ha]

@[simp] theorem setChild_some (ha : (h.value a).isSome) (x : Ptr) :
    h.setChild (some a) x = .ok { h with child := Function.update h.child a x } := by
  simp [Heap.setChild, ha]

/-- A write that is skipped for one node, as a function of the address. -/
theorem update_guarded (f : Addr → Ptr) {skip x : Ptr} (hskip : some a ≠ skip) :
    Function.update f a x = fun y => if some a = some y ∧ some a ≠ skip then x else f y := by
  ext1 y
  simp [Function.update_apply, hskip, eq_comm]

/-- A guarded write, as one function on the addresses. -/
theorem relinkRight_eq {p skip x : Ptr} (hp : ∀ a, p = some a → h.Live a) :
    relinkRight h p skip x =
      .ok { h with right := fun y => if p = some y ∧ p ≠ skip then x else h.right y } := by
  cases p with
  | none => simp [relinkRight]
  | some a =>
      have ha : (h.value a).isSome := hp a rfl
      by_cases hskip : some a = skip
      · simp [relinkRight, hskip]
      · simp only [relinkRight, ne_eq, reduceCtorEq, not_false_eq_true, hskip, and_self,
          if_true, setRight_some ha, update_guarded _ hskip]

theorem relinkLeft_eq {p skip x : Ptr} (hp : ∀ a, p = some a → h.Live a) :
    relinkLeft h p skip x =
      .ok { h with left := fun y => if p = some y ∧ p ≠ skip then x else h.left y } := by
  cases p with
  | none => simp [relinkLeft]
  | some a =>
      have ha : (h.value a).isSome := hp a rfl
      by_cases hskip : some a = skip
      · simp [relinkLeft, hskip]
      · simp only [relinkLeft, ne_eq, reduceCtorEq, not_false_eq_true, hskip, and_self,
          if_true, setLeft_some ha, update_guarded _ hskip]

end Evaluation

/-! ## The list functions -/

section Functions

variable {h : Heap T} {m x : Addr} {as : List Addr}

/-- `insertRight` behind the first root. -/
theorem insertRight_spec (hl : Linked h.left h.right (m :: as)) (hx : x ∉ m :: as)
    (hlive : ∀ a ∈ x :: m :: as, h.Live a) (hxr : h.right x = none) :
    ∃ L R, insertRight h (some m) (some x) = .ok { h with left := L, right := R } ∧
      Linked L R (m :: x :: as) ∧
      ∀ y ∉ x :: m :: as, L y = h.left y ∧ R y = h.right y := by
  obtain ⟨hmL, hmR⟩ := hl.at_head
  have hxm : x ≠ m := fun heq => hx (heq ▸ List.mem_cons_self ..)
  have hvx : (h.value x).isSome := hlive x (by simp)
  have hvm : (h.value m).isSome := hlive m (by simp)
  cases as with
  | nil =>
      refine ⟨Function.update h.left x (some m), Function.update h.right m (some x), ?_, ?_, ?_⟩
      · simp [insertRight, hvx, hvm, hmR]
      · refine hl.insert hx ?_ ?_ ?_ ?_ nofun nofun
        all_goals simp [hxm, hxm.symm, hxr]
      · intro y hy
        simp only [List.mem_cons, List.not_mem_nil, or_false, not_or] at hy
        simp [hy]
  | cons z zs =>
      -- a second root `z` is there, and gets `x` as its left neighbour
      have hvz : (h.value z).isSome := hlive z (by simp)
      have hxz : x ≠ z := fun heq => hx (by simp [heq])
      have hmz : m ≠ z := fun heq => (List.nodup_cons.mp hl.nodup).1 (by simp [heq])
      refine ⟨Function.update (Function.update h.left x (some m)) z (some x),
        Function.update (Function.update h.right x (some z)) m (some x), ?_, ?_, ?_⟩
      · simp [insertRight, hvx, hvm, hvz, hmR, hxm.symm]
      · refine hl.insert hx ?_ ?_ ?_ ?_ ?_ ?_
        · simp [hxz]
        · simp [hxm]
        · simp
        · simp [hmz, hxm.symm]
        · intro y hy
          have hyx : y ≠ x := fun heq => hx (heq ▸ List.mem_cons_of_mem m hy)
          by_cases hyz : y = z
          · simp [hyz]
          · simp [hyz, hyx, Ne.symm hyz]
        · intro y hy
          have hyx : y ≠ x := fun heq => hx (heq ▸ List.mem_cons_of_mem m hy)
          have hym : y ≠ m := fun heq => (List.nodup_cons.mp hl.nodup).1 (heq ▸ hy)
          simp [hyx, hym]
      · intro y hy
        simp only [List.mem_cons, not_or] at hy
        simp [hy]

/-- The two statements that unlink a node. -/
theorem unlink_spec {d : Addr} {xs ys : List Addr}
    (hl : Linked h.left h.right (xs ++ d :: ys)) (hlive : ∀ a ∈ xs ++ d :: ys, h.Live a) :
    ∃ L R, unlink h (some d) = .ok { h with left := L, right := R } ∧
      Linked L R (xs ++ ys) ∧
      ∀ y ∉ xs ++ ys, L y = h.left y ∧ R y = h.right y := by
  obtain ⟨hdL, hdR⟩ := hl.at
  have hvd : (h.value d).isSome := hlive d (by simp)
  have hvx (a : Addr) (ha : xs.getLast? = some a) : h.Live a :=
    hlive a (List.mem_append_left _ (List.mem_of_mem_getLast? ha))
  have hvy (a : Addr) (ha : ys.head? = some a) : h.Live a :=
    hlive a (List.mem_append_right _ (List.mem_cons_of_mem d (List.mem_of_mem_head? ha)))
  have hdx : d ∉ xs := fun hd => (List.nodup_append'.mp hl.nodup).2.2 hd (by simp)
  refine ⟨fun y => if ys.head? = some y then xs.getLast? else h.left y,
    fun y => if xs.getLast? = some y then ys.head? else h.right y, ?_,
    hl.unlink (fun _ _ => rfl) (fun _ _ => rfl), ?_⟩
  · have hpos (o : Ptr) (y : Addr) : (o = some y ∧ o ≠ none) = (o = some y) := by
      cases o <;> simp
    simp only [unlink, getLeft_some, getRight_some, hvd, ok_bind, hdL, hdR,
      relinkRight_eq hvx, hpos, if_neg (getLast?_ne_of_notMem hdx)]
    rw [relinkLeft_eq]
    · simp only [hpos]
    · exact hvy
  · intro y hy
    rw [List.mem_append, not_or] at hy
    exact ⟨if_neg (head?_ne_of_notMem hy.2), if_neg (getLast?_ne_of_notMem hy.1)⟩

/-! ## `nodeSwap`

    Each of the two nodes takes the other's name: a link that led to `a` leads
    to `b` afterwards, and the links of `a` are those `b` had.  The guards and
    branches of the source see to the links that lead from one to the other. -/

section Swap

variable {a b : Addr} {as : List Addr}

/-- One kind of links after the first half, `G` being the links that lead back. -/
def relinked (F G : Addr → Ptr) (a b : Addr) : Addr → Ptr := fun y =>
  if G b = some y ∧ G b ≠ some a then some a
  else if G a = some y ∧ G a ≠ some b then some b
  else F y

/-- One kind of links after the second half. -/
def exchanged (F : Addr → Ptr) (a b : Addr) : Addr → Ptr := fun y =>
  if y = b then (F a).map (Equiv.swap a b)
  else if y = a then (F b).map (Equiv.swap a b)
  else F y

/-- The four guarded writes, each of which finds the links as they were. -/
theorem relinkNeighbours_eq (hva : h.Live a) (hvb : h.Live b)
    (haL : h.left a ≠ some a) (hbL : h.left b ≠ some b)
    (hlive : ∀ c d, c = a ∨ c = b → h.left c = some d ∨ h.right c = some d → h.Live d) :
    relinkNeighbours h (some a) (some b) =
      .ok { h with left := relinked h.left h.right a b, right := relinked h.right h.left a b } := by
  have hskip (p : Ptr) (c : Addr) : ¬(p = some c ∧ p ≠ some c) := fun hp => hp.2 hp.1
  have hself {p : Ptr} {c d : Addr} (hp : p ≠ some c) : ¬(p = some c ∧ p ≠ some d) :=
    fun heq => hp heq.1
  simp only [relinkNeighbours, getLeft_some, hva, ok_bind]
  rw [relinkRight_eq fun d hd => hlive a d (.inl rfl) (.inl hd)]
  simp only [getRight_some, hva, ok_bind, if_neg (hself haL)]
  rw [relinkLeft_eq]; swap
  · exact fun d hd => hlive a d (.inl rfl) (.inr hd)
  simp only [getLeft_some, hvb, ok_bind, if_neg (hskip _ b)]
  rw [relinkRight_eq]; swap
  · exact fun d hd => hlive b d (.inr rfl) (.inl hd)
  simp only [getRight_some, hvb, ok_bind, if_neg (hself hbL), if_neg (hskip _ b)]
  rw [relinkLeft_eq]; swap
  · exact fun d hd => hlive b d (.inr rfl) (.inr hd)
  rfl

/-- Two writes, as a function of the address. -/
theorem update_update (f : Addr → Ptr) (x y : Ptr) :
    Function.update (Function.update f a x) b y =
      fun c => if c = b then y else if c = a then x else f c := by
  ext1 c
  simp only [Function.update_apply]

/-- A link to neither of the nodes is not renamed. -/
theorem map_swap_of_ne {p : Ptr} (ha : p ≠ some a) (hb : p ≠ some b) :
    p.map (Equiv.swap a b) = p := by
  cases p with
  | none => rfl
  | some c =>
      rw [Option.map_some, Equiv.swap_apply_of_ne_of_ne (fun heq => ha (congrArg some heq))
        fun heq => hb (congrArg some heq)]

/-- What the two nodes are to each other, in a list that has both. -/
structure Neighbours (h : Heap T) (a b : Addr) : Prop where
  left_self : h.left a ≠ some a ∧ h.left b ≠ some b
  right_self : h.right a ≠ some a ∧ h.right b ≠ some b
  behind : h.left a = some b ↔ h.right b = some a
  front : h.right a = some b ↔ h.left b = some a
  either : h.left a = some b → h.right a ≠ some b

/-- Nodes of one list are neighbours in both directions or in none. -/
theorem neighbours_of_linked (hl : Linked h.left h.right as) (ha : a ∈ as) (hb : b ∈ as) :
    Neighbours h a b where
  left_self := ⟨hl.left_ne_self ha, hl.left_ne_self hb⟩
  right_self := ⟨hl.right_ne_self ha, hl.right_ne_self hb⟩
  behind := ⟨hl.forth ha, hl.back hb⟩
  front := ⟨hl.back ha, hl.forth hb⟩
  either := hl.right_ne_left ha

/-- The three branches, all of them a renaming. -/
theorem exchangeLinks_eq (hn : Neighbours h a b) (hva : h.Live a) (hvb : h.Live b) :
    exchangeLinks h (some a) (some b) =
      .ok { h with left := exchanged h.left a b, right := exchanged h.right a b } := by
  obtain ⟨⟨haL, hbL⟩, ⟨haR, hbR⟩, hbehind, hfront, heither⟩ := hn
  unfold exchanged
  simp only [exchangeLinks, getLeft_some, hva, ok_bind]
  by_cases hL : h.left a = some b
  · -- `b` is right in front of `a`
    have hRa : h.right a ≠ some b := heither hL
    have hLb : h.left b ≠ some a := fun heq => hRa (hfront.mpr heq)
    rw [if_pos ⟨hL ▸ Option.some_ne_none b, hL⟩, hbehind.mp hL, hL, map_swap_of_ne haR hRa,
      map_swap_of_ne hLb hbL]
    simp [hva, hvb, update_update]
  · rw [if_neg fun hne => hL hne.2]
    simp only [getRight_some, hva, ok_bind]
    have hRb : h.right b ≠ some a := fun heq => hL (hbehind.mpr heq)
    by_cases hR : h.right a = some b
    · -- `b` is right behind `a`, and its links are written first
      have hab : a ≠ b := fun heq => haR (heq ▸ hR)
      have hcomm (f : Addr → Ptr) (x y : Ptr) := Function.update_comm hab x y f
      rw [if_pos ⟨hR ▸ Option.some_ne_none b, hR⟩, hfront.mp hR, hR, map_swap_of_ne haL hL,
        map_swap_of_ne hRb hbR]
      simp [hva, hvb, ← hcomm, update_update]
    · -- apart, or the same node: the two `std::swap`s
      have hLb : h.left b ≠ some a := fun heq => hR (hfront.mpr heq)
      rw [if_neg fun hne => hR hne.2, map_swap_of_ne haL hL, map_swap_of_ne hLb hbL,
        map_swap_of_ne haR hR, map_swap_of_ne hRb hbR]
      simp [swapLeft, swapRight, hva, hvb, update_update]

section Links

variable {F G : Addr → Ptr}

/-- The first half does not write the two nodes' own links. -/
theorem relinked_self (hl : Linked F G as) (ha : a ∈ as) (hb : b ∈ as) :
    relinked F G a b a = F a ∧ relinked F G a b b = F b := by
  have ha' := hl.right_ne_self ha
  have hb' := hl.right_ne_self hb
  constructor
  · rw [relinked, if_neg fun hp => hp.2 hp.1, if_neg fun hp => ha' hp.1]
  · rw [relinked, if_neg fun hp => hb' hp.1, if_neg fun hp => hp.2 hp.1]

/-- **THE LINKS ARE RENAMED**, inside the list. -/
theorem exchanged_relinked (hl : Linked F G as) (ha : a ∈ as) (hb : b ∈ as) :
    (∀ c ∈ as, exchanged (relinked F G a b) a b (Equiv.swap a b c) =
      (F c).map (Equiv.swap a b)) ∧
    ∀ c ∉ as, exchanged (relinked F G a b) a b c = F c := by
  obtain ⟨hFa, hFb⟩ := relinked_self hl ha hb
  constructor
  · intro c hc
    by_cases hca : c = a
    · rw [hca, Equiv.swap_apply_left, exchanged, if_pos rfl, hFa]
    by_cases hcb : c = b
    · rw [hcb, Equiv.swap_apply_right, exchanged, if_neg (hcb ▸ Ne.symm hca), if_pos rfl, hFb]
    rw [Equiv.swap_apply_of_ne_of_ne hca hcb, exchanged, if_neg hcb, if_neg hca, relinked]
    -- a neighbour of one node links back to it
    split
    · next hGb => rw [hl.back hb hGb.1, Option.map_some, Equiv.swap_apply_right]
    · next hGb =>
        split
        · next hGa => rw [hl.back ha hGa.1, Option.map_some, Equiv.swap_apply_left]
        · next hGa =>
            refine (map_swap_of_ne (fun heq => hGa ?_) fun heq => hGb ?_).symm
            · have hG := hl.forth hc heq
              exact ⟨hG, hG ▸ fun heq => hcb (Option.some.inj heq)⟩
            · have hG := hl.forth hc heq
              exact ⟨hG, hG ▸ fun heq => hca (Option.some.inj heq)⟩
  · intro c hc
    have hca : c ≠ a := fun heq => hc (heq ▸ ha)
    have hcb : c ≠ b := fun heq => hc (heq ▸ hb)
    rw [exchanged, if_neg hcb, if_neg hca, relinked, if_neg fun hp => hc (hl.right_mem hb hp.1),
      if_neg fun hp => hc (hl.right_mem ha hp.1)]

end Links

/-- **NODESWAP RENAMES** the two nodes in the list they are in, whatever their places. -/
theorem nodeSwap_eq (hl : Linked h.left h.right as) (hlive : ∀ c ∈ as, h.Live c)
    (ha : a ∈ as) (hb : b ∈ as) :
    nodeSwap h (some a) (some b) = .ok { h with
      left := exchanged (relinked h.left h.right a b) a b
      right := exchanged (relinked h.right h.left a b) a b } := by
  have hn := neighbours_of_linked hl ha hb
  have hva := hlive a ha
  have hvb := hlive b hb
  have hrelink := relinkNeighbours_eq hva hvb hn.left_self.1 hn.left_self.2 fun c d hc hd => by
    have hcs : c ∈ as := hc.elim (fun heq => heq ▸ ha) fun heq => heq ▸ hb
    exact hlive d (hd.elim (hl.left_mem hcs) (hl.right_mem hcs))
  obtain ⟨hLa, hLb⟩ := relinked_self hl ha hb
  obtain ⟨hRa, hRb⟩ := relinked_self hl.reverse (List.mem_reverse.mpr ha) (List.mem_reverse.mpr hb)
  have hn' : Neighbours { h with left := relinked h.left h.right a b,
                                 right := relinked h.right h.left a b } a b := by
    obtain ⟨hleft, hright, hbehind, hfront, heither⟩ := hn
    constructor
    all_goals simp only [hLa, hLb, hRa, hRb]
    all_goals assumption
  rw [nodeSwap, hrelink]
  exact exchangeLinks_eq hn' hva hvb

/-- The list, the exchange and the frame. -/
theorem nodeSwap_linked (hl : Linked h.left h.right as) (hlive : ∀ c ∈ as, h.Live c)
    (ha : a ∈ as) (hb : b ∈ as) :
    ∃ L R, nodeSwap h (some a) (some b) = .ok { h with left := L, right := R } ∧
      Linked L R (as.map (Equiv.swap a b)) ∧
      ∀ c ∉ as, L c = h.left c ∧ R c = h.right c := by
  obtain ⟨hL, hLframe⟩ := exchanged_relinked hl ha hb
  obtain ⟨hR, hRframe⟩ :=
    exchanged_relinked hl.reverse (List.mem_reverse.mpr ha) (List.mem_reverse.mpr hb)
  simp only [List.mem_reverse] at hR hRframe
  exact ⟨_, _, nodeSwap_eq hl hlive ha hb, hl.rename hL hR,
    fun c hc => ⟨hLframe c hc, hRframe c hc⟩⟩

/-- Two roots, the first in front of the second. -/
theorem nodeSwap_spec {xs ys zs : List Addr}
    (hl : Linked h.left h.right (xs ++ a :: (ys ++ b :: zs)))
    (hlive : ∀ c ∈ xs ++ a :: (ys ++ b :: zs), h.Live c) :
    ∃ L R, nodeSwap h (some a) (some b) = .ok { h with left := L, right := R } ∧
      Linked L R (xs ++ b :: (ys ++ a :: zs)) ∧
      ∀ y ∉ xs ++ a :: (ys ++ b :: zs), L y = h.left y ∧ R y = h.right y := by
  obtain ⟨L, R, hswap, hl', hframe⟩ := nodeSwap_linked hl hlive
    (by simp : a ∈ xs ++ a :: (ys ++ b :: zs)) (by simp : b ∈ xs ++ a :: (ys ++ b :: zs))
  rw [map_swap hl.nodup] at hl'
  exact ⟨L, R, hswap, hl', hframe⟩

/-- A root with itself. -/
theorem nodeSwap_self (hl : Linked h.left h.right as) (hlive : ∀ c ∈ as, h.Live c)
    (ha : a ∈ as) : nodeSwap h (some a) (some a) = .ok h := by
  have hid (F G : Addr → Ptr) (as : List Addr) (hl : Linked F G as) (ha : a ∈ as) :
      exchanged (relinked F G a a) a a = F := by
    obtain ⟨hF, hframe⟩ := exchanged_relinked hl ha ha
    ext1 c
    by_cases hc : c ∈ as
    · have hFc := hF c hc
      rw [Equiv.swap_self] at hFc
      exact hFc.trans (Option.map_id_apply ..)
    · exact hframe c hc
  rw [nodeSwap_eq hl hlive ha ha, hid _ _ _ hl ha,
    hid _ _ _ hl.reverse (List.mem_reverse.mpr ha)]

/-- **NODESWAP EXCHANGES TWO POSITIONS.**  In every list of live nodes, `nodeSwap` of two of
    its nodes, the same or not, adjacent or apart, at an end or not, returns the heap with
    other links.  They run through a list of the same nodes, in which `a` and `b` have each
    other's positions and every other node its own. -/
theorem nodeSwap_exchanges_positions (h : Heap T) (as : List Addr) (a b : Addr)
    (hl : Linked h.left h.right as) (hlive : ∀ c ∈ as, h.Live c) (ha : a ∈ as) (hb : b ∈ as) :
    ∃ L R bs, nodeSwap h (some a) (some b) = .ok { h with left := L, right := R } ∧
      Linked L R bs ∧ bs.Perm as ∧
      (∀ (i : Nat) c, as[i]? = some c →
        bs[i]? = some (if c = a then b else if c = b then a else c)) ∧
      ∀ c ∉ as, L c = h.left c ∧ R c = h.right c := by
  obtain ⟨L, R, hswap, hl', hframe⟩ := nodeSwap_linked hl hlive ha hb
  have hsub : as.map (Equiv.swap a b) ⊆ as := by
    intro c hc
    obtain ⟨d, hd, rfl⟩ := List.mem_map.mp hc
    rw [Equiv.swap_apply_def]
    split
    · exact hb
    · split
      · exact ha
      · exact hd
  have hperm : (as.map (Equiv.swap a b)).Perm as :=
    (hl'.nodup.subperm hsub).perm_of_length_le (by rw [List.length_map])
  refine ⟨L, R, _, hswap, hl', hperm, fun i c hc => ?_, hframe⟩
  rw [List.getElem?_map, hc, Option.map_some, Equiv.swap_apply_def]

/-- Three nodes in a row. -/
def threeNodes : Heap Nat where
  value c := if c < 3 then some c else none
  degree _ := 1
  left c := if c = 1 then some 0 else if c = 2 then some 1 else none
  right c := if c = 0 then some 1 else if c = 1 then some 2 else none
  parent _ := none
  child _ := none
  next := 3

/-- The last of three nodes and the one in front of it. -/
theorem nodeSwap_exchanges_positions_of_three :
    Linked threeNodes.left threeNodes.right [0, 1, 2] ∧
    ∃ L R bs, nodeSwap threeNodes (some 2) (some 1) =
        .ok { threeNodes with left := L, right := R } ∧
      Linked L R bs ∧ bs.Perm [0, 1, 2] ∧
      (∀ (i : Nat) c, [0, 1, 2][i]? = some c →
        bs[i]? = some (if c = 2 then 1 else if c = 1 then 2 else c)) ∧
      ∀ c ∉ [0, 1, 2], L c = threeNodes.left c ∧ R c = threeNodes.right c := by
  have hl : Linked threeNodes.left threeNodes.right [0, 1, 2] :=
    ⟨by decide, rfl, rfl, rfl, rfl, rfl, rfl, trivial⟩
  exact ⟨hl, nodeSwap_exchanges_positions threeNodes [0, 1, 2] 2 1 hl (by decide) (by decide)
    (by decide)⟩

end Swap

end Functions

end PriorityQueue
