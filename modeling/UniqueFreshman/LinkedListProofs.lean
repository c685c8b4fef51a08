import Mathlib.Data.List.Basic
import Mathlib.Data.List.Nodup
import Mathlib.Logic.Equiv.Basic

/-! # Doubly linked lists — left and right links as functions

    The links of a doubly linked list are two functions `L R : A → Option A`
    on addresses.  `Seg L R p xs n` says that they run through the addresses
    `xs` in order, from the neighbour `p` on the left to the neighbour `n` on
    the right; `Linked L R xs` is a whole list, with null ends and no address
    twice.

    An operation on the list is described by what the links are afterwards, one
    equation for each address, and the lemmas here say which list that is.
    Insertion and removal go through `Seg.relink`: a segment may get new
    neighbours at its two ends if its inner links stay.  An exchange of nodes is
    a renaming (`Linked.rename`). -/

namespace LinkedList

variable {A : Type} {L R L' R' : A → Option A} {p n p' n' : Option A} {xs ys zs : List A}

/-- The links run through `xs`, between the neighbours `p` and `n`. -/
def Seg (L R : A → Option A) : Option A → List A → Option A → Prop
  | _, [], _ => True
  | p, x :: xs, n => L x = p ∧ R x = xs.head?.or n ∧ Seg L R (some x) xs n

/-- A segment can be cut anywhere, and put together again. -/
theorem seg_append :
    Seg L R p (xs ++ ys) n ↔
      Seg L R p xs (ys.head?.or n) ∧ Seg L R (xs.getLast?.or p) ys n := by
  induction xs generalizing p with
  | nil => simp [Seg]
  | cons x xs ih =>
      have hlast : (x :: xs).getLast?.or p = xs.getLast?.or (some x) := by
        rw [List.getLast?_cons]
        cases xs.getLast? <;> rfl
      show L x = p ∧ R x = (xs ++ ys).head?.or n ∧ Seg L R (some x) (xs ++ ys) n ↔
        (L x = p ∧ R x = xs.head?.or (ys.head?.or n) ∧ Seg L R (some x) xs _) ∧ _
      rw [ih, hlast, List.head?_append, Option.or_assoc]
      tauto

/-- **NEW NEIGHBOURS.**  The inner links stay, the outer two are set. -/
theorem Seg.relink (h : Seg L R p xs n) (hL : ∀ x ∈ xs.tail, L' x = L x)
    (hR : ∀ x ∈ xs.dropLast, R' x = R x) (hp : ∀ x, xs.head? = some x → L' x = p')
    (hn : ∀ x, xs.getLast? = some x → R' x = n') : Seg L' R' p' xs n' := by
  induction xs generalizing p p' with
  | nil => trivial
  | cons x xs ih =>
      obtain ⟨-, hRx, hseg⟩ := h
      cases xs with
      | nil => exact ⟨hp x rfl, hn x rfl, trivial⟩
      | cons y ys =>
          refine ⟨hp x rfl, (hR x (List.mem_cons_self ..)).trans hRx, ?_⟩
          refine ih hseg (fun z hz => hL z (List.mem_cons_of_mem y hz))
            (fun z hz => hR z (List.mem_cons_of_mem x hz)) ?_ hn
          rintro z hz
          obtain rfl : y = z := Option.some.inj hz
          exact (hL y (List.mem_cons_self ..)).trans hseg.1

/-- The first node points to what is in front of the segment. -/
theorem Seg.left_head (h : Seg L R p xs n) : ∀ x, xs.head? = some x → L x = p := by
  cases xs with
  | nil => nofun
  | cons x xs =>
      rintro y hy
      obtain rfl : x = y := Option.some.inj hy
      exact h.1

/-- The last node points to what is behind it. -/
theorem Seg.right_last (h : Seg L R p xs n) : ∀ x, xs.getLast? = some x → R x = n := by
  rcases List.eq_nil_or_concat' xs with rfl | ⟨ys, y, rfl⟩
  · nofun
  · rintro x hx
    obtain rfl : y = x := by simpa using hx
    obtain ⟨-, -, hy, -⟩ := seg_append.mp h
    exact hy

/-- A doubly linked list with null ends. -/
structure Linked (L R : A → Option A) (xs : List A) : Prop where
  nodup : xs.Nodup
  seg : Seg L R none xs none

theorem Linked.nil : Linked L R [] :=
  ⟨List.nodup_nil, trivial⟩

/-- The links of one node. -/
theorem Linked.at {x : A} (h : Linked L R (xs ++ x :: ys)) :
    L x = xs.getLast? ∧ R x = ys.head? := by
  obtain ⟨-, hL, hR, -⟩ := seg_append.mp h.seg
  rw [Option.or_none] at hL hR
  exact ⟨hL, hR⟩

/-- The first node has nothing to its left. -/
theorem Linked.at_head {x : A} (h : Linked L R (x :: xs)) : L x = none ∧ R x = xs.head? := by
  obtain ⟨hL, hR, -⟩ := h.seg
  exact ⟨hL, hR.trans (Option.or_none ..)⟩

/-- The right neighbour of a node links back to it. -/
theorem Linked.back {x y : A} (h : Linked L R xs) (hx : x ∈ xs) (hy : R x = some y) :
    L y = some x := by
  obtain ⟨ys, zs, rfl⟩ := List.append_of_mem hx
  rw [h.at.2] at hy
  cases zs with
  | nil => nomatch hy
  | cons z zs =>
      obtain rfl : z = y := Option.some.inj hy
      have hz : Linked L R ((ys ++ [x]) ++ z :: zs) := by
        rw [List.append_assoc]
        exact h
      rw [hz.at.1, List.getLast?_concat]

/-- The links in the other direction. -/
theorem Seg.reverse (h : Seg L R p xs n) : Seg R L n xs.reverse p := by
  induction xs generalizing p with
  | nil => trivial
  | cons x xs ih =>
      obtain ⟨hx, hnext, hrest⟩ := h
      rw [List.reverse_cons]
      refine seg_append.mpr ⟨ih hrest, ?_, hx, trivial⟩
      rw [hnext, List.getLast?_reverse]

/-- A list read from the right is a list with the links exchanged. -/
theorem Linked.reverse (h : Linked L R xs) : Linked R L xs.reverse :=
  ⟨List.nodup_reverse.mpr h.nodup, h.seg.reverse⟩

/-- The left neighbour of a node links forth to it. -/
theorem Linked.forth {x y : A} (h : Linked L R xs) (hx : x ∈ xs) (hy : L x = some y) :
    R y = some x :=
  h.reverse.back (List.mem_reverse.mpr hx) hy

/-- The links do not lead out of the list. -/
theorem Linked.right_mem {x y : A} (h : Linked L R xs) (hx : x ∈ xs) (hy : R x = some y) :
    y ∈ xs := by
  obtain ⟨ys, zs, rfl⟩ := List.append_of_mem hx
  rw [h.at.2] at hy
  exact List.mem_append_right ys (List.mem_cons_of_mem x (List.mem_of_mem_head? hy))

theorem Linked.left_mem {x y : A} (h : Linked L R xs) (hx : x ∈ xs) (hy : L x = some y) :
    y ∈ xs :=
  List.mem_reverse.mp (h.reverse.right_mem (List.mem_reverse.mpr hx) hy)

/-- No node is its own neighbour. -/
theorem Linked.right_ne_self {x : A} (h : Linked L R xs) (hx : x ∈ xs) : R x ≠ some x := by
  obtain ⟨ys, zs, rfl⟩ := List.append_of_mem hx
  rw [h.at.2]
  intro heq
  obtain ⟨hz, -⟩ := List.nodup_cons.mp (List.nodup_append'.mp h.nodup).2.1
  exact hz (List.mem_of_mem_head? heq)

theorem Linked.left_ne_self {x : A} (h : Linked L R xs) (hx : x ∈ xs) : L x ≠ some x :=
  h.reverse.right_ne_self (List.mem_reverse.mpr hx)

/-- No node is another's neighbour on both sides. -/
theorem Linked.right_ne_left {x y : A} (h : Linked L R xs) (hx : x ∈ xs) (hL : L x = some y) :
    R x ≠ some y := by
  obtain ⟨ys, zs, rfl⟩ := List.append_of_mem hx
  rw [h.at.1] at hL
  rw [h.at.2]
  intro hR
  exact (List.nodup_append'.mp h.nodup).2.2 (List.mem_of_mem_getLast? hL)
    (List.mem_cons_of_mem x (List.mem_of_mem_head? hR))

/-- Only the links of its own nodes matter for a list. -/
theorem Linked.congr (h : Linked L R xs) (hL : ∀ x ∈ xs, L' x = L x)
    (hR : ∀ x ∈ xs, R' x = R x) : Linked L' R' xs := by
  refine ⟨h.nodup, h.seg.relink (fun x hx => hL x (List.mem_of_mem_tail hx))
    (fun x hx => hR x (List.dropLast_subset xs hx)) (fun x hx => ?_) fun x hx => ?_⟩
  · exact (hL x (List.mem_of_mem_head? hx)).trans (h.seg.left_head x hx)
  · exact (hR x (List.mem_of_mem_getLast? hx)).trans (h.seg.right_last x hx)

/-- The right links run through `xs` to a null end. -/
def Trail (R : A → Option A) : List A → Prop
  | [] => True
  | x :: xs => R x = xs.head? ∧ Trail R xs

theorem Trail.congr (h : Trail R xs) (hR : ∀ x ∈ xs, R' x = R x) : Trail R' xs := by
  induction xs with
  | nil => trivial
  | cons x xs ih =>
      exact ⟨(hR x (List.mem_cons_self ..)).trans h.1,
        ih h.2 fun y hy => hR y (List.mem_cons_of_mem x hy)⟩

/-- Whoever follows the right links meets the nodes in order. -/
theorem Seg.trail (h : Seg L R p xs none) : Trail R xs := by
  induction xs generalizing p with
  | nil => trivial
  | cons x xs ih => exact ⟨h.2.1.trans (Option.or_none ..), ih h.2.2⟩

theorem head?_ne_of_notMem {x : A} (hx : x ∉ xs) : xs.head? ≠ some x :=
  fun heq => hx (List.mem_of_mem_head? heq)

theorem getLast?_ne_of_notMem {x : A} (hx : x ∉ xs) : xs.getLast? ≠ some x :=
  fun heq => hx (List.mem_of_mem_getLast? heq)

/-- The first node is not in the tail. -/
theorem head?_ne_of_mem_tail {x : A} (h : xs.Nodup) (hx : x ∈ xs.tail) :
    xs.head? ≠ some x := by
  cases xs with
  | nil => nomatch hx
  | cons y ys =>
      rintro heq
      obtain rfl : y = x := Option.some.inj heq
      exact (List.nodup_cons.mp h).1 hx

/-- The last node is not before the end. -/
theorem getLast?_ne_of_mem_dropLast {x : A} (h : xs.Nodup) (hx : x ∈ xs.dropLast) :
    xs.getLast? ≠ some x := by
  rcases List.eq_nil_or_concat' xs with rfl | ⟨ys, y, rfl⟩
  · nomatch hx
  · rw [List.dropLast_concat] at hx
    rw [List.getLast?_concat]
    rintro heq
    obtain rfl : y = x := Option.some.inj heq
    exact (List.disjoint_of_nodup_append h) hx (List.mem_singleton_self y)

/-! ## Operations -/

section Operations

variable [DecidableEq A]

/-- **REMOVAL.**  The neighbours of `d` are linked to each other. -/
theorem Linked.unlink {d : A} (h : Linked L R (xs ++ d :: ys))
    (hL : ∀ y ∈ xs ++ ys, L' y = if ys.head? = some y then xs.getLast? else L y)
    (hR : ∀ y ∈ xs ++ ys, R' y = if xs.getLast? = some y then ys.head? else R y) :
    Linked L' R' (xs ++ ys) := by
  obtain ⟨hsx, -, -, hsy⟩ := seg_append.mp h.seg
  have hnd : (xs ++ ys).Nodup :=
    h.nodup.sublist ((List.sublist_cons_self d ys).append_left xs)
  obtain ⟨hndx, hndy, hdisj⟩ := List.nodup_append'.mp hnd
  have hLx (y : A) (hy : y ∈ xs) : L' y = L y := by
    rw [hL y (List.mem_append_left ys hy), if_neg (head?_ne_of_notMem (hdisj hy))]
  have hRy (y : A) (hy : y ∈ ys) : R' y = R y := by
    rw [hR y (List.mem_append_right xs hy),
      if_neg (getLast?_ne_of_notMem fun h => hdisj h hy)]
  refine ⟨hnd, seg_append.mpr ⟨hsx.relink ?_ ?_ ?_ ?_, hsy.relink ?_ ?_ ?_ ?_⟩⟩
  · exact fun y hy => hLx y (List.mem_of_mem_tail hy)
  · intro y hy
    rw [hR y (List.mem_append_left ys (List.dropLast_subset _ hy)),
      if_neg (getLast?_ne_of_mem_dropLast hndx hy)]
  · exact fun y hy => (hLx y (List.mem_of_mem_head? hy)).trans (hsx.left_head y hy)
  · intro y hy
    rw [hR y (List.mem_append_left ys (List.mem_of_mem_getLast? hy)), if_pos hy,
      Option.or_none]
  · intro y hy
    rw [hL y (List.mem_append_right xs (List.mem_of_mem_tail hy)),
      if_neg (head?_ne_of_mem_tail hndy hy)]
  · exact fun y hy => hRy y (List.dropLast_subset _ hy)
  · intro y hy
    rw [hL y (List.mem_append_right xs (List.mem_of_mem_head? hy)), if_pos hy,
      Option.or_none]
  · exact fun y hy => (hRy y (List.mem_of_mem_getLast? hy)).trans (hsy.right_last y hy)

/-- **INSERTION** behind the first node. -/
theorem Linked.insert {m x : A} (h : Linked L R (m :: ys)) (hx : x ∉ m :: ys)
    (hxL : L' x = some m) (hxR : R' x = ys.head?) (hmR : R' m = some x)
    (hmL : L' m = L m)
    (hL : ∀ y ∈ ys, L' y = if ys.head? = some y then some x else L y)
    (hR : ∀ y ∈ ys, R' y = R y) : Linked L' R' (m :: x :: ys) := by
  obtain ⟨hm, -, hsy⟩ := h.seg
  obtain ⟨hmy, hndy⟩ := List.nodup_cons.mp h.nodup
  obtain ⟨hxm, hxy⟩ := not_or.mp (mt List.mem_cons.mpr hx)
  have hnd : (m :: x :: ys).Nodup :=
    List.nodup_cons.mpr ⟨fun hmem => (List.mem_cons.mp hmem).elim (Ne.symm hxm) hmy,
      List.nodup_cons.mpr ⟨hxy, hndy⟩⟩
  refine ⟨hnd, hmL.trans hm, hmR, hxL, hxR.trans (Option.or_none ..).symm, ?_⟩
  refine hsy.relink (fun y hy => ?_) (fun y hy => hR y (List.dropLast_subset _ hy))
    (fun y hy => ?_) fun y hy => ?_
  · rw [hL y (List.mem_of_mem_tail hy), if_neg (head?_ne_of_mem_tail hndy hy)]
  · rw [hL y (List.mem_of_mem_head? hy), if_pos hy]
  · exact (hR y (List.mem_of_mem_getLast? hy)).trans (hsy.right_last y hy)

omit [DecidableEq A] in
/-- Exchanging two nodes loses none. -/
theorem perm_exchange (a b : A) (ys zs : List A) :
    (a :: (ys ++ b :: zs)).Perm (b :: (ys ++ a :: zs)) :=
  (List.perm_middle.cons a).trans
    ((List.Perm.swap b a (ys ++ zs)).trans (List.perm_middle.symm.cons b))

end Operations

/-! ## Renaming

    A list whose nodes go by other names.  Two nodes of a list exchange their
    places when each takes the other's name (`Equiv.swap`). -/

section Renaming

variable {σ : Equiv.Perm A}

/-- A renaming of the nodes that the links follow. -/
theorem Seg.rename (h : Seg L R p xs n) (hL : ∀ x ∈ xs, L' (σ x) = (L x).map σ)
    (hR : ∀ x ∈ xs, R' (σ x) = (R x).map σ) : Seg L' R' (p.map σ) (xs.map σ) (n.map σ) := by
  induction xs generalizing p with
  | nil => trivial
  | cons x xs ih =>
      obtain ⟨hx, hnext, hrest⟩ := h
      refine ⟨?_, ?_, ih hrest (fun y hy => hL y (List.mem_cons_of_mem x hy))
        fun y hy => hR y (List.mem_cons_of_mem x hy)⟩
      · rw [hL x List.mem_cons_self, hx]
      · rw [hR x List.mem_cons_self, hnext, List.head?_map]
        cases xs.head? <;> rfl

/-- **NEW NAMES.**  Links that follow the old ones run through the renamed list. -/
theorem Linked.rename (h : Linked L R xs) (hL : ∀ x ∈ xs, L' (σ x) = (L x).map σ)
    (hR : ∀ x ∈ xs, R' (σ x) = (R x).map σ) : Linked L' R' (xs.map σ) :=
  ⟨h.nodup.map σ.injective, h.seg.rename hL hR⟩

variable [DecidableEq A] {a b : A}

/-- The places of two nodes, one in front of the other. -/
theorem map_swap (h : (xs ++ a :: (ys ++ b :: zs)).Nodup) :
    (xs ++ a :: (ys ++ b :: zs)).map (Equiv.swap a b) = xs ++ b :: (ys ++ a :: zs) := by
  have hstay {ws : List A} (ha : a ∉ ws) (hb : b ∉ ws) : ws.map (Equiv.swap a b) = ws := by
    refine (List.map_congr_left fun w hw => ?_).trans (List.map_id ws)
    exact Equiv.swap_apply_of_ne_of_ne (fun heq => ha (heq ▸ hw)) fun heq => hb (heq ▸ hw)
  obtain ⟨-, hrest, hx⟩ := List.nodup_append'.mp h
  obtain ⟨har, hrest⟩ := List.nodup_cons.mp hrest
  obtain ⟨-, hbz, hyb⟩ := List.nodup_append'.mp hrest
  simp only [List.mem_append, List.mem_cons, not_or] at har
  rw [List.map_append, List.map_cons, List.map_append, List.map_cons, Equiv.swap_apply_left,
    Equiv.swap_apply_right, hstay (fun hmem => hx hmem (by simp)) fun hmem => hx hmem (by simp),
    hstay har.1 fun hmem => hyb hmem (by simp), hstay har.2.2 (List.nodup_cons.mp hbz).1]

end Renaming

end LinkedList
