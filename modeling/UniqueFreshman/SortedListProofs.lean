import Mathlib.Data.Finset.Card
import Mathlib.Data.Finset.Dedup
import Mathlib.Data.List.Basic
import Mathlib.Data.List.Nodup
import Mathlib.Order.Defs.LinearOrder

/-! # Strictly sorted lists — the in-order contents of a search tree

    A search tree is, for its users, the strictly sorted list of its values.
    This file has the two updates of such a list (`ins` puts a value in unless
    it is there, `List.erase` takes it out), how they act on a list that is
    split at a pivot `l ++ x :: r`, and what they are as operations on finite
    sets. -/

namespace SortedList

variable {α : Type} [LinearOrder α]

/-- Strictly sorted. -/
def StrictSorted (l : List α) : Prop :=
  l.Pairwise (· < ·)

/-- Put `a` at its place, unless it is there. -/
def ins (a : α) : List α → List α
  | [] => [a]
  | x :: xs => if a < x then a :: x :: xs else if a = x then x :: xs else x :: ins a xs

/-! ## Splitting at a pivot -/

/-- A list is sorted around any of its entries. -/
theorem strictSorted_split {l r : List α} {x : α} :
    StrictSorted (l ++ x :: r) ↔
      StrictSorted l ∧ StrictSorted r ∧ (∀ y ∈ l, y < x) ∧ ∀ y ∈ r, x < y := by
  rw [StrictSorted, List.pairwise_append, List.pairwise_cons]
  constructor
  · rintro ⟨hl, ⟨hx, hr⟩, hcross⟩
    exact ⟨hl, hr, fun y hy => hcross y hy x (List.mem_cons_self ..), hx⟩
  · rintro ⟨hl, hr, hlx, hxr⟩
    refine ⟨hl, ⟨hxr, hr⟩, fun y hy z hz => ?_⟩
    rcases List.mem_cons.mp hz with rfl | hz
    · exact hlx y hy
    · exact lt_trans (hlx y hy) (hxr z hz)

/-- A smaller entry is inserted to the left of the pivot. -/
theorem ins_append_of_lt {a x : α} (h : a < x) (l r : List α) :
    ins a (l ++ x :: r) = ins a l ++ x :: r := by
  induction l with
  | nil => simp [ins, h]
  | cons y l ih =>
      show (if a < y then _ else if a = y then _ else y :: ins a (l ++ x :: r)) =
        (if a < y then _ else if a = y then _ else y :: ins a l) ++ x :: r
      rw [ih]
      split
      · rfl
      · split <;> rfl

/-- A larger entry is inserted to the right of the pivot. -/
theorem ins_append_of_gt {a x : α} {l : List α} (hx : x < a) (hl : ∀ y ∈ l, y < a)
    (r : List α) : ins a (l ++ x :: r) = l ++ x :: ins a r := by
  induction l with
  | nil => simp [ins, not_lt_of_gt hx, ne_of_gt hx]
  | cons y l ih =>
      have hy : y < a := hl y (List.mem_cons_self ..)
      have ih' := ih fun z hz => hl z (List.mem_cons_of_mem y hz)
      show (if a < y then _ else if a = y then _ else y :: ins a (l ++ x :: r)) = _
      rw [if_neg (not_lt_of_gt hy), if_neg (ne_of_gt hy), ih']
      rfl

/-- An entry that is there already changes nothing. -/
theorem ins_append_self {x : α} {l : List α} (hl : ∀ y ∈ l, y < x) (r : List α) :
    ins x (l ++ x :: r) = l ++ x :: r := by
  induction l with
  | nil => simp [ins]
  | cons y l ih =>
      have hy : y < x := hl y (List.mem_cons_self ..)
      have ih' := ih fun z hz => hl z (List.mem_cons_of_mem y hz)
      show (if x < y then _ else if x = y then _ else y :: ins x (l ++ x :: r)) = _
      rw [if_neg (not_lt_of_gt hy), if_neg (ne_of_gt hy), ih']
      rfl

/-- A value below the pivot is looked for on its left. -/
theorem mem_left_of_lt {a x : α} {l r : List α} (hs : StrictSorted (l ++ x :: r))
    (h : a < x) : a ∈ l ++ x :: r ↔ a ∈ l := by
  obtain ⟨-, -, -, hr⟩ := strictSorted_split.mp hs
  constructor
  · intro ha
    rcases List.mem_append.mp ha with ha | ha
    · exact ha
    · rcases List.mem_cons.mp ha with rfl | ha
      · exact absurd h (lt_irrefl _)
      · exact absurd (hr a ha) (not_lt_of_gt h)
  · exact List.mem_append_left _

/-- A value above the pivot is looked for on its right. -/
theorem mem_right_of_gt {a x : α} {l r : List α} (hs : StrictSorted (l ++ x :: r))
    (h : x < a) : a ∈ l ++ x :: r ↔ a ∈ r := by
  obtain ⟨-, -, hl, -⟩ := strictSorted_split.mp hs
  constructor
  · intro ha
    rcases List.mem_append.mp ha with ha | ha
    · exact absurd (hl a ha) (not_lt_of_gt h)
    · rcases List.mem_cons.mp ha with rfl | ha
      · exact absurd h (lt_irrefl _)
      · exact ha
  · exact fun ha => List.mem_append_right _ (List.mem_cons_of_mem x ha)

/-- Values at or above the pivot are not on its left. -/
theorem not_mem_left_of_ge {a x : α} {l r : List α} (hs : StrictSorted (l ++ x :: r))
    (h : x ≤ a) : a ∉ l := by
  obtain ⟨-, -, hl, -⟩ := strictSorted_split.mp hs
  exact fun ha => absurd (hl a ha) (not_lt_of_ge h)

/-! ## As finite sets -/

/-- Insertion adds its entry and keeps the others. -/
theorem mem_ins {a b : α} {l : List α} : b ∈ ins a l ↔ b = a ∨ b ∈ l := by
  induction l with
  | nil => simp [ins]
  | cons x l ih =>
      show b ∈ (if a < x then _ else if a = x then _ else x :: ins a l) ↔ _
      split
      · simp
      · split
        · rename_i heq
          subst heq
          simp
        · rw [List.mem_cons, ih, List.mem_cons]
          tauto

/-- **INSERTION KEEPS THE ORDER.** -/
theorem strictSorted_ins {a : α} {l : List α} (h : StrictSorted l) :
    StrictSorted (ins a l) := by
  induction l with
  | nil => exact List.pairwise_singleton ..
  | cons x l ih =>
      obtain ⟨hx, hl⟩ := List.pairwise_cons.mp h
      show StrictSorted (if a < x then _ else if a = x then _ else x :: ins a l)
      split
      · rename_i hlt
        refine List.pairwise_cons.mpr ⟨fun y hy => ?_, h⟩
        rcases List.mem_cons.mp hy with rfl | hy
        · exact hlt
        · exact lt_trans hlt (hx y hy)
      · rename_i hnlt
        split
        · exact h
        · rename_i hne
          refine List.pairwise_cons.mpr ⟨fun y hy => ?_, ih hl⟩
          rcases mem_ins.mp hy with rfl | hy
          · exact lt_of_le_of_ne (le_of_not_gt hnlt) (Ne.symm hne)
          · exact hx y hy

theorem StrictSorted.nodup {l : List α} (h : StrictSorted l) : l.Nodup :=
  List.Pairwise.imp (fun hlt => ne_of_lt hlt) h

theorem StrictSorted.erase {l : List α} (h : StrictSorted l) (a : α) :
    StrictSorted (l.erase a) :=
  List.Pairwise.sublist List.erase_sublist h

/-- Insertion into the list is insertion into the set. -/
theorem toFinset_ins (a : α) (l : List α) :
    (ins a l).toFinset = insert a l.toFinset := by
  ext b
  rw [List.mem_toFinset, mem_ins, Finset.mem_insert, List.mem_toFinset]

/-- Removal from the list is removal from the set, as no entry stands there twice. -/
theorem StrictSorted.toFinset_erase {l : List α} (h : StrictSorted l) (a : α) :
    (l.erase a).toFinset = l.toFinset.erase a := by
  ext b
  rw [List.mem_toFinset, h.nodup.mem_erase_iff, Finset.mem_erase, List.mem_toFinset]

theorem StrictSorted.length_eq_card {l : List α} (h : StrictSorted l) :
    l.length = l.toFinset.card :=
  (List.toFinset_card_of_nodup h.nodup).symm

/-- One entry more, unless it was there. -/
theorem length_ins (a : α) {l : List α} (hs : StrictSorted l) :
    (ins a l).length = l.length + if a ∈ l then 0 else 1 := by
  rw [(strictSorted_ins hs).length_eq_card, toFinset_ins, hs.length_eq_card]
  split
  · rename_i h
    rw [Finset.insert_eq_of_mem (List.mem_toFinset.mpr h)]
    rfl
  · rename_i h
    rw [Finset.card_insert_of_notMem (fun h' => h (List.mem_toFinset.mp h'))]

end SortedList
