import Mathlib

/-! # Lexicographic comparison — where transitivity of lists is lost

    Lists are compared element by element with a comparison `cmp` of the elements
    (`List.compareLex`), the shorter first where all elements are tied.  If `cmp`
    is transitive then so is the comparison of lists; here `cmp` is only known to
    be oriented and to have transitive ties.

    `Meet cmp P a b c` says that three lists are tied element by element up to a
    position at which their elements are in the relation `P`.  Three lists that
    the comparison does not order transitively meet in elements that `cmp` does
    not order transitively (`meet_of_intransitive`). -/

namespace LexOrder

open Std

variable {α : Type} {cmp : α → α → Ordering} {P : α → α → α → Prop} {a b c : List α}

/-- Tied up to a position, and there in the relation `P`. -/
inductive Meet (cmp : α → α → Ordering) (P : α → α → α → Prop) :
    List α → List α → List α → Prop where
  | here {x y z : α} {a b c : List α} : P x y z → Meet cmp P (x :: a) (y :: b) (z :: c)
  | later {x y z : α} {a b c : List α} : cmp x y = .eq → cmp y z = .eq → Meet cmp P a b c →
      Meet cmp P (x :: a) (y :: b) (z :: c)

/-- Elements in an order that should be transitive and is not, ties included. -/
def Clash (cmp : α → α → Ordering) (x y z : α) : Prop :=
  (cmp x y).isLE ∧ (cmp y z).isLE ∧ (cmp x z).isGE ∧ ¬(cmp x y = .eq ∧ cmp y z = .eq)

/-- Lists that meet have the elements they meet in. -/
theorem Meet.exists_mem (h : Meet cmp P a b c) : ∃ x ∈ a, ∃ y ∈ b, ∃ z ∈ c, P x y z := by
  induction h with
  | here hxyz =>
      exact ⟨_, List.mem_cons_self, _, List.mem_cons_self, _, List.mem_cons_self, hxyz⟩
  | later _ _ _ ih =>
      obtain ⟨x, hx, y, hy, z, hz, hxyz⟩ := ih
      exact ⟨x, List.mem_cons_of_mem _ hx, y, List.mem_cons_of_mem _ hy, z,
        List.mem_cons_of_mem _ hz, hxyz⟩

/-- The comparison at the head decides unless it is a tie. -/
theorem compareLex_cons_of_tied {x y : α} (h : cmp x y = .eq) :
    (x :: a).compareLex cmp (y :: b) = a.compareLex cmp b := by
  rw [List.compareLex_cons_cons, h]
  rfl

/-- The heads of lists that are in order are not the other way round. -/
theorem isLE_heads {x y : α} (h : ((x :: a).compareLex cmp (y :: b)).isLE) : (cmp x y).isLE := by
  rw [List.compareLex_cons_cons] at h
  exact (Ordering.isLE_then_iff_and.mp h).1

theorem isGE_heads {x y : α} (h : (x :: a).compareLex cmp (y :: b) = .gt) : (cmp x y).isGE := by
  rw [List.compareLex_cons_cons] at h
  cases hxy : cmp x y with
  | lt => rw [hxy] at h; exact nomatch h
  | eq | gt => rfl

section Ties

variable (htied : ∀ x y z, cmp x y = .eq → cmp y z = .eq → cmp x z = .eq)

include htied

/-- **WHERE TRANSITIVITY IS LOST.**  Three lists that are not ordered transitively meet in three
    elements that are not. -/
theorem meet_of_intransitive (hab : (a.compareLex cmp b).isLE) (hbc : (b.compareLex cmp c).isLE)
    (hac : a.compareLex cmp c = .gt) : Meet cmp (Clash cmp) a b c := by
  induction a generalizing b c with
  | nil => cases c <;> exact nomatch hac
  | cons x a ih =>
      cases b with
      | nil => exact nomatch hab
      | cons y b =>
          cases c with
          | nil => exact nomatch hbc
          | cons z c =>
              by_cases heq : cmp x y = .eq ∧ cmp y z = .eq
              · -- the heads are all tied
                obtain ⟨hxy, hyz⟩ := heq
                rw [compareLex_cons_of_tied hxy] at hab
                rw [compareLex_cons_of_tied hyz] at hbc
                rw [compareLex_cons_of_tied (htied x y z hxy hyz)] at hac
                exact .later hxy hyz (ih hab hbc hac)
              · exact .here ⟨isLE_heads hab, isLE_heads hbc, isGE_heads hac, heq⟩

end Ties

end LexOrder
