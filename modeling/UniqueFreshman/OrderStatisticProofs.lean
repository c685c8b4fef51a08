import Mathlib

/-! # Order statistics — the `k`-th smallest value as a count

    Sorting a family of `n` values and taking position `k` answers a counting
    question: `y` is at most the value at position `k` just when at least
    `n - k` of the values are at least `y`.  So the value there is the greatest
    `y` that `n - k` values reach, and two positions compare as their counts. -/

namespace OrderStatistic

variable {α : Type*} [LinearOrder α]

/-- **POSITION AND COUNT** in a sorted list. -/
theorem le_getElem_iff {l : List α} (hl : l.Pairwise (· ≤ ·)) {k : Nat} (hk : k < l.length)
    (y : α) : y ≤ l[k] ↔ l.length - k ≤ l.countP (y ≤ ·) := by
  constructor
  · intro hy
    -- everything from position `k` on is counted
    have hge : ∀ x ∈ l.drop k, decide (y ≤ x) = true := by
      intro x hx
      obtain ⟨j, hj, rfl⟩ := List.getElem_of_mem hx
      rw [List.getElem_drop, decide_eq_true_eq]
      rcases Nat.eq_zero_or_pos j with rfl | hpos
      · exact hy
      · exact hy.trans (List.pairwise_iff_getElem.mp hl k (k + j) hk _ (by omega))
    calc l.length - k = (l.drop k).length := (List.length_drop ..).symm
      _ = (l.drop k).countP (y ≤ ·) := (List.countP_eq_length.mpr hge).symm
      _ ≤ l.countP (y ≤ ·) := (List.drop_sublist k l).countP_le
  · intro hcount
    by_contra hlt
    -- nothing up to position `k` is
    have hnone : (l.take (k + 1)).countP (y ≤ ·) = 0 := by
      rw [List.countP_eq_zero]
      intro x hx
      obtain ⟨i, hi, rfl⟩ := List.getElem_of_mem hx
      rw [List.length_take] at hi
      rw [List.getElem_take, decide_eq_true_eq]
      rcases Nat.lt_or_ge i k with hik | hik
      · exact fun hle => hlt (hle.trans (List.pairwise_iff_getElem.mp hl i k _ hk hik))
      · obtain rfl : i = k := by omega
        exact hlt
    have hsplit : l.countP (y ≤ ·) = (l.drop (k + 1)).countP (y ≤ ·) := by
      rw [← Nat.zero_add ((l.drop (k + 1)).countP _), ← hnone, ← List.countP_append,
        List.take_append_drop]
    have hle := List.countP_le_length (p := fun x => decide (y ≤ x)) (l := l.drop (k + 1))
    rw [List.length_drop] at hle
    omega

variable {n : Nat} (f : Fin n → α)

/-- The `k`-th smallest value of a family, counted from `0`. -/
def kth (k : Nat) : Option α :=
  ((List.ofFn f).insertionSort (· ≤ ·))[k]?

theorem exists_kth {k : Nat} (hk : k < n) : ∃ x, kth f k = some x :=
  ⟨_, List.getElem?_eq_getElem (by simpa using hk)⟩

variable {f}

/-- **THE `k`-TH SMALLEST VALUE** is at least `y` just when `n - k` values are. -/
theorem le_kth_iff {k : Nat} {x : α} (h : kth f k = some x) (y : α) :
    y ≤ x ↔ n - k ≤ (Finset.univ.filter fun v => y ≤ f v).card := by
  have hperm : ((List.ofFn f).insertionSort (· ≤ ·)).Perm (List.ofFn f) :=
    List.perm_insertionSort ..
  have hcount : ((List.ofFn f).insertionSort (· ≤ ·)).countP (y ≤ ·) =
      (Finset.univ.filter fun v => y ≤ f v).card := by
    rw [hperm.countP_eq, List.ofFn_eq_map, List.countP_map, List.countP_eq_length_filter]
    rfl
  obtain ⟨hk, rfl⟩ := List.getElem?_eq_some_iff.mp h
  rw [le_getElem_iff (List.pairwise_insertionSort ..) hk, hcount, hperm.length_eq,
    List.length_ofFn]

end OrderStatistic
