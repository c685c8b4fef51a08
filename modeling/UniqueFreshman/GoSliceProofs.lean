import Mathlib.Data.List.Basic
import Mathlib.Data.Int.Basic

/-! # Go slices — indexing and re-slicing with run-time panics

    A Go slice is read and cut at `int` positions, and a position out of range
    is a run-time panic.  Here a slice is a list, a position is an `Int`, and a
    panic is `none`; what a program does after a panic is left to its model. -/

namespace GoSlice

variable {α : Type}

/-- `l[i]`. -/
def goIndex (l : List α) (i : Int) : Option α :=
  if 0 ≤ i then l[i.toNat]? else none

/-- `l[:k]`. -/
def goSliceTo (l : List α) (k : Int) : Option (List α) :=
  if 0 ≤ k ∧ k ≤ l.length then some (l.take k.toNat) else none

/-- `l[k:]`. -/
def goSliceFrom (l : List α) (k : Int) : Option (List α) :=
  if 0 ≤ k ∧ k ≤ l.length then some (l.drop k.toNat) else none

/-- `l[i] = x`. -/
def goSet (l : List α) (i : Int) (x : α) : Option (List α) :=
  if 0 ≤ i ∧ i < l.length then some (l.set i.toNat x) else none

/-- An index that is not negative is one of the list. -/
@[simp] theorem goIndex_natCast (l : List α) (i : Nat) :
    goIndex l (i : Int) = l[i]? := by
  simp [goIndex]

/-- A read that does not panic is a read inside the slice. -/
theorem goIndex_eq_some {l : List α} {i : Int} {x : α}
    (h : goIndex l i = some x) : 0 ≤ i ∧ i < l.length ∧ l[i.toNat]? = some x := by
  rw [goIndex] at h
  split at h
  · rename_i hi
    have hlt : i.toNat < l.length := (List.getElem?_eq_some_iff.mp h).1
    exact ⟨hi, by omega, h⟩
  · exact nomatch h

/-- A prefix cut that does not panic is a `take` inside the slice. -/
theorem goSliceTo_eq_some {l l' : List α} {k : Int}
    (h : goSliceTo l k = some l') : 0 ≤ k ∧ k ≤ l.length ∧ l' = l.take k.toNat := by
  rw [goSliceTo] at h
  split at h
  · rename_i hk
    exact ⟨hk.1, hk.2, (Option.some.inj h).symm⟩
  · exact nomatch h

/-- A suffix cut that does not panic is a `drop` inside the slice. -/
theorem goSliceFrom_eq_some {l l' : List α} {k : Int}
    (h : goSliceFrom l k = some l') : 0 ≤ k ∧ k ≤ l.length ∧ l' = l.drop k.toNat := by
  rw [goSliceFrom] at h
  split at h
  · rename_i hk
    exact ⟨hk.1, hk.2, (Option.some.inj h).symm⟩
  · exact nomatch h

@[simp] theorem goSet_natCast {l : List α} {i : Nat} (h : i < l.length) (x : α) :
    goSet l (i : Int) x = some (l.set i x) := by
  simp [goSet, h]

end GoSlice
