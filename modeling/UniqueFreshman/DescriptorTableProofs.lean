import Mathlib.Data.List.Basic
import Mathlib.Logic.Function.Basic

/-! # Descriptor tables — the open files of a process

    A descriptor is an index into a table of at most `limit` slots; a slot that
    is in use refers to an open file `α`.  A new descriptor is always the lowest
    free one, and several slots may refer to the same open file (`dup`, `dup2`).
    Every call either fails and leaves the table alone or changes one slot. -/

namespace DescriptorTable

variable {α : Type}

/-- The slots of a process; the ones from `limit` on can never be used. -/
@[ext] structure Table (α : Type) where
  limit : Nat
  slots : Nat → Option α

namespace Table

/-- The lowest free descriptor, unless all are in use. -/
def lowest (t : Table α) : Option Nat :=
  (List.range t.limit).find? fun i => (t.slots i).isNone

def put (t : Table α) (i : Nat) (a : α) : Table α :=
  { t with slots := Function.update t.slots i (some a) }

def close (t : Table α) (i : Nat) : Table α :=
  { t with slots := Function.update t.slots i none }

/-- Open `a` at the lowest free descriptor. -/
def alloc (t : Table α) (a : α) : Option (Nat × Table α) :=
  t.lowest.map fun i => (i, t.put i a)

/-- A second descriptor for the open file of `i`. -/
def dup (t : Table α) (i : Nat) : Option (Nat × Table α) := (t.slots i).bind t.alloc

/-- Let `j` refer to the open file of `i`; the call fails if `i` is not in use. -/
def dup2 (t : Table α) (i : Int) (j : Nat) : Table α :=
  if i < 0 then t
  else match t.slots i.toNat with
    | none => t
    | some a => t.put j a

/-- Two new descriptors, for the ends `r` and `w` of a pipe. -/
def pipe (t : Table α) (r w : α) : Option (Nat × Nat × Table α) := do
  let (i, t) ← t.alloc r
  let (j, t) ← t.alloc w
  some (i, j, t)

@[simp] theorem put_slots (t : Table α) (i j : Nat) (a : α) :
    (t.put i a).slots j = if j = i then some a else t.slots j :=
  Function.update_apply ..

@[simp] theorem close_slots (t : Table α) (i j : Nat) :
    (t.close i).slots j = if j = i then none else t.slots j :=
  Function.update_apply ..

/-- The lowest free descriptor is below the limit, free, and above used ones only. -/
theorem lowest_eq_some {t : Table α} {i : Nat} :
    t.lowest = some i ↔ i < t.limit ∧ t.slots i = none ∧ ∀ j < i, t.slots j ≠ none := by
  rw [lowest, List.find?_range_eq_some]
  simp only [Option.isNone_iff_eq_none, List.mem_range]
  constructor
  · rintro ⟨hfree, hlt, hused⟩
    exact ⟨hlt, hfree, fun j hj => by simpa [Option.isSome_iff_ne_none] using hused j hj⟩
  · rintro ⟨hlt, hfree, hused⟩
    exact ⟨hfree, hlt, fun j hj => by simpa [Option.isSome_iff_ne_none] using hused j hj⟩

/-- With a free slot below the limit there is a lowest one. -/
theorem exists_lowest {t : Table α} {i : Nat} (hi : i < t.limit) (hfree : t.slots i = none) :
    ∃ k, t.lowest = some k := by
  refine Option.isSome_iff_exists.mp (List.find?_isSome.mpr ⟨i, List.mem_range.mpr hi, ?_⟩)
  rw [hfree]
  rfl

/-- Two descriptors are free. -/
def TwoFree (t : Table α) : Prop :=
  ∃ i j, i ≠ j ∧ i < t.limit ∧ j < t.limit ∧ t.slots i = none ∧ t.slots j = none

instance (t : Table α) : Decidable t.TwoFree :=
  decidable_of_iff (∃ i < t.limit, ∃ j < t.limit,
    i ≠ j ∧ (t.slots i).isNone = true ∧ (t.slots j).isNone = true) (by
      simp only [Option.isNone_iff_eq_none]
      constructor
      · rintro ⟨i, hi, j, hj, hij, hfi, hfj⟩
        exact ⟨i, j, hij, hi, hj, hfi, hfj⟩
      · rintro ⟨i, j, hij, hi, hj, hfi, hfj⟩
        exact ⟨i, hi, j, hj, hij, hfi, hfj⟩)

/-- One of two free descriptors is left when the lowest is taken. -/
theorem TwoFree.lowest {t : Table α} (h : t.TwoFree) :
    ∃ k, t.lowest = some k ∧ ∀ a, ∃ k', (t.put k a).lowest = some k' := by
  obtain ⟨i, j, hij, hi, hj, hfi, hfj⟩ := h
  obtain ⟨k, hk⟩ := exists_lowest hi hfi
  refine ⟨k, hk, fun a => ?_⟩
  by_cases hik : i = k
  · have hjk : j ≠ k := fun heq => hij (hik.trans heq.symm)
    exact exists_lowest (t := t.put k a) hj (by rw [put_slots, if_neg hjk, hfj])
  · exact exists_lowest (t := t.put k a) hi (by rw [put_slots, if_neg hik, hfi])

/-- A new descriptor takes a free slot. -/
theorem alloc_eq_some {t t' : Table α} {i : Nat} {a : α} (h : t.alloc a = some (i, t')) :
    t.slots i = none ∧ t' = t.put i a := by
  obtain ⟨k, hk, heq⟩ := Option.map_eq_some_iff.mp h
  obtain ⟨rfl, rfl⟩ := Prod.mk.inj heq
  exact ⟨(lowest_eq_some.mp hk).2.1, rfl⟩

theorem dup_eq_some {t t' : Table α} {i j : Nat} {a : α} (hi : t.slots i = some a)
    (h : t.dup i = some (j, t')) : t.slots j = none ∧ t' = t.put j a := by
  rw [dup, hi] at h
  exact alloc_eq_some h

/-- `dup2` writes over the slot it is given. -/
theorem dup2_of_slot {t : Table α} {i j : Nat} {a : α} (h : t.slots i = some a) :
    t.dup2 i j = t.put j a := by
  rw [dup2, if_neg (by omega), Int.toNat_natCast, h]

/-- Closing the descriptor that was opened last gives the table back. -/
theorem close_put {t : Table α} {i : Nat} (h : t.slots i = none) (a : α) :
    (t.put i a).close i = t := by
  ext j : 2
  · rfl
  · rw [close_slots, put_slots]
    split
    · next hj => rw [hj, h]
    · rfl

/-- Every descriptor in use refers to the same open file in `t'`. -/
def Extends (t t' : Table α) : Prop := ∀ i a, t.slots i = some a → t'.slots i = some a

/-- A write to a free slot, or of what stands there, takes nothing away. -/
theorem extends_put {t : Table α} {i : Nat} {a : α} (h : ∀ b, t.slots i = some b → b = a) :
    t.Extends (t.put i a) := by
  intro j b hj
  rw [put_slots]
  split
  · next hji => rw [h b (hji ▸ hj)]
  · exact hj

theorem exists_alloc {t : Table α} (h : t.lowest.isSome = true) (a : α) :
    ∃ i t', t.alloc a = some (i, t') := by
  obtain ⟨i, hi⟩ := Option.isSome_iff_exists.mp h
  exact ⟨i, t.put i a, by rw [alloc, hi, Option.map_some]⟩

/-- The descriptors that were there stay as they are. -/
theorem alloc_extends {t t' : Table α} {i : Nat} {a : α} (h : t.alloc a = some (i, t')) :
    t.Extends t' := by
  obtain ⟨hfree, rfl⟩ := alloc_eq_some h
  exact extends_put fun b hb => nomatch hfree.symm.trans hb

/-- **SAVE AND RESTORE**: a descriptor that is saved with `dup`, reopened and restored with
    `dup2` refers to its file again, and so does the saved one. -/
theorem dup_put_dup2 {t t' : Table α} {i j : Nat} {a : α} (hi : t.slots i = some a)
    (h : t.dup i = some (j, t')) (b : α) :
    t.Extends ((t'.put i b).dup2 j i) ∧ ((t'.put i b).dup2 j i).slots j = some a := by
  obtain ⟨hfree, rfl⟩ := dup_eq_some hi h
  have hne : j ≠ i := by
    rintro rfl
    exact nomatch hfree.symm.trans hi
  have hj : ((t.put j a).put i b).slots j = some a := by
    rw [put_slots, if_neg hne, put_slots, if_pos rfl]
  rw [dup2_of_slot hj]
  constructor
  · intro k c hk
    simp only [put_slots]
    split
    · next hki => rw [← hk, hki, hi]
    · split
      · next hkj =>
          rw [hkj, hfree] at hk
          exact nomatch hk
      · exact hk
  · rw [put_slots, if_neg hne]
    exact hj

/-- Two slots may be closed in any order. -/
theorem close_comm (t : Table α) (i j : Nat) : (t.close i).close j = (t.close j).close i := by
  ext k : 2
  · rfl
  · simp only [close_slots]
    split
    · split <;> rfl
    · rfl

/-- Closing both ends of a new pipe gives the table back. -/
theorem close_pipe {t t' : Table α} {i j : Nat} {r w : α} (h : t.pipe r w = some (i, j, t')) :
    (t'.close i).close j = t := by
  obtain ⟨⟨i', t₁⟩, hi, h⟩ := Option.bind_eq_some_iff.mp h
  obtain ⟨⟨j', t₂⟩, hj, h⟩ := Option.bind_eq_some_iff.mp h
  obtain ⟨rfl, rfl, rfl⟩ : i' = i ∧ j' = j ∧ t₂ = t' := by simpa using h
  obtain ⟨hfree, rfl⟩ := alloc_eq_some hi
  obtain ⟨hfree', rfl⟩ := alloc_eq_some hj
  rw [close_comm, close_put hfree', close_put hfree]

end Table

end DescriptorTable
