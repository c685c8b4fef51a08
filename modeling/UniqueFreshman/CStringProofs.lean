import Mathlib.Data.List.GetD
import Mathlib.Logic.Function.Basic

/-! # C strings — bounded copies in a flat memory

    A memory is a byte for every address, and a buffer a range of it that starts
    at `base`.  A call is the list of the bytes it writes, each at an offset of
    the buffer its pointer points into, so that it can be said of a call whether
    it stays in its buffers; `store` is what the writes do, wherever they fall.

    `Holds m a s` says that the bytes from `a` on are the string `s` with its
    terminator.  `strncpy` writes all `n` bytes it is allowed to, zeros after the
    string. -/

namespace CString

abbrev Memory := Nat → Char

/-- The byte that ends a string. -/
def nul : Char := '\x00'

/-- A byte written at an offset of a buffer. -/
structure Write (β : Type) where
  buffer : β
  offset : Nat
  byte : Char

/-- `strncpy(b + offset, s, n)`. -/
def strncpy {β : Type} (b : β) (offset : Nat) (s : List Char) (n : Nat) : List (Write β) :=
  (List.range n).map fun i => ⟨b, offset + i, s.getD i nul⟩

/-- The string at `a`, of which at most `n` bytes are read. -/
def cstr (m : Memory) (a : Nat) : Nat → List Char
  | 0 => []
  | n + 1 => if m a = nul then [] else m a :: cstr m (a + 1) n

/-- The bytes from `a` on are `s` and its terminator. -/
def Holds (m : Memory) (a : Nat) (s : List Char) : Prop :=
  ∀ i ≤ s.length, m (a + i) = s.getD i nul

variable {β : Type} {base : β → Nat} {m : Memory} {b : β} {a n : Nat} {s t : List Char}

theorem cstr_of_nul (h : m a = nul) : cstr m a n = [] := by
  cases n with
  | zero => rfl
  | succ n => rw [cstr, if_pos h]

/-- A string that is stored is read back, if it is read far enough. -/
theorem cstr_of_holds (h : Holds m a s) (hnul : nul ∉ s) (hlen : s.length < n) :
    cstr m a n = s := by
  induction s generalizing a n with
  | nil => exact cstr_of_nul (h 0 (Nat.le_refl 0))
  | cons c s ih =>
      obtain ⟨n, rfl⟩ := Nat.exists_eq_add_of_lt hlen
      have ha : m a = c := h 0 (Nat.zero_le _)
      have hc : c ≠ nul := fun hc => hnul (hc ▸ List.mem_cons_self)
      rw [cstr, ha, if_neg hc]
      congr 1
      refine ih (fun i hi => ?_) (fun hs => hnul (List.mem_cons_of_mem c hs)) ?_
      · have hnext := h (i + 1) (Nat.succ_le_succ hi)
        rw [Nat.add_comm i 1, ← Nat.add_assoc, Nat.add_comm 1 i] at hnext
        exact hnext
      · rw [List.length_cons]
        omega

/-! ## Writes -/

/-- The memory after some writes. -/
def store (base : β → Nat) (m : Memory) (ws : List (Write β)) : Memory :=
  ws.foldl (fun m w => Function.update m (base w.buffer + w.offset) w.byte) m

/-- Writes one after the other. -/
theorem store_append (ws ws' : List (Write β)) :
    store base m (ws ++ ws') = store base (store base m ws) ws' :=
  List.foldl_append

/-- **FRAME**: what is not written to is unchanged. -/
theorem store_of_ne {ws : List (Write β)} (h : ∀ w ∈ ws, base w.buffer + w.offset ≠ a) :
    store base m ws a = m a := by
  induction ws generalizing m with
  | nil => rfl
  | cons w ws ih =>
      have hw : a ≠ base w.buffer + w.offset := (h w List.mem_cons_self).symm
      show store base (Function.update m _ _) ws a = m a
      rw [ih fun w' hw' => h w' (List.mem_cons_of_mem w hw'), Function.update_of_ne hw]

/-- The bytes that `strncpy` writes. -/
theorem mem_strncpy {offset : Nat} {w : Write β} :
    w ∈ strncpy b offset s n ↔ ∃ i < n, w = ⟨b, offset + i, s.getD i nul⟩ := by
  simp only [strncpy, List.mem_map, List.mem_range, eq_comm]

/-- **WHAT `strncpy` NEEDS**: all of its `n` bytes. -/
theorem strncpy_within {offset size : Nat} :
    (∀ w ∈ strncpy b offset s n, w.offset < size) ↔ n = 0 ∨ offset + n ≤ size := by
  constructor
  · intro h
    rcases Nat.eq_zero_or_pos n with hn | hn
    · exact .inl hn
    · have hlast := h _ (mem_strncpy.mpr ⟨n - 1, by omega, rfl⟩)
      simp only at hlast
      omega
  · rintro h w hw
    obtain ⟨i, hi, rfl⟩ := mem_strncpy.mp hw
    simp only
    omega

/-- Every byte it writes can be read back, the zeros behind the string included. -/
theorem store_strncpy {offset i : Nat} (hi : i < n) :
    store base m (strncpy b offset s n) (base b + (offset + i)) = s.getD i nul := by
  induction n with
  | zero => omega
  | succ n ih =>
      have hlast : strncpy b offset s (n + 1) =
          strncpy b offset s n ++ [⟨b, offset + n, s.getD n nul⟩] := by
        rw [strncpy, List.range_succ, List.map_append]
        rfl
      rw [hlast, store_append]
      show Function.update _ (base b + (offset + n)) _ _ = _
      by_cases hin : i = n
      · rw [hin, Function.update_self]
      · rw [Function.update_of_ne (by omega), ih (by omega)]

/-- A string that was copied to the start of a buffer. -/
theorem holds_strncpy (hlen : s.length < n) :
    Holds (store base m (strncpy b 0 s n)) (base b) s := by
  intro i hi
  have h : store base m (strncpy b 0 s n) (base b + (0 + i)) = s.getD i nul :=
    store_strncpy (by omega)
  rw [Nat.zero_add] at h
  exact h

/-- **A STRING THAT WAS COPIED BEHIND ANOTHER** is appended to it. -/
theorem holds_append (hs : Holds m (base b) s) (hlen : t.length < n) :
    Holds (store base m (strncpy b s.length t n)) (base b) (s ++ t) := by
  intro i hi
  rw [List.length_append] at hi
  rcases Nat.lt_or_ge i s.length with his | his
  · rw [store_of_ne, hs i (by omega), List.getD_append _ _ _ _ his]
    intro w hw
    obtain ⟨j, -, rfl⟩ := mem_strncpy.mp hw
    simp only
    omega
  · obtain ⟨j, rfl⟩ := Nat.exists_eq_add_of_le his
    rw [store_strncpy (by omega), List.getD_append_right _ _ _ _ his, Nat.add_sub_cancel_left]

/-- A terminator that is put into a string. -/
theorem holds_take (hs : Holds m a s) {i : Nat} (hi : i ≤ s.length) :
    Holds (Function.update m (a + i) nul) a (s.take i) := by
  intro j hj
  rw [List.length_take, Nat.min_eq_left hi] at hj
  by_cases hji : j = i
  · rw [hji, Function.update_self, List.getD_eq_default]
    rw [List.length_take]
    omega
  · rw [Function.update_of_ne (by omega), hs j (by omega), List.getD_eq_getElem?_getD,
      List.getD_eq_getElem?_getD, List.getElem?_take_of_lt (by omega)]

end CString
