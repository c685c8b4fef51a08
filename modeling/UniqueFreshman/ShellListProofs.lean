import UniqueFreshman.LexOrderProofs

/-! # `ls` — the order in which `myls.c` lists the names

    `myls` sorts the names of a directory with `qsort` and the comparison `cmp`.
    Two letters are compared without regard to their case, any other two
    characters by their codes; where a name ends, the shorter one comes first.

    Between the upper-case and the lower-case letters the character set has six
    other characters.  They come behind every upper-case letter and in front of
    every lower-case one, while the letters themselves are mixed: so the
    comparison is oriented but not transitive.  Three names that it does not
    order meet in an upper-case letter, one of the six, and a lower-case letter
    that does not come behind the upper-case one in the alphabet: without three
    such characters among those of the names the comparison is lawful, and with
    them it is not. -/

namespace Myls

open LexOrder
open Std (OrientedCmp OrientedOrd)

/-! ## The comparison -/

/-- `isalpha`, in the C locale. -/
def isalpha (c : Char) : Bool := ('A' ≤ c && c ≤ 'Z') || ('a' ≤ c && c ≤ 'z')

/-- `(c <= 'Z') ? c - 'A' : c - 'a'`. -/
def ord (c : Char) : Int :=
  if c ≤ 'Z' then (c.toNat : Int) - 'A'.toNat else (c.toNat : Int) - 'a'.toNat

/-- The loop of `cmp`, from some index on, and what is behind it. -/
def cmpFrom (len_a len_b : Nat) : List Char → List Char → Int
  | x :: a, y :: b =>
      if isalpha x ∧ isalpha y then
        if ord x < ord y then -1
        else if ord x > ord y then 1
        else cmpFrom len_a len_b a b
      else if x < y then -1
      else if x > y then 1
      else cmpFrom len_a len_b a b
  | _, _ =>
      if len_a = len_b then 0
      else if len_a < len_b then -1 else 1

/-- `cmp`. -/
def cmp (a b : List Char) : Int := cmpFrom a.length b.length a b

/-- A file name: ASCII, and not empty. -/
structure FileName where
  chars : List Char
  nonempty : chars ≠ []
  ascii : ∀ c ∈ chars, c ≠ '\x00' ∧ c.toNat < 128

/-! ## Character by character -/

def code (c : Char) : Int := c.toNat

/-- How the loop compares two characters; on a tie it goes on. -/
def compareChars (x y : Char) : Ordering :=
  if isalpha x ∧ isalpha y then compare (ord x) (ord y) else compare (code x) (code y)

/-- `-1`, `0` or `1`. -/
def sign : Ordering → Int
  | .lt => -1
  | .eq => 0
  | .gt => 1

section Characters

variable {x y z : Char}

/-- Characters are ordered as their codes. -/
theorem lt_iff_code_lt : x < y ↔ code x < code y := by
  rw [code, code, Int.ofNat_lt]
  exact UInt32.lt_iff_toNat_lt

theorem code_inj : code x = code y ↔ x = y := by
  rw [code, code, Int.natCast_inj, Char.toNat_inj]

/-- Two letters are compared without regard to case, -/
theorem compareChars_of_letters (h : isalpha x ∧ isalpha y) :
    compareChars x y = compare (ord x) (ord y) := if_pos h

/-- and all other pairs by their codes. -/
theorem compareChars_of_not_letters (h : ¬(isalpha x ∧ isalpha y)) :
    compareChars x y = compare (code x) (code y) := if_neg h

instance : OrientedCmp compareChars where
  eq_swap {x y} := by
    by_cases h : isalpha x ∧ isalpha y
    · rw [compareChars_of_letters h, compareChars_of_letters h.symm]
      exact OrientedOrd.eq_swap
    · rw [compareChars_of_not_letters h, compareChars_of_not_letters (mt And.symm h)]
      exact OrientedOrd.eq_swap

/-- The two tests of a turn, and the rest of the loop. -/
theorem sign_then (m n : Int) (o : Ordering) :
    sign ((compare m n).then o) = if m < n then -1 else if m > n then 1 else sign o := by
  rcases Int.lt_trichotomy m n with h | h | h
  · rw [compare_lt_iff_lt.mpr h, if_pos h]
    rfl
  · rw [compare_eq_iff_eq.mpr h, if_neg h.not_lt, if_neg h.not_gt]
    rfl
  · rw [compare_gt_iff_gt.mpr h, if_neg h.not_gt, if_pos h]
    rfl

end Characters

/-- `cmp` is the lexicographic comparison of the characters. -/
theorem cmp_eq (a b : List Char) : cmp a b = sign (a.compareLex compareChars b) := by
  -- what is left of the names differs in length as the names do
  have hfrom (la lb : Nat) (a b : List Char) (h : la + b.length = lb + a.length) :
      cmpFrom la lb a b = sign (a.compareLex compareChars b) := by
    induction a generalizing b with
    | nil =>
        cases b with
        | nil =>
            exact if_pos (by simpa using h)
        | cons y b =>
            rw [List.length_cons, List.length_nil] at h
            exact (if_neg (by omega)).trans (if_pos (by omega))
    | cons x a ih =>
        cases b with
        | nil =>
            rw [List.length_cons, List.length_nil] at h
            exact (if_neg (by omega)).trans (if_neg (by omega))
        | cons y b =>
            rw [List.length_cons, List.length_cons] at h
            rw [cmpFrom, List.compareLex_cons_cons, ih b (by omega)]
            by_cases hletters : isalpha x ∧ isalpha y
            · rw [if_pos hletters, compareChars_of_letters hletters, sign_then]
            · rw [if_neg hletters, compareChars_of_not_letters hletters, sign_then]
              simp only [lt_iff_code_lt, gt_iff_lt]
  exact hfrom a.length b.length a b (Nat.add_comm _ _)

/-! ## Three characters -/

def isupper (c : Char) : Bool := 'A' ≤ c && c ≤ 'Z'

def islower (c : Char) : Bool := 'a' ≤ c && c ≤ 'z'

/-- One of the six characters between the upper-case and the lower-case letters. -/
def isBetween (c : Char) : Bool := 'Z' < c && c < 'a'

/-- An upper-case letter, a character behind it and a lower-case letter behind that. -/
def Crossing (x y z : Char) : Prop := isupper x ∧ isBetween y ∧ islower z

section Crossing

variable {x y z : Char}

/-- The three ranges of codes that matter are next to each other. -/
theorem isupper_iff : isupper x ↔ 65 ≤ code x ∧ code x ≤ 90 := by
  simp only [isupper, Bool.and_eq_true, decide_eq_true_eq, ← not_lt, lt_iff_code_lt]
  rfl

theorem islower_iff : islower x ↔ 97 ≤ code x ∧ code x ≤ 122 := by
  simp only [islower, Bool.and_eq_true, decide_eq_true_eq, ← not_lt, lt_iff_code_lt]
  rfl

theorem isBetween_iff : isBetween x ↔ 90 < code x ∧ code x < 97 := by
  simp only [isBetween, Bool.and_eq_true, decide_eq_true_eq, lt_iff_code_lt]
  rfl

theorem isalpha_iff : isalpha x ↔ isupper x ∨ islower x := by
  rw [isalpha, isupper, islower, Bool.or_eq_true]

/-- Two letters with another character between them. -/
theorem crossing_of_le (hx : isalpha x) (hy : ¬ isalpha y) (hz : isalpha z)
    (hxy : code x ≤ code y) (hyz : code y ≤ code z) : Crossing x y z := by
  rw [isalpha_iff, isupper_iff, islower_iff] at hx hy hz
  rw [Crossing, isupper_iff, isBetween_iff, islower_iff]
  omega

/-- A character between the cases stands behind every upper-case letter and in front of every
    lower-case one. -/
theorem compareChars_of_crossing (h : Crossing x y z) :
    compareChars x y = .lt ∧ compareChars y z = .lt := by
  obtain ⟨hx, hy, hz⟩ := h
  have hny : ¬ isalpha y := by
    rw [isalpha_iff, isupper_iff, islower_iff]
    rw [isBetween_iff] at hy
    omega
  rw [compareChars_of_not_letters fun h => hny h.2, compareChars_of_not_letters fun h => hny h.1,
    compare_lt_iff_lt, compare_lt_iff_lt]
  rw [isupper_iff] at hx
  rw [isBetween_iff] at hy
  rw [islower_iff] at hz
  omega

/-- Two characters of which one is no letter are in the order of their codes. -/
theorem code_le_of_isLE (h : (compareChars x y).isLE) (hn : ¬(isalpha x ∧ isalpha y)) :
    code x ≤ code y := by
  rw [compareChars_of_not_letters hn] at h
  exact Std.isLE_compare.mp h

/-- Letters that are in order are in order without regard to case. -/
theorem ord_le_of_isLE (h : (compareChars x y).isLE) (hl : isalpha x ∧ isalpha y) :
    ord x ≤ ord y := by
  rw [compareChars_of_letters hl] at h
  exact Std.isLE_compare.mp h

/-- A tie is one of the same character, or of two letters that differ in case only. -/
theorem tied_iff : compareChars x y = .eq ↔ x = y ∨ (isalpha x ∧ isalpha y) ∧ ord x = ord y := by
  by_cases hl : isalpha x ∧ isalpha y
  · rw [compareChars_of_letters hl, compare_eq_iff_eq]
    exact ⟨fun h => .inr ⟨hl, h⟩, fun h => h.elim (congrArg ord) And.right⟩
  · rw [compareChars_of_not_letters hl, compare_eq_iff_eq, code_inj]
    exact ⟨.inl, fun h => h.elim id fun h => absurd h.1 hl⟩

/-- Being tied is an equivalence, although the order is not transitive. -/
theorem tied_trans (x y z : Char) (hxy : compareChars x y = .eq) (hyz : compareChars y z = .eq) :
    compareChars x z = .eq := by
  rcases tied_iff.mp hxy with rfl | ⟨⟨hx, hy⟩, hord⟩
  · exact hyz
  · rcases tied_iff.mp hyz with rfl | ⟨⟨-, hz⟩, hord'⟩
    · exact hxy
    · exact tied_iff.mpr (.inr ⟨⟨hx, hz⟩, hord.trans hord'⟩)

/-- The three characters are in a circle: the lower-case letter is not behind the upper-case
    one in the alphabet. -/
def Twisted (x y z : Char) : Prop := Crossing x y z ∧ ord z ≤ ord x

/-- An upper-case letter and a lower-case one are compared as letters. -/
theorem twisted_of_crossing (h : Crossing x y z) (hzx : (compareChars z x).isLE) :
    Twisted x y z := by
  have hx : isalpha x := isalpha_iff.mpr (.inl h.1)
  have hz : isalpha z := isalpha_iff.mpr (.inr h.2.2)
  exact ⟨h, ord_le_of_isLE hzx ⟨hz, hx⟩⟩

/-- **THE SIX CHARACTERS ARE THE ONLY TROUBLE.** -/
theorem twisted_of_clash (h : Clash compareChars x y z) :
    Twisted x y z ∨ Twisted y z x ∨ Twisted z x y := by
  obtain ⟨hxy, hyz, hzx, hne⟩ := h
  rw [OrientedCmp.isGE_iff_isLE] at hzx
  -- characters that are all compared by their codes are the same
  have hcodes (h₁ : code x ≤ code y) (h₂ : code y ≤ code z) (h₃ : code z ≤ code x) : False := by
    obtain rfl : x = y := code_inj.mp (by omega)
    obtain rfl : x = z := code_inj.mp (by omega)
    exact hne ⟨tied_iff.mpr (.inl rfl), tied_iff.mpr (.inl rfl)⟩
  by_cases hx : isalpha x
  · by_cases hy : isalpha y
    · by_cases hz : isalpha z
      · -- and letters that are all compared as letters differ in case only
        have hxy := ord_le_of_isLE hxy ⟨hx, hy⟩
        have hyz := ord_le_of_isLE hyz ⟨hy, hz⟩
        have hzx := ord_le_of_isLE hzx ⟨hz, hx⟩
        exact absurd ⟨tied_iff.mpr (.inr ⟨⟨hx, hy⟩, by omega⟩),
          tied_iff.mpr (.inr ⟨⟨hy, hz⟩, by omega⟩)⟩ hne
      · have hyz := code_le_of_isLE hyz fun h => hz h.2
        have hzx := code_le_of_isLE hzx fun h => hz h.1
        exact .inr (.inl (twisted_of_crossing (crossing_of_le hy hz hx hyz hzx) hxy))
    · have hxy := code_le_of_isLE hxy fun h => hy h.2
      have hyz := code_le_of_isLE hyz fun h => hy h.1
      by_cases hz : isalpha z
      · exact .inl (twisted_of_crossing (crossing_of_le hx hy hz hxy hyz) hzx)
      · exact (hcodes hxy hyz (code_le_of_isLE hzx fun h => hz h.1)).elim
  · have hxy := code_le_of_isLE hxy fun h => hx h.1
    have hzx := code_le_of_isLE hzx fun h => hx h.2
    by_cases hyz' : isalpha y ∧ isalpha z
    · exact .inr (.inr (twisted_of_crossing (crossing_of_le hyz'.2 hx hyz'.1 hzx hxy) hyz))
    · exact (hcodes hxy (code_le_of_isLE hyz hyz') hzx).elim

end Crossing

/-! ## Names -/

/-- The name has characters of `S` only. -/
def FileName.Over (S : Set Char) (a : FileName) : Prop := ∀ c ∈ a.chars, c ∈ S

/-- The names that have the one character. -/
def single (x : Char) (hx : 0 < code x ∧ code x < 128) : FileName where
  chars := [x]
  nonempty := List.cons_ne_nil x []
  ascii := by
    intro c hc
    rw [List.mem_singleton.mp hc]
    refine ⟨?_, by simpa [code] using hx.2⟩
    rintro rfl
    exact absurd hx.1 (by decide)

theorem sign_nonpos {o : Ordering} : sign o ≤ 0 ↔ o.isLE := by
  cases o <;> decide

/-- `cmp` with its arguments exchanged returns the negated number. -/
theorem sign_swap (o : Ordering) : sign o.swap = -sign o := by
  cases o <;> rfl

/-- **THE SIGNS ARE OPPOSITE**, for any two names. -/
theorem cmp_swap (a b : List Char) : cmp a b = -cmp b a := by
  have hswap : a.compareLex compareChars b = (b.compareLex compareChars a).swap :=
    OrientedCmp.eq_swap
  rw [cmp_eq, cmp_eq, hswap, sign_swap]

theorem cmp_single (x y : Char) : cmp [x] [y] = sign (compareChars x y) := by
  rw [cmp_eq, List.compareLex_cons_cons]
  cases compareChars x y <;> rfl

/-- Names that are not ordered transitively have three characters in a circle. -/
theorem twisted_of_intransitive {a b c : List Char} (hab : cmp a b ≤ 0) (hbc : cmp b c ≤ 0)
    (hac : 0 < cmp a c) : ∃ x ∈ a, ∃ y ∈ b, ∃ z ∈ c,
      Twisted x y z ∨ Twisted y z x ∨ Twisted z x y := by
  rw [cmp_eq, sign_nonpos] at hab hbc
  have hgt : a.compareLex compareChars c = .gt := by
    rw [cmp_eq] at hac
    cases h : a.compareLex compareChars c with
    | lt | eq => rw [h] at hac; exact absurd hac (by decide)
    | gt => rfl
  obtain ⟨x, hx, y, hy, z, hz, hclash⟩ := (meet_of_intransitive tied_trans hab hbc hgt).exists_mem
  exact ⟨x, hx, y, hy, z, hz, twisted_of_clash hclash⟩

/-- The three characters, as names, are not ordered transitively. -/
theorem Twisted.intransitive {x y z : Char} (h : Twisted x y z) :
    cmp [z] [x] ≤ 0 ∧ cmp [x] [y] ≤ 0 ∧ ¬ cmp [z] [y] ≤ 0 := by
  obtain ⟨hcrossing, hord⟩ := h
  obtain ⟨hxy, hyz⟩ := compareChars_of_crossing hcrossing
  have hletters : isalpha z ∧ isalpha x :=
    ⟨isalpha_iff.mpr (.inr hcrossing.2.2), isalpha_iff.mpr (.inl hcrossing.1)⟩
  refine ⟨?_, ?_, ?_⟩
  · rw [cmp_single, sign_nonpos, compareChars_of_letters hletters]
    exact Std.isLE_compare.mpr hord
  · rw [cmp_single, hxy]
    decide
  · rw [cmp_swap, cmp_single, hyz]
    decide

/-- **THE COMPARATOR IS LAWFUL** on the names over a set of characters just when no three of
    them are an upper-case letter, one of the six characters behind `Z`, and a lower-case letter
    that does not come behind the upper-case one in the alphabet. -/
theorem cmp_lawful_iff (S : Set Char) :
    (∀ a b c : FileName, a.Over S → b.Over S → c.Over S →
      cmp a.chars b.chars = -cmp b.chars a.chars ∧
        (cmp a.chars b.chars ≤ 0 → cmp b.chars c.chars ≤ 0 → cmp a.chars c.chars ≤ 0)) ↔
    ∀ x ∈ S, ∀ y ∈ S, ∀ z ∈ S, isupper x → isBetween y → islower z → ord x < ord z := by
  constructor
  · intro h x hxS y hyS z hzS hx hy hz
    by_contra hord
    obtain ⟨hzx, hxy, hzy⟩ := Twisted.intransitive ⟨⟨hx, hy, hz⟩, not_lt.mp hord⟩
    have hover {c : Char} (hc : c ∈ S) (hcode : 0 < code c ∧ code c < 128) :
        (single c hcode).Over S := by
      intro d hd
      rw [List.mem_singleton.mp hd]
      exact hc
    rw [isupper_iff] at hx
    rw [isBetween_iff] at hy
    rw [islower_iff] at hz
    exact hzy ((h (single z (by omega)) (single x (by omega)) (single y (by omega)) (hover hzS _)
      (hover hxS _) (hover hyS _)).2 hzx hxy)
  · intro h a b c ha hb hc
    refine ⟨cmp_swap a.chars b.chars, fun hab hbc => ?_⟩
    by_contra hac
    obtain ⟨x, hx, y, hy, z, hz, htwist⟩ := twisted_of_intransitive hab hbc (not_le.mp hac)
    have hno {x y z : Char} (hx : x ∈ S) (hy : y ∈ S) (hz : z ∈ S) : ¬ Twisted x y z := by
      rintro ⟨⟨hupper, hbetween, hlower⟩, hord⟩
      exact absurd (h x hx y hy z hz hupper hbetween hlower) (not_lt.mpr hord)
    rcases htwist with htwist | htwist | htwist
    · exact hno (ha x hx) (hb y hy) (hc z hz) htwist
    · exact hno (hb y hy) (hc z hz) (ha x hx) htwist
    · exact hno (hc z hz) (ha x hx) (hb y hy) htwist

/-- `Z` stands in front of `_`, `_` in front of `a`, and `a` in front of `Z`. -/
theorem underscore_breaks_order : ∃ a b c : FileName,
    (a.chars = ['Z'] ∧ b.chars = ['_'] ∧ c.chars = ['a']) ∧
    cmp a.chars b.chars = -1 ∧ cmp b.chars c.chars = -1 ∧ cmp a.chars c.chars = 1 :=
  ⟨⟨['Z'], by simp, by simp⟩, ⟨['_'], by simp, by simp⟩, ⟨['a'], by simp, by simp⟩,
    ⟨rfl, rfl, rfl⟩, by decide, by decide, by decide⟩

end Myls
