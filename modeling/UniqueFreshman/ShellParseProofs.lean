import UniqueFreshman.CStringProofs
import UniqueFreshman.ShellRedirectProofs
import Mathlib.Data.List.Induction

/-! # The shell — `parse` cuts a line into arguments

    `parse` reads the line one character a turn.  An operator is an argument of
    its own; a space ends a word, unless it stands between double quotes; the
    quotes themselves are dropped.  The arguments are written into buffers of
    `MAX_ARG_LENGTH` bytes, at most `MAX_ARGS` of them, and nothing checks either
    limit: a write outside is a fault of the model.

    `Scan` is the same automaton without limits, on the words it has closed and
    the one it is in.  `parse` returns just when the words of the scan fit, and
    then its buffers hold them. -/

namespace Shell

open CallSequence
open CString (nul)

/-- `MAX_ARGS`. -/
def maxArgs : Nat := 256

/-- `MAX_ARG_LENGTH`. -/
def maxArgLength : Nat := 64

/-- An index of `argv`, or one of a buffer, is out of range. -/
inductive Overrun where
  | argument | character
deriving DecidableEq, Repr

/-- The variables of `parse`; `argc` is the number of buffers. -/
structure Parser where
  j : Nat
  word : Bool
  matched : Bool
  argv : List (List Char)
deriving DecidableEq

def Parser.argc (p : Parser) : Nat := p.argv.length

def isOperator (c : Char) : Bool := c == '|' || c == '&' || c == '>' || c == '<'

/-- `argc++; argv[argc - 1] = calloc(MAX_ARG_LENGTH, sizeof(char));` -/
def Parser.newArg (p : Parser) : Except Overrun Parser :=
  if p.argc < maxArgs then
    .ok { p with argv := p.argv ++ [List.replicate maxArgLength nul] }
  else .error .argument

/-- `argv[argc - 1][j] = c;` -/
def Parser.store (p : Parser) (j : Nat) (c : Char) : Except Overrun Parser :=
  match p.argv.getLast? with
  | none => .error .argument
  | some buffer =>
      if j < buffer.length then .ok { p with argv := p.argv.dropLast ++ [buffer.set j c] }
      else .error .character

/-- One turn of the loop. -/
def parseChar (p : Parser) (c : Char) : Except Overrun Parser :=
  if isOperator c then do
    let p ← p.newArg
    let p ← p.store 0 c
    .ok { p with word := false, j := 0 }
  else if p.word then
    if c = ' ' ∧ p.matched then do
      let p ← p.store p.j nul
      .ok { p with word := false, j := 0 }
    else if c = '"' ∧ ¬ p.matched then .ok { p with matched := true }
    else if c = '"' ∧ p.matched then .ok p
    else do
      let p ← p.store p.j c
      .ok { p with j := p.j + 1 }
  else if c ≠ ' ' then do
    let p ← p.newArg
    if c = '"' then .ok { p with word := true, matched := false }
    else do
      let p ← p.store p.j c
      .ok { p with word := true, j := p.j + 1 }
  else .ok p

/-- `parse`. -/
def parse (cmdline : List Char) : Except Overrun Parser :=
  cmdline.foldlM parseChar ⟨0, false, true, []⟩

/-- The string in a buffer. -/
def cString (buffer : List Char) : Token := buffer.takeWhile (· ≠ nul)

/-- What `argv` holds. -/
def Parser.tokens (p : Parser) : List Token := p.argv.map cString

/-! ## The scanner -/

/-- An argument, and whether a space has ended it. -/
structure Word where
  chars : Token
  spaced : Bool
deriving DecidableEq

/-- The arguments that are complete, and the one being read. -/
structure Scan where
  closed : List Word
  current : Option Token
  matched : Bool
deriving DecidableEq

def Scan.words (s : Scan) : List Word := s.closed ++ (s.current.map (⟨·, false⟩)).toList

def Scan.step (s : Scan) (c : Char) : Scan :=
  if isOperator c then { s with closed := s.words ++ [⟨[c], false⟩], current := none }
  else match s.current with
    | some u =>
        if c = ' ' ∧ s.matched then { s with closed := s.closed ++ [⟨u, true⟩], current := none }
        else if c = '"' then { s with matched := true }
        else { s with current := some (u ++ [c]) }
    | none =>
        if c = ' ' then s
        else if c = '"' then { s with current := some [], matched := false }
        else { s with current := some [c] }

/-- The scanner after `line`. -/
def scan (line : List Char) : Scan := line.foldl Scan.step ⟨[], none, true⟩

/-- A word that can be written into a buffer: the space after it writes one more byte. -/
def Word.Fits (w : Word) : Prop :=
  w.chars.length ≤ maxArgLength ∧ (w.spaced = true → w.chars.length < maxArgLength)

instance (w : Word) : Decidable w.Fits := inferInstanceAs (Decidable (_ ∧ (_ → _)))

/-- Words that can be written into `argv`. -/
def FitArgv (ws : List Word) : Prop := ws.length ≤ maxArgs ∧ ∀ w ∈ ws, w.Fits

instance (ws : List Word) : Decidable (FitArgv ws) := inferInstanceAs (Decidable (_ ∧ _))

/-- The buffer of an argument. -/
def pad (u : Token) : List Char := u ++ List.replicate (maxArgLength - u.length) nul

/-- The variables of `parse` when its scanner is at `s`. -/
def Scan.image (s : Scan) : Parser where
  j := (s.current.getD []).length
  word := s.current.isSome
  matched := s.matched
  argv := s.words.map fun w => pad w.chars

/-! ## Turns of the scanner -/

section Turns

variable {s : Scan} {cs : List Word} {u : Token} {m : Bool} {c : Char}

theorem words_of_word : (⟨cs, some u, m⟩ : Scan).words = cs ++ [⟨u, false⟩] := rfl

theorem words_of_gap : (⟨cs, none, m⟩ : Scan).words = cs := List.append_nil _

/-- An operator ends the word before it and is one itself. -/
theorem step_operator (hc : isOperator c = true) :
    s.step c = ⟨s.words ++ [⟨[c], false⟩], none, s.matched⟩ :=
  if_pos hc

/-- A space outside of quotes ends the word. -/
theorem step_space : (⟨cs, some u, true⟩ : Scan).step ' ' = ⟨cs ++ [⟨u, true⟩], none, true⟩ :=
  rfl

/-- A second quote closes the first; neither is kept. -/
theorem step_quote : (⟨cs, some u, m⟩ : Scan).step '"' = ⟨cs, some u, true⟩ := by
  cases m <;> rfl

/-- Any other character, and a space between quotes, is added to the word. -/
theorem step_char (hop : isOperator c = false) (hquote : c ≠ '"')
    (hspace : ¬ (c = ' ' ∧ m = true)) :
    (⟨cs, some u, m⟩ : Scan).step c = ⟨cs, some (u ++ [c]), m⟩ := by
  simp only [Scan.step, hop, Bool.false_eq_true, if_false, if_neg hspace, if_neg hquote]

/-- A quote begins an empty word. -/
theorem step_gap_quote : (⟨cs, none, m⟩ : Scan).step '"' = ⟨cs, some [], false⟩ := rfl

/-- Any other character but a space begins a word. -/
theorem step_gap_char (hop : isOperator c = false) (hquote : c ≠ '"') (hspace : c ≠ ' ') :
    (⟨cs, none, m⟩ : Scan).step c = ⟨cs, some [c], m⟩ := by
  simp only [Scan.step, hop, Bool.false_eq_true, if_false, if_neg hspace, if_neg hquote]

/-- What one character can do. -/
inductive Turn : Scan → Char → Scan → Prop where
  | operator {s : Scan} {c : Char} : isOperator c = true →
      Turn s c ⟨s.words ++ [⟨[c], false⟩], none, s.matched⟩
  | space {cs : List Word} {u : Token} :
      Turn ⟨cs, some u, true⟩ ' ' ⟨cs ++ [⟨u, true⟩], none, true⟩
  | quote {cs : List Word} {u : Token} {m : Bool} :
      Turn ⟨cs, some u, m⟩ '"' ⟨cs, some u, true⟩
  | char {cs : List Word} {u : Token} {m : Bool} {c : Char} : isOperator c = false →
      c ≠ '"' → ¬ (c = ' ' ∧ m = true) → Turn ⟨cs, some u, m⟩ c ⟨cs, some (u ++ [c]), m⟩
  | gapSpace {cs : List Word} {m : Bool} : Turn ⟨cs, none, m⟩ ' ' ⟨cs, none, m⟩
  | gapQuote {cs : List Word} {m : Bool} : Turn ⟨cs, none, m⟩ '"' ⟨cs, some [], false⟩
  | gapChar {cs : List Word} {m : Bool} {c : Char} : isOperator c = false →
      c ≠ '"' → c ≠ ' ' → Turn ⟨cs, none, m⟩ c ⟨cs, some [c], m⟩

/-- The scanner takes one of the turns, and no other. -/
theorem turn_step (s : Scan) (c : Char) : Turn s c (s.step c) := by
  cases hop : isOperator c with
  | true =>
      rw [step_operator hop]
      exact .operator hop
  | false =>
      obtain ⟨cs, current, m⟩ := s
      cases current with
      | some u =>
          by_cases hspace : c = ' ' ∧ m = true
          · obtain ⟨rfl, rfl⟩ := hspace
            exact .space
          by_cases hquote : c = '"'
          · subst hquote
            rw [step_quote]
            exact .quote
          · rw [step_char hop hquote hspace]
            exact .char hop hquote hspace
      | none =>
          by_cases hspace : c = ' '
          · subst hspace
            exact .gapSpace
          by_cases hquote : c = '"'
          · subst hquote
            exact .gapQuote
          · rw [step_gap_char hop hquote hspace]
            exact .gapChar hop hquote hspace

/-- Inside of a word the last buffer holds it. -/
theorem image_word :
    (⟨cs, some u, m⟩ : Scan).image =
      ⟨u.length, true, m, (cs.map fun w => pad w.chars) ++ [pad u]⟩ := by
  rw [Scan.image, words_of_word, List.map_append]
  rfl

theorem image_gap :
    (⟨cs, none, m⟩ : Scan).image = ⟨0, false, m, cs.map fun w => pad w.chars⟩ := by
  rw [Scan.image, words_of_gap]
  rfl

end Turns

/-! ## Buffers -/

/-- A buffer has `MAX_ARG_LENGTH` bytes, however long its string. -/
theorem length_pad {u : Token} (hu : u.length ≤ maxArgLength) :
    (pad u).length = maxArgLength := by
  rw [pad, List.length_append, List.length_replicate]
  omega

/-- The next character of an argument. -/
theorem set_pad {u : Token} (hu : u.length < maxArgLength) (c : Char) :
    (pad u).set u.length c = pad (u ++ [c]) := by
  obtain ⟨n, hn⟩ : ∃ n, maxArgLength - u.length = n + 1 := ⟨maxArgLength - u.length - 1, by omega⟩
  have hn' : maxArgLength - (u ++ [c]).length = n := by
    rw [List.length_append, List.length_singleton]
    omega
  rw [pad, pad, hn, hn', List.set_append_right _ _ (Nat.le_refl _), Nat.sub_self,
    List.replicate_succ, List.set_cons_zero, List.append_assoc, List.singleton_append]

/-- Writing the terminator does not change a buffer of zeros. -/
theorem pad_snoc_nul {u : Token} (hu : u.length < maxArgLength) : pad (u ++ [nul]) = pad u := by
  obtain ⟨n, hn⟩ : ∃ n, maxArgLength - u.length = n + 1 := ⟨maxArgLength - u.length - 1, by omega⟩
  have hn' : maxArgLength - (u ++ [nul]).length = n := by
    rw [List.length_append, List.length_singleton]
    omega
  rw [pad, pad, hn, hn', List.replicate_succ, List.append_assoc, List.singleton_append]

/-- A buffer is read back up to its first zero. -/
theorem cString_pad {u : Token} (hu : nul ∉ u) : cString (pad u) = u := by
  have hall : ∀ c ∈ u, decide (c ≠ nul) = true := fun c hc =>
    decide_eq_true fun heq => hu (heq ▸ hc)
  rw [cString, pad, List.takeWhile_append_of_pos hall, List.takeWhile_replicate]
  simp

section Writes

variable {j : Nat} {word m : Bool} {bs : List (List Char)} {u : Token}

/-- A write to the last buffer is in range as long as the argument is shorter. -/
theorem store_eq (hu : u.length ≤ maxArgLength) (c : Char) :
    Parser.store ⟨j, word, m, bs ++ [pad u]⟩ u.length c =
      if u.length < maxArgLength then .ok ⟨j, word, m, bs ++ [pad (u ++ [c])]⟩
      else .error .character := by
  simp only [Parser.store, List.getLast?_concat, List.dropLast_concat, length_pad hu]
  by_cases hlt : u.length < maxArgLength
  · rw [if_pos hlt, if_pos hlt, set_pad hlt]
  · rw [if_neg hlt, if_neg hlt]

/-- A new buffer, as long as `argv` has room for it. -/
theorem newArg_eq : Parser.newArg ⟨j, word, m, bs⟩ =
    if bs.length < maxArgs then .ok ⟨j, word, m, bs ++ [pad []]⟩ else .error .argument :=
  rfl

/-- The first character of a new argument. -/
theorem store_first (c : Char) : Parser.store ⟨j, word, m, bs ++ [pad []]⟩ 0 c =
    .ok ⟨j, word, m, bs ++ [pad [c]]⟩ :=
  store_eq (u := []) (Nat.zero_le _) c

end Writes

/-! ## One character -/

/-- One word more fits if there is a place for it and it is not too long. -/
theorem fitArgv_snoc {ws : List Word} {w : Word} :
    FitArgv (ws ++ [w]) ↔ FitArgv ws ∧ ws.length < maxArgs ∧ w.Fits := by
  simp only [FitArgv, List.length_append, List.length_singleton, List.forall_mem_append,
    List.forall_mem_singleton, Nat.succ_le_iff]
  constructor
  · rintro ⟨hlen, hws, hw⟩
    exact ⟨⟨Nat.le_of_lt hlen, hws⟩, hlen, hw⟩
  · rintro ⟨⟨-, hws⟩, hlen, hw⟩
    exact ⟨hlen, hws, hw⟩

theorem fits_single (c : Char) : (⟨[c], false⟩ : Word).Fits := by
  constructor
  · exact Nat.le_of_ble_eq_true rfl
  · nofun

variable {s : Scan} {c : Char}

/-- `p` goes on to the image of `s`, or stops, just as the words of `s` fit. -/
def Follows (x : Except Overrun Parser) (s : Scan) : Prop :=
  (FitArgv s.words → x = .ok s.image) ∧ (¬ FitArgv s.words → ∃ e, x = .error e)

/-- A write that fails just when the words do not fit any more. -/
theorem Follows.of_ite {b : Prop} [Decidable b] {x : Except Overrun Parser} {e : Overrun}
    (hx : x = if b then .ok s.image else .error e) (hb : FitArgv s.words ↔ b) :
    Follows x s := by
  constructor
  · intro h
    rw [hx, if_pos (hb.mp h)]
  · intro h
    rw [hx, if_neg (mt hb.mpr h)]
    exact ⟨e, rfl⟩

theorem Follows.of_fits {x : Except Overrun Parser} (hx : x = .ok s.image)
    (hs : FitArgv s.words) : Follows x s :=
  ⟨fun _ => hx, fun h => absurd hs h⟩

/-- An operator needs a buffer of its own. -/
theorem parseChar_operator (hs : FitArgv s.words) (hc : isOperator c = true) :
    Follows (parseChar s.image c) ⟨s.words ++ [⟨[c], false⟩], none, s.matched⟩ := by
  refine .of_ite (b := s.words.length < maxArgs) (e := .argument) ?_ ?_
  · rw [parseChar, if_pos hc, Scan.image, newArg_eq, List.length_map]
    split
    · rw [ok_bind, store_first, image_gap, List.map_append]
      rfl
    · rfl
  · rw [words_of_gap, fitArgv_snoc]
    exact ⟨fun h => h.2.1, fun h => ⟨hs, h, fits_single c⟩⟩

section InWord

variable {cs : List Word} {u : Token} {m : Bool}

/-- The space behind a word writes one more byte. -/
theorem parseChar_space (hs : FitArgv (cs ++ [⟨u, false⟩])) :
    Follows (parseChar (⟨cs, some u, true⟩ : Scan).image ' ')
      ⟨cs ++ [⟨u, true⟩], none, true⟩ := by
  obtain ⟨hcs, hlen, hu, -⟩ := fitArgv_snoc.mp hs
  refine .of_ite (b := u.length < maxArgLength) (e := .character) ?_ ?_
  · rw [image_word]
    show (Parser.store _ u.length nul >>= _) = _
    rw [store_eq hu]
    split
    · next hlt =>
        rw [pad_snoc_nul hlt, image_gap, List.map_append]
        rfl
    · rfl
  · rw [words_of_gap, fitArgv_snoc]
    exact ⟨fun h => h.2.2.2 rfl, fun h => ⟨hcs, hlen, Nat.le_of_lt h, fun _ => h⟩⟩

/-- A quote writes nothing. -/
theorem parseChar_quote : parseChar (⟨cs, some u, m⟩ : Scan).image '"' =
    .ok (⟨cs, some u, true⟩ : Scan).image := by
  cases m <;> rfl

/-- A character of a word needs a place in its buffer. -/
theorem parseChar_char (hs : FitArgv (cs ++ [⟨u, false⟩])) (hop : isOperator c = false)
    (hquote : c ≠ '"') (hspace : ¬ (c = ' ' ∧ m = true)) :
    Follows (parseChar (⟨cs, some u, m⟩ : Scan).image c) ⟨cs, some (u ++ [c]), m⟩ := by
  obtain ⟨hcs, hlen, hu, -⟩ := fitArgv_snoc.mp hs
  refine .of_ite (b := u.length < maxArgLength) (e := .character) ?_ ?_
  · simp only [image_word, parseChar, hop, Bool.false_eq_true, if_false, if_true, if_neg hspace,
      hquote, false_and, store_eq hu]
    split
    · rw [List.length_append]
      rfl
    · rfl
  · rw [words_of_word, fitArgv_snoc]
    simp only [Word.Fits, List.length_append, List.length_singleton]
    exact ⟨fun h => h.2.2.1, fun h => ⟨hcs, hlen, h, nofun⟩⟩

/-- A quote that begins a word needs a buffer. -/
theorem parseChar_gap_quote (hs : FitArgv cs) :
    Follows (parseChar (⟨cs, none, m⟩ : Scan).image '"') ⟨cs, some [], false⟩ := by
  refine .of_ite (b := cs.length < maxArgs) (e := .argument) ?_ ?_
  · rw [image_gap, image_word]
    show (Parser.newArg _ >>= _) = _
    rw [newArg_eq, List.length_map]
    split
    · rfl
    · rfl
  · rw [words_of_word, fitArgv_snoc]
    exact ⟨fun h => h.2.1, fun h => ⟨hs, h, Nat.zero_le _, nofun⟩⟩

theorem parseChar_gap_char (hs : FitArgv cs) (hop : isOperator c = false)
    (hquote : c ≠ '"') (hspace : c ≠ ' ') :
    Follows (parseChar (⟨cs, none, m⟩ : Scan).image c) ⟨cs, some [c], m⟩ := by
  refine .of_ite (b := cs.length < maxArgs) (e := .argument) ?_ ?_
  · simp only [image_gap, parseChar, hop, Bool.false_eq_true, if_false, hquote, hspace, ne_eq,
      not_false_eq_true, if_true, newArg_eq, List.length_map]
    split
    · rw [ok_bind, store_first, image_word]
      rfl
    · rfl
  · rw [words_of_word, fitArgv_snoc]
    exact ⟨fun h => h.2.1, fun h => ⟨hs, h, fits_single c⟩⟩

end InWord

/-- **ONE CHARACTER**: `parse` follows the scanner. -/
theorem parseChar_follows {s' : Scan} (hturn : Turn s c s') (hs : FitArgv s.words) :
    Follows (parseChar s.image c) s' := by
  cases hturn with
  | operator hop => exact parseChar_operator hs hop
  | space => exact parseChar_space hs
  | quote => exact .of_fits parseChar_quote hs
  | char hop hquote hspace => exact parseChar_char hs hop hquote hspace
  | gapSpace => exact .of_fits rfl hs
  | gapQuote =>
      rw [words_of_gap] at hs
      exact parseChar_gap_quote hs
  | gapChar hop hquote hspace =>
      rw [words_of_gap] at hs
      exact parseChar_gap_char hs hop hquote hspace

/-! ## A line -/

/-- The words before a character fit if those after it do. -/
theorem FitArgv.of_turn {s' : Scan} (hturn : Turn s c s') (h : FitArgv s'.words) :
    FitArgv s.words := by
  cases hturn with
  | operator => exact (fitArgv_snoc.mp (words_of_gap ▸ h)).1
  | space =>
      rw [words_of_gap, fitArgv_snoc] at h
      exact fitArgv_snoc.mpr ⟨h.1, h.2.1, h.2.2.1, nofun⟩
  | quote => exact h
  | char =>
      obtain ⟨hcs, hlen, hu, -⟩ := fitArgv_snoc.mp h
      rw [List.length_append] at hu
      exact fitArgv_snoc.mpr ⟨hcs, hlen, Nat.le_of_add_right_le hu, nofun⟩
  | gapSpace => exact h
  | gapQuote =>
      rw [words_of_gap]
      exact (fitArgv_snoc.mp h).1
  | gapChar =>
      rw [words_of_gap]
      exact (fitArgv_snoc.mp h).1

/-- A character of a word is the new one, or was in a word before. -/
theorem mem_words_of_turn {s' : Scan} (hturn : Turn s c s') {w : Word} (hw : w ∈ s'.words)
    {d : Char} (hd : d ∈ w.chars) : d = c ∨ ∃ w₀ ∈ s.words, d ∈ w₀.chars := by
  cases hturn with
  | operator =>
      rw [words_of_gap] at hw
      rcases List.mem_append.mp hw with hw | hw
      · exact .inr ⟨w, hw, hd⟩
      · rw [List.mem_singleton.mp hw] at hd
        exact .inl (List.mem_singleton.mp hd)
  | space =>
      rw [words_of_gap] at hw
      rcases List.mem_append.mp hw with hw | hw
      · exact .inr ⟨w, List.mem_append_left _ hw, hd⟩
      · rw [List.mem_singleton.mp hw] at hd
        exact .inr ⟨_, List.mem_append_right _ (List.mem_singleton.mpr rfl), hd⟩
  | quote => exact .inr ⟨w, hw, hd⟩
  | char =>
      rcases List.mem_append.mp hw with hw | hw
      · exact .inr ⟨w, List.mem_append_left _ hw, hd⟩
      · rw [List.mem_singleton.mp hw] at hd
        rcases List.mem_append.mp hd with hd | hd
        · exact .inr ⟨_, List.mem_append_right _ (List.mem_singleton.mpr rfl), hd⟩
        · exact .inl (List.mem_singleton.mp hd)
  | gapSpace => exact .inr ⟨w, hw, hd⟩
  | gapQuote =>
      rcases List.mem_append.mp hw with hw | hw
      · exact .inr ⟨w, List.mem_append_left _ hw, hd⟩
      · rw [List.mem_singleton.mp hw] at hd
        exact absurd hd List.not_mem_nil
  | gapChar =>
      rcases List.mem_append.mp hw with hw | hw
      · exact .inr ⟨w, List.mem_append_left _ hw, hd⟩
      · rw [List.mem_singleton.mp hw] at hd
        exact .inl (List.mem_singleton.mp hd)

theorem scan_snoc (line : List Char) (c : Char) : scan (line ++ [c]) = (scan line).step c := by
  rw [scan, List.foldl_append]
  rfl

/-- **`parse` RETURNS JUST WHEN THE WORDS FIT**, and then its buffers hold them. -/
theorem parse_follows (line : List Char) : Follows (parse line) (scan line) := by
  induction line using List.reverseRecOn with
  | nil => exact .of_fits rfl ⟨Nat.zero_le _, nofun⟩
  | append_singleton line c ih =>
      have hparse : parse (line ++ [c]) = parse line >>= fun p => parseChar p c := by
        rw [parse, List.foldlM_append, parse]
        simp only [List.foldlM_cons, List.foldlM_nil, bind_pure]
      rw [hparse, scan_snoc]
      by_cases hfit : FitArgv (scan line).words
      · rw [ih.1 hfit]
        exact parseChar_follows (turn_step _ c) hfit
      · -- a word that does not fit stays one
        obtain ⟨e, he⟩ := ih.2 hfit
        rw [he]
        exact ⟨fun h => absurd (.of_turn (turn_step _ c) h) hfit, fun _ => ⟨e, rfl⟩⟩

/-- The scanner makes no character up. -/
theorem mem_line {line : List Char} {w : Word} (hw : w ∈ (scan line).words) {d : Char}
    (hd : d ∈ w.chars) : d ∈ line := by
  induction line using List.reverseRecOn generalizing w with
  | nil => exact absurd hw List.not_mem_nil
  | append_singleton line c ih =>
      rw [scan_snoc] at hw
      rcases mem_words_of_turn (turn_step _ c) hw hd with rfl | ⟨w₀, hw₀, hd₀⟩
      · exact List.mem_append_right _ (List.mem_singleton.mpr rfl)
      · exact List.mem_append_left _ (ih hw₀ hd₀)

/-- **THE BUFFERS HOLD THE WORDS**, read as C strings. -/
theorem tokens_image {line : List Char} (hline : nul ∉ line) :
    (scan line).image.tokens = (scan line).words.map Word.chars := by
  rw [Parser.tokens, Scan.image, List.map_map]
  exact List.map_congr_left fun w hw => cString_pad fun hd => hline (mem_line hw hd)

/-- What a line that `parse` returns from has been cut into. -/
theorem tokens_of_parse {line : List Char} {p : Parser} (hline : nul ∉ line)
    (hp : parse line = .ok p) : p.tokens = (scan line).words.map Word.chars := by
  by_cases hfit : FitArgv (scan line).words
  · rw [(parse_follows line).1 hfit] at hp
    rw [← Except.ok.inj hp]
    exact tokens_image hline
  · obtain ⟨e, he⟩ := (parse_follows line).2 hfit
    cases he.symm.trans hp

/-- Arguments of at most 63 characters, at most 255 of them: `parse` returns. -/
theorem parse_of_short {line : List Char} {ts : List Token} (hline : nul ∉ line)
    (hwords : (scan line).words.map Word.chars = ts) (hlen : ∀ t ∈ ts, t.length ≤ 63)
    (hcount : ts.length ≤ 255) : ∃ p, parse line = .ok p ∧ p.argc = ts.length ∧ p.tokens = ts := by
  have hfit : FitArgv (scan line).words := by
    constructor
    · rw [← hwords, List.length_map] at hcount
      exact Nat.le_succ_of_le hcount
    · intro w hw
      have hw' := hlen w.chars (hwords ▸ List.mem_map_of_mem hw)
      exact ⟨Nat.le_succ_of_le hw', fun _ => Nat.lt_succ_of_le hw'⟩
  refine ⟨_, (parse_follows line).1 hfit, ?_, (tokens_image hline).trans hwords⟩
  rw [Parser.argc, Scan.image, List.length_map, ← hwords, List.length_map]

/-! ## Lines without quotes -/

/-- A character that stands for itself. -/
def isPlain (c : Char) : Bool := c != ' ' && !isOperator c

/-- The arguments of a line without quotes: the operators, and the longest runs of plain
    characters. -/
def reference : List Char → List Token
  | [] => []
  | c :: cs =>
      if c = ' ' then reference cs
      else if isOperator c then [c] :: reference cs
      else (c :: cs.takeWhile isPlain) :: reference (cs.dropWhile isPlain)
termination_by line => line.length
decreasing_by
  · exact Nat.lt_succ_self _
  · exact Nat.lt_succ_self _
  · exact Nat.lt_succ_of_le (List.dropWhile_suffix _).length_le

theorem reference_space (cs : List Char) : reference (' ' :: cs) = reference cs := by
  rw [reference, if_pos rfl]

/-- An operator is a token. -/
theorem reference_operator {c : Char} (hc : isOperator c = true) (cs : List Char) :
    reference (c :: cs) = [c] :: reference cs := by
  have hspace : c ≠ ' ' := by
    rintro rfl
    exact absurd hc Bool.false_ne_true
  rw [reference, if_neg hspace, if_pos hc]

/-- Other characters are taken up to the next operator or space. -/
theorem reference_plain {c : Char} (hc : isPlain c = true) (cs : List Char) :
    reference (c :: cs) =
      (c :: cs.takeWhile isPlain) :: reference (cs.dropWhile isPlain) := by
  obtain ⟨hspace, hop⟩ : c ≠ ' ' ∧ isOperator c = false := by simpa [isPlain] using hc
  rw [reference, if_neg hspace, hop]
  rfl

/-- What the rest of a line adds to the words, from the word being read on. -/
def remaining (current : Option Token) (cs : List Char) : List Token :=
  match current with
  | none => reference cs
  | some u => (u ++ cs.takeWhile isPlain) :: reference (cs.dropWhile isPlain)

/-- A character that is not plain ends the word being read. -/
theorem remaining_cons {c : Char} (hc : isPlain c = false) (current : Option Token)
    (cs : List Char) :
    remaining current (c :: cs) = current.toList ++ reference (c :: cs) := by
  cases current with
  | none => rfl
  | some u =>
      rw [remaining, List.takeWhile_cons, List.dropWhile_cons, hc]
      exact congrArg (· :: _) (List.append_nil u)

/-- **WITHOUT QUOTES** the scanner finds the words of the reference. -/
theorem words_foldl (ws : List Word) (current : Option Token) {cs : List Char}
    (hcs : '"' ∉ cs) :
    (cs.foldl Scan.step ⟨ws, current, true⟩).words.map Word.chars =
      ws.map Word.chars ++ remaining current cs := by
  induction cs generalizing ws current with
  | nil =>
      show (Scan.words ⟨ws, current, true⟩).map Word.chars = _
      cases current <;> simp [Scan.words, remaining, reference]
  | cons c cs ih =>
      have hquote : c ≠ '"' := fun heq => hcs (heq ▸ List.mem_cons_self ..)
      have hrest : '"' ∉ cs := fun hmem => hcs (List.mem_cons_of_mem c hmem)
      rw [List.foldl_cons]
      cases hop : isOperator c with
      | true =>
          have hplain : isPlain c = false := by simp [isPlain, hop]
          rw [step_operator hop, ih _ none hrest, remaining_cons hplain,
            reference_operator hop]
          cases current <;> simp [Scan.words, remaining]
      | false =>
          by_cases hspace : c = ' '
          · subst hspace
            rw [remaining_cons rfl, reference_space]
            cases current with
            | none => exact ih ws none hrest
            | some u =>
                rw [step_space, ih _ none hrest]
                simp [remaining]
          · have hplain : isPlain c = true := by simp [isPlain, hop, hspace]
            cases current with
            | none =>
                rw [step_gap_char hop hquote hspace, ih ws _ hrest, remaining, remaining,
                  reference_plain hplain]
                rfl
            | some u =>
                rw [step_char hop hquote fun h => hspace h.1, ih ws _ hrest, remaining,
                  remaining, List.takeWhile_cons, List.dropWhile_cons, hplain]
                simp

/-- Without quotes the scanner is the reference tokenizer. -/
theorem words_scan {line : List Char} (hline : '"' ∉ line) :
    (scan line).words.map Word.chars = reference line :=
  words_foldl [] none hline

/-- The arguments hold the characters of the line, in their order, without the spaces. -/
theorem flatten_reference (line : List Char) :
    (reference line).flatten = line.filter (· ≠ ' ') := by
  fun_induction reference line with
  | case1 => rfl
  | case2 cs ih => simpa using ih
  | case3 c cs hspace hop ih => simp [hspace, ih]
  | case4 c cs hspace hop ih =>
      have hrun : (cs.takeWhile isPlain).filter (· ≠ ' ') = cs.takeWhile isPlain := by
        refine List.filter_eq_self.mpr fun d hd => decide_eq_true ?_
        rintro rfl
        exact absurd (List.all_eq_true.mp List.all_takeWhile ' ' hd) Bool.false_ne_true
      rw [List.flatten_cons, ih]
      calc (c :: cs.takeWhile isPlain) ++ (cs.dropWhile isPlain).filter (· ≠ ' ')
          = c :: ((cs.takeWhile isPlain).filter (· ≠ ' ') ++
              (cs.dropWhile isPlain).filter (· ≠ ' ')) := by rw [hrun]; rfl
        _ = c :: cs.filter (· ≠ ' ') := by
            rw [← List.filter_append, List.takeWhile_append_dropWhile]
        _ = (c :: cs).filter (· ≠ ' ') := by rw [List.filter_cons_of_pos (by simpa using hspace)]

/-- **THE TOKENIZER.**  For a line without quotes whose words have at most 63 characters and
    are at most 255, `parse` returns and `argv` holds the arguments of the reference. -/
theorem parse_reference (line : List Char) (hnul : nul ∉ line) (hquote : '"' ∉ line)
    (hlen : ∀ t ∈ reference line, t.length ≤ 63) (hcount : (reference line).length ≤ 255) :
    ∃ p, parse line = .ok p ∧ p.argc = (reference line).length ∧
      p.tokens = reference line ∧ p.tokens.flatten = line.filter (· ≠ ' ') := by
  obtain ⟨p, hp, hargc, htokens⟩ := parse_of_short hnul (words_scan hquote) hlen hcount
  exact ⟨p, hp, hargc, htokens, htokens ▸ flatten_reference line⟩

/-- The line `ls -l|wc >f &`. -/
theorem parse_reference_of_pipeline :
    ∃ p, parse ['l', 's', ' ', '-', 'l', '|', 'w', 'c', ' ', '>', 'f', ' ', '&'] = .ok p ∧
      p.argc = 7 ∧
      p.tokens = [['l', 's'], ['-', 'l'], ['|'], ['w', 'c'], ['>'], ['f'], ['&']] ∧
      p.tokens.flatten = ['l', 's', '-', 'l', '|', 'w', 'c', '>', 'f', '&'] := by
  have href : reference ['l', 's', ' ', '-', 'l', '|', 'w', 'c', ' ', '>', 'f', ' ', '&'] =
      [['l', 's'], ['-', 'l'], ['|'], ['w', 'c'], ['>'], ['f'], ['&']] := by
    simp [reference, isOperator, isPlain, List.takeWhile, List.dropWhile]
  have h := parse_reference
    ['l', 's', ' ', '-', 'l', '|', 'w', 'c', ' ', '>', 'f', ' ', '&'] (by decide) (by decide)
    (by rw [href]; decide) (by rw [href]; decide)
  rw [href] at h
  exact h

end Shell
