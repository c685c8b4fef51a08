import UniqueFreshman.ShellParseProofs

/-! # The shell — arguments between double quotes

    A double quote at the start of a word keeps the spaces up to the next one in
    the word.  The test for the operators comes before the quotes are looked at,
    so an operator between quotes ends the word all the same: the word keeps
    what stands before it, and the operator becomes an argument. -/

namespace Shell

open CString (nul)

/-- An argument between double quotes. -/
def quote (a : Token) : List Char := '"' :: (a ++ ['"'])

/-- The line of the quoted arguments, with single spaces between them. -/
def quotedLine : List Token → List Char
  | [] => []
  | [a] => quote a
  | a :: b :: args => quote a ++ ' ' :: quotedLine (b :: args)

/-- No operator stands in the argument. -/
def Plain (a : Token) : Prop := ∀ c ∈ a, isOperator c = false

instance (a : Token) : Decidable (Plain a) := List.decidableBAll _ a

/-! ## The scanner on quoted text -/

section Quoted

variable {cs : List Word} {u a : Token} {m : Bool}

/-- Between quotes everything but operators and quotes is taken as it stands. -/
theorem foldl_literal (hop : Plain a) (hquote : '"' ∉ a) :
    a.foldl Scan.step ⟨cs, some u, false⟩ = ⟨cs, some (u ++ a), false⟩ := by
  induction a generalizing u with
  | nil => rw [List.foldl_nil, List.append_nil]
  | cons c a ih =>
      have hc : c ≠ '"' := fun heq => hquote (heq ▸ List.mem_cons_self ..)
      have hrest : Plain a := fun d hd => hop d (List.mem_cons_of_mem c hd)
      have hquote' : '"' ∉ a := fun hmem => hquote (List.mem_cons_of_mem c hmem)
      rw [List.foldl_cons,
        step_char (hop c (List.mem_cons_self ..)) hc fun h => Bool.false_ne_true h.2,
        ih hrest hquote', List.append_assoc, List.singleton_append]

/-- A quoted argument without operators is read as it is. -/
theorem foldl_quote (hop : Plain a) (hquote : '"' ∉ a) :
    (quote a).foldl Scan.step ⟨cs, none, m⟩ = ⟨cs, some a, true⟩ := by
  rw [quote, List.foldl_cons, step_gap_quote, List.foldl_append, foldl_literal hop hquote,
    List.nil_append]
  exact step_quote

/-- What is closed stays as it is. -/
theorem closed_prefix_of_turn {s s' : Scan} {c : Char} (hturn : Turn s c s') :
    s.closed <+: s'.closed := by
  cases hturn with
  | operator => exact (List.prefix_append ..).trans (List.prefix_append ..)
  | space => exact List.prefix_append ..
  | quote => exact List.prefix_rfl
  | char => exact List.prefix_rfl
  | gapSpace => exact List.prefix_rfl
  | gapQuote => exact List.prefix_rfl
  | gapChar => exact List.prefix_rfl

theorem closed_prefix_words (s : Scan) (line : List Char) :
    s.closed <+: (line.foldl Scan.step s).words := by
  induction line generalizing s with
  | nil => exact List.prefix_append ..
  | cons c line ih => exact (closed_prefix_of_turn (turn_step s c)).trans (ih _)

/-- An operator cuts a quoted argument: what stands before it is an argument. -/
theorem closed_of_cut {o : Char} {v : Token} (hop : Plain u) (hquote : '"' ∉ u)
    (ho : isOperator o = true) (line : List Char) :
    cs ++ [⟨u, false⟩] <+:
      ((quote (u ++ o :: v) ++ line).foldl Scan.step ⟨cs, none, m⟩).words := by
  have hcut : (quote (u ++ o :: v) ++ line).foldl Scan.step ⟨cs, none, m⟩ =
      (v ++ '"' :: line).foldl Scan.step ⟨cs ++ [⟨u, false⟩] ++ [⟨[o], false⟩], none, false⟩ := by
    have htext : quote (u ++ o :: v) ++ line = '"' :: (u ++ o :: (v ++ '"' :: line)) := by
      simp [quote]
    rw [htext, List.foldl_cons, step_gap_quote, List.foldl_append, foldl_literal hop hquote,
      List.foldl_cons, step_operator ho, List.nil_append]
    rfl
  rw [hcut]
  have hclosed := closed_prefix_words
    ⟨cs ++ [⟨u, false⟩] ++ [⟨[o], false⟩], none, false⟩ (v ++ '"' :: line)
  exact (List.prefix_append ..).trans hclosed

/-- The first operator of an argument. -/
theorem exists_cut (h : ¬ Plain a) :
    ∃ u o v, a = u ++ o :: v ∧ Plain u ∧ isOperator o = true := by
  induction a with
  | nil => exact absurd (fun _ hc => absurd hc List.not_mem_nil) h
  | cons c a ih =>
      cases hc : isOperator c with
      | true => exact ⟨[], c, a, rfl, fun _ hd => absurd hd List.not_mem_nil, hc⟩
      | false =>
          obtain ⟨u, o, v, rfl, hu, ho⟩ := ih fun ha =>
            h (List.forall_mem_cons.mpr ⟨hc, ha⟩)
          exact ⟨c :: u, o, v, rfl, List.forall_mem_cons.mpr ⟨hc, hu⟩, ho⟩

/-- A quoted argument with an operator does not come back. -/
theorem words_ne_of_cut (ha : ¬ Plain a) (hquote : '"' ∉ a) (args : List Token)
    (line : List Char) :
    ((quote a ++ line).foldl Scan.step ⟨cs, none, m⟩).words.map Word.chars ≠
      cs.map Word.chars ++ a :: args := by
  obtain ⟨u, o, v, rfl, hu, ho⟩ := exists_cut ha
  have hcut : cs ++ [⟨u, false⟩] <+:
      ((quote (u ++ o :: v) ++ line).foldl Scan.step ⟨cs, none, m⟩).words :=
    closed_of_cut hu (fun hmem => hquote (List.mem_append_left _ hmem)) ho line
  have hpre := hcut.map Word.chars
  intro heq
  rw [heq, List.map_append, List.prefix_append_right_inj] at hpre
  -- the argument would be the part before its operator
  have hself : u = u ++ o :: v := (List.cons_prefix_cons.mp hpre).1
  exact List.cons_ne_nil o v (List.self_eq_append_right.mp hself)

end Quoted

/-- **THE WORDS OF A QUOTED LINE** are its arguments just when no operator stands in one. -/
theorem words_quoted_iff (args : List Token) (hquote : ∀ a ∈ args, '"' ∉ a) (cs : List Word)
    (m : Bool) :
    ((quotedLine args).foldl Scan.step ⟨cs, none, m⟩).words.map Word.chars =
      cs.map Word.chars ++ args ↔ ∀ a ∈ args, Plain a := by
  induction args generalizing cs m with
  | nil =>
      refine iff_of_true ?_ nofun
      show (Scan.words ⟨cs, none, m⟩).map Word.chars = _
      rw [words_of_gap, List.append_nil]
  | cons a args ih =>
      have ha := hquote a (List.mem_cons_self ..)
      obtain ⟨line, hline⟩ : ∃ line, quotedLine (a :: args) = quote a ++ line := by
        cases args with
        | nil => exact ⟨[], (List.append_nil _).symm⟩
        | cons b args => exact ⟨_, rfl⟩
      by_cases hop : Plain a
      · rw [List.forall_mem_cons, and_iff_right hop]
        cases args with
        | nil =>
            refine iff_of_true ?_ nofun
            show ((quote a).foldl Scan.step ⟨cs, none, m⟩).words.map Word.chars = _
            rw [foldl_quote hop ha, words_of_word, List.map_append]
            rfl
        | cons b args =>
            have hstep : (quotedLine (a :: b :: args)).foldl Scan.step ⟨cs, none, m⟩ =
                (quotedLine (b :: args)).foldl Scan.step ⟨cs ++ [⟨a, true⟩], none, true⟩ := by
              rw [quotedLine, List.foldl_append, foldl_quote hop ha]
              rfl
            rw [hstep, List.append_cons (cs.map Word.chars), ← ih
              (fun x hx => hquote x (List.mem_cons_of_mem a hx)) (cs ++ [⟨a, true⟩]) true,
              List.map_append]
            rfl
      · refine iff_of_false ?_ fun h => hop (h a (List.mem_cons_self ..))
        rw [hline]
        exact words_ne_of_cut hop ha args line

/-- Quoting adds quotes and spaces only. -/
theorem mem_quotedLine {args : List Token} {c : Char} (hc : c ∈ quotedLine args)
    (hquote : c ≠ '"') (hspace : c ≠ ' ') : ∃ a ∈ args, c ∈ a := by
  have hmem {a : Token} (h : c ∈ quote a) : c ∈ a := by simpa [quote, hquote] using h
  induction args with
  | nil => exact absurd hc List.not_mem_nil
  | cons a args ih =>
      cases args with
      | nil => exact ⟨a, List.mem_cons_self .., hmem hc⟩
      | cons b args =>
          rcases List.mem_append.mp hc with hc | hc
          · exact ⟨a, List.mem_cons_self .., hmem hc⟩
          · obtain ⟨x, hx, hcx⟩ := ih ((List.mem_cons.mp hc).resolve_left hspace)
            exact ⟨x, List.mem_cons_of_mem a hx, hcx⟩

/-- **QUOTING.**  Arguments of at most 63 characters, at most 255 of them, come back from
    their quoted line just when no operator stands in one of them. -/
theorem quoting_round_trip_iff (args : List Token) (hnul : ∀ a ∈ args, nul ∉ a)
    (hquote : ∀ a ∈ args, '"' ∉ a) (hlen : ∀ a ∈ args, a.length ≤ 63)
    (hcount : args.length ≤ 255) :
    (∃ p, parse (quotedLine args) = .ok p ∧ p.argc = args.length ∧ p.tokens = args) ↔
      ∀ a ∈ args, Plain a := by
  have hline : nul ∉ quotedLine args := by
    intro hmem
    obtain ⟨a, ha, hc⟩ := mem_quotedLine hmem (by decide) (by decide)
    exact hnul a ha hc
  have hiff := words_quoted_iff args hquote [] true
  constructor
  · rintro ⟨p, hp, -, htokens⟩
    exact hiff.mp ((tokens_of_parse hline hp).symm.trans htokens)
  · intro hplain
    exact parse_of_short hline (hiff.mpr hplain) hlen hcount

theorem quoting_round_trip_of_four :
    ∃ p, parse (quotedLine [['a', ' ', 'b'], [], ['c'], [' ']]) = .ok p ∧ p.argc = 4 ∧
      p.tokens = [['a', ' ', 'b'], [], ['c'], [' ']] :=
  (quoting_round_trip_iff [['a', ' ', 'b'], [], ['c'], [' ']] (by decide) (by decide)
    (by decide) (by decide)).mpr (by decide)

/-- **AN OPERATOR BETWEEN QUOTES** ends the argument: `"a|b c"` is `a`, `|` and `b c`. -/
theorem quoted_operator_cuts :
    (parse (quotedLine [['a', '|', 'b', ' ', 'c']])).map Parser.tokens =
      .ok [['a'], ['|'], ['b', ' ', 'c']] := by
  decide +kernel

end Shell
