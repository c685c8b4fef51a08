import UniqueFreshman.ShellParseProofs

/-! # The shell — one line, from `parse` to `is_builtin(argv[0])`

    After `parse` the loop of `main` writes a null pointer behind the arguments,
    `set_bg` looks at the last one, and `io_redirect` and `set_pipe` look for the
    first redirection or pipe and put a null pointer in its place.  On each way
    `is_builtin` is asked about `argv[0]`.  None of this is checked: not that
    there is an argument, not that there is room for one more pointer, and not
    that `argv[0]` is a string.

    The second child of a pipeline asks about `argv1[0]`; it is no part of this. -/

namespace Shell

open CallSequence (bind_eq_ok)
open CString (nul)

/-- What goes wrong: an index out of range, a null pointer, or a string without end. -/
inductive Trap where
  | overrun (o : Overrun)
  | nullPointer
  | unterminated
deriving DecidableEq, Repr

/-- `argv[argc] = NULL;` -/
def terminate (argv : List (List Char)) : Except Trap Unit :=
  if argv.length < maxArgs then .ok () else .error (.overrun .argument)

/-- `set_bg`: the arguments that are left.  Without arguments it reads `argv[-1]`. -/
def setBg (argv : List (List Char)) : Except Trap (List (List Char)) :=
  match argv.getLast? with
  | none => .error (.overrun .argument)
  | some last => .ok (if cString last = ['&'] then argv.dropLast else argv)

/-- `is_builtin` of a pointer. -/
def isBuiltinAt : Option (List Char) → Except Trap Bool
  | none => .error .nullPointer
  | some buffer =>
      if nul ∈ buffer then .ok (isBuiltin (cString buffer)) else .error .unterminated

/-- What `main` asks `is_builtin` about `argv[0]`, in `io_redirect`, in the first child of
    `set_pipe` and at `exec`; `argv[i]` is null where the line is cut. -/
def commandTests (argv : List (List Char)) : Except Trap Bool :=
  match redirection (argv.map cString) with
  | some (i, _) => do
      let _ ← isBuiltinAt argv.head?
      isBuiltinAt (argv.take i).head?
  | none =>
      match (argv.map cString).idxOf? ['|'] with
      | some i => isBuiltinAt (argv.take i).head?
      | none => isBuiltinAt argv.head?

/-- The loop of `main` for one line. -/
def handleLine (cmdline : List Char) : Except Trap Bool := do
  let p ← (parse cmdline).mapError .overrun
  terminate p.argv
  let argv ← setBg p.argv
  commandTests argv

/-! ## When it goes well -/

/-- The arguments without the `&` at the end. -/
def foreground (ts : List Token) : List Token :=
  if ts.getLast? = some ['&'] then ts.dropLast else ts

/-- The line begins with a command: a word that leaves room for its end, and no operator
    at which the line is cut. -/
def CommandFirst : List Token → Prop
  | [] => False
  | t :: ts => t.length < maxArgLength ∧ direction t = none ∧
      (t = ['|'] → ∃ u ∈ ts, (direction u).isSome = true)

instance : ∀ ts, Decidable (CommandFirst ts)
  | [] => inferInstanceAs (Decidable False)
  | _ :: _ => inferInstanceAs (Decidable (_ ∧ _ ∧ (_ → _)))

/-- The limits of the shell, for the words of a line. -/
structure HandlesLine (ws : List Word) : Prop where
  nonempty : ws ≠ []
  count : ws.length < maxArgs
  words : ∀ w ∈ ws, w.Fits
  command : CommandFirst (foreground (ws.map Word.chars))

instance (ws : List Word) : Decidable (HandlesLine ws) :=
  decidable_of_iff (ws ≠ [] ∧ ws.length < maxArgs ∧ (∀ w ∈ ws, w.Fits) ∧
    CommandFirst (foreground (ws.map Word.chars)))
    ⟨fun ⟨h₁, h₂, h₃, h₄⟩ => ⟨h₁, h₂, h₃, h₄⟩, fun h => ⟨h.1, h.2, h.3, h.4⟩⟩

/-! ## The tests of the command -/

/-- A redirection at the front is found there. -/
theorem redirection_of_direction {t : Token} {d : Direction} (h : direction t = some d)
    (ts : List Token) : redirection (t :: ts) = some (0, d) := by
  simp [redirection, List.findIdx_cons, h]

/-- Otherwise it is looked for in the rest, one place further. -/
theorem redirection_of_none {t : Token} (h : direction t = none) (ts : List Token) :
    redirection (t :: ts) = (redirection ts).map fun r => (r.1 + 1, r.2) := by
  simp [redirection, List.findIdx_cons, h, Function.comp_def]

/-- None is found just when there is none. -/
theorem redirection_eq_none_iff {ts : List Token} :
    redirection ts = none ↔ ¬ ∃ u ∈ ts, (direction u).isSome = true := by
  induction ts with
  | nil => exact iff_of_true rfl (by rintro ⟨u, hu, -⟩; exact absurd hu List.not_mem_nil)
  | cons t ts ih =>
      cases h : direction t with
      | some d =>
          rw [redirection_of_direction h]
          refine iff_of_false (Option.some_ne_none _) (not_not_intro ⟨t, List.mem_cons_self .., ?_⟩)
          rw [h]
          rfl
      | none =>
          rw [redirection_of_none h, Option.map_eq_none_iff, ih]
          simp [h]

/-- The computation goes through. -/
def Returns {α : Type} (x : Except Trap α) : Prop := ∃ a, x = .ok a

theorem returns_ok {α : Type} (a : α) : Returns (.ok a) := ⟨a, rfl⟩

theorem not_returns_error {α : Type} (e : Trap) : ¬ Returns (.error e : Except Trap α) := by
  rintro ⟨a, h⟩
  cases h

theorem returns_ite_iff {α : Type} {b : Prop} [Decidable b] (a : α) (e : Trap) :
    Returns (if b then .ok a else .error e) ↔ b := by
  by_cases hb : b
  · rw [if_pos hb]
    exact iff_of_true (returns_ok a) hb
  · rw [if_neg hb]
    exact iff_of_false (not_returns_error e) hb

/-- A sequence returns if both parts do. -/
theorem returns_bind_iff {α β : Type} {x : Except Trap α} {f : α → Except Trap β} :
    Returns (x >>= f) ↔ ∃ a, x = .ok a ∧ Returns (f a) := by
  constructor
  · rintro ⟨b, h⟩
    obtain ⟨a, ha, hb⟩ := bind_eq_ok.mp h
    exact ⟨a, ha, b, hb⟩
  · rintro ⟨a, ha, b, hb⟩
    exact ⟨b, bind_eq_ok.mpr ⟨a, ha, hb⟩⟩

variable {t : Token} {ts : List Token}

/-- A buffer has a terminator, unless the string fills it. -/
theorem nul_mem_pad (ht : nul ∉ t) : nul ∈ pad t ↔ t.length < maxArgLength := by
  rw [pad, List.mem_append, List.mem_replicate, or_iff_right ht, and_iff_left rfl]
  omega

/-- `strcmp` finds the end of a string that does not fill its buffer. -/
theorem isBuiltinAt_returns_iff (ht : nul ∉ t) :
    Returns (isBuiltinAt (some (pad t))) ↔ t.length < maxArgLength := by
  rw [← nul_mem_pad ht]
  exact returns_ite_iff ..

theorem map_cString_pad (hts : ∀ t ∈ ts, nul ∉ t) : (ts.map pad).map cString = ts := by
  have hid : (ts.map pad).map cString = ts.map id := by
    rw [List.map_map]
    exact List.map_congr_left fun t ht => cString_pad (hts t ht)
  rw [hid, List.map_id]

/-- **THE TESTS OF THE COMMAND** go well just when the line begins with a command. -/
theorem commandTests_returns_iff (hts : ∀ t ∈ ts, nul ∉ t) :
    Returns (commandTests (ts.map pad)) ↔ CommandFirst ts := by
  rw [commandTests, map_cString_pad hts]
  cases ts with
  | nil => exact iff_of_false (not_returns_error _) id
  | cons t ts =>
      have htest := isBuiltinAt_returns_iff (hts t (List.mem_cons_self ..))
      cases hdir : direction t with
      | some d =>
          -- the redirection itself is taken away
          rw [redirection_of_direction hdir]
          refine iff_of_false ?_ fun h => Option.some_ne_none d (hdir.symm.trans h.2.1)
          show ¬ Returns (isBuiltinAt (some (pad t)) >>= fun _ => isBuiltinAt none)
          rw [returns_bind_iff]
          rintro ⟨a, -, h⟩
          exact not_returns_error _ h
      | none =>
          rw [redirection_of_none hdir]
          cases hred : redirection ts with
          | some r =>
              have hlater : ∃ u ∈ ts, (direction u).isSome = true := by
                by_contra hno
                rw [redirection_eq_none_iff.mpr hno] at hred
                cases hred
              show Returns (isBuiltinAt (some (pad t)) >>= fun _ => isBuiltinAt (some (pad t))) ↔ _
              rw [returns_bind_iff]
              constructor
              · rintro ⟨a, ha, -⟩
                exact ⟨htest.mp ⟨a, ha⟩, hdir, fun _ => hlater⟩
              · intro h
                obtain ⟨a, ha⟩ := htest.mpr h.1
                exact ⟨a, ha, a, ha⟩
          | none =>
              have hno := redirection_eq_none_iff.mp hred
              by_cases hpipe : t = ['|']
              · -- the first child has lost its command
                subst hpipe
                exact iff_of_false (not_returns_error .nullPointer) fun h => hno (h.2.2 rfl)
              · have hall : Returns (match (t :: ts).idxOf? ['|'] with
                    | some i => isBuiltinAt ((List.map pad (t :: ts)).take i).head?
                    | none => isBuiltinAt (List.map pad (t :: ts)).head?) ↔
                    Returns (isBuiltinAt (some (pad t))) := by
                  rw [List.idxOf?_cons, if_neg (by simpa using hpipe)]
                  cases ts.idxOf? ['|'] <;> rfl
                refine hall.trans (htest.trans ?_)
                exact ⟨fun h => ⟨h, hdir, fun heq => absurd heq hpipe⟩, fun h => h.1⟩

/-! ## One line -/

/-- `&` at the end of the line is taken off. -/
theorem setBg_eq (hts : ∀ t ∈ ts, nul ∉ t) (hne : ts ≠ []) :
    setBg (ts.map pad) = .ok ((foreground ts).map pad) := by
  obtain ⟨us, u, rfl⟩ : ∃ us u, ts = us ++ [u] :=
    ⟨ts.dropLast, ts.getLast hne, (List.dropLast_append_getLast hne).symm⟩
  have hu := cString_pad (hts u (List.mem_append_right _ (List.mem_singleton.mpr rfl)))
  rw [setBg, foreground, List.map_append, List.map_singleton, List.getLast?_concat,
    List.getLast?_concat]
  show Except.ok (if cString (pad u) = _ then _ else _) = _
  rw [hu]
  by_cases hbg : u = ['&']
  · rw [if_pos hbg, if_pos (congrArg some hbg), List.dropLast_concat, List.dropLast_concat]
  · rw [if_neg hbg, if_neg (mt Option.some.inj hbg), List.map_append, List.map_singleton]

theorem mem_foreground (h : t ∈ foreground ts) : t ∈ ts := by
  rw [foreground] at h
  split at h
  · exact List.dropLast_subset ts h
  · exact h

/-- After `parse`. -/
theorem afterParse_returns_iff (hts : ∀ t ∈ ts, nul ∉ t) :
    Returns (do terminate (ts.map pad); let argv ← setBg (ts.map pad); commandTests argv) ↔
      ts ≠ [] ∧ ts.length < maxArgs ∧ CommandFirst (foreground ts) := by
  have hcommand := commandTests_returns_iff fun t ht => hts t (mem_foreground ht)
  by_cases hne : ts = []
  · subst hne
    exact iff_of_false (not_returns_error (.overrun .argument)) fun h => h.1 rfl
  rw [setBg_eq hts hne, terminate, List.length_map, and_iff_right hne]
  by_cases hlt : ts.length < maxArgs
  · rw [if_pos hlt, and_iff_right hlt]
    exact hcommand
  · rw [if_neg hlt]
    exact iff_of_false (not_returns_error _) fun h => hlt h.1

/-- **ONE LINE** of the loop goes well just when its words meet the limits of the shell. -/
theorem handleLine_returns_iff (line : List Char) (hnul : nul ∉ line) :
    (∃ b, handleLine line = .ok b) ↔ HandlesLine (scan line).words := by
  show Returns (handleLine line) ↔ _
  have hts : ∀ t ∈ (scan line).words.map Word.chars, nul ∉ t := by
    intro t ht hmem
    obtain ⟨w, hw, rfl⟩ := List.mem_map.mp ht
    exact hnul (mem_line hw hmem)
  by_cases hfit : FitArgv (scan line).words
  · have hafter := afterParse_returns_iff hts
    rw [List.map_map, List.length_map, ne_eq, List.map_eq_nil_iff] at hafter
    rw [handleLine, (parse_follows line).1 hfit]
    refine Iff.trans hafter ⟨fun ⟨hne, hcount, hcommand⟩ => ?_, fun h => ?_⟩
    · exact ⟨hne, hcount, hfit.2, hcommand⟩
    · exact ⟨h.nonempty, h.count, h.command⟩
  · obtain ⟨e, he⟩ := (parse_follows line).2 hfit
    rw [handleLine, he]
    exact iff_of_false (not_returns_error (.overrun e)) fun h =>
      hfit ⟨Nat.le_of_lt h.count, h.words⟩

/-- The line `ls|wc > f&`. -/
theorem handleLine_returns_of_pipeline :
    ∃ b, handleLine ['l', 's', '|', 'w', 'c', ' ', '>', ' ', 'f', '&'] = .ok b :=
  (handleLine_returns_iff ['l', 's', '|', 'w', 'c', ' ', '>', ' ', 'f', '&'] (by decide)).mpr
    (by decide)

/-- Words of one letter, with a space behind each. -/
theorem foldl_letters (cs : List Word) (n : Nat) :
    ((List.replicate n ['a', ' ']).flatten).foldl Scan.step ⟨cs, none, true⟩ =
      ⟨cs ++ List.replicate n ⟨['a'], true⟩, none, true⟩ := by
  induction n generalizing cs with
  | zero => rw [List.replicate_zero, List.replicate_zero, List.append_nil]; rfl
  | succ n ih =>
      rw [List.replicate_succ, List.flatten_cons, List.foldl_append, List.replicate_succ,
        List.append_cons]
      exact ih (cs ++ [⟨['a'], true⟩])

/-- `parse` returns from a line with as many words as `argv` has entries, and no room is left
    for the null pointer. -/
theorem handleLine_of_full {line : List Char} (hfit : FitArgv (scan line).words)
    (hfull : (scan line).words.length = maxArgs) :
    handleLine line = .error (.overrun .argument) := by
  have hargv : ¬ (scan line).image.argv.length < maxArgs := by
    rw [Scan.image, List.length_map, hfull]
    exact Nat.lt_irrefl maxArgs
  rw [handleLine, (parse_follows line).1 hfit]
  show (terminate (scan line).image.argv >>= _) = _
  rw [terminate, if_neg hargv]
  rfl

/-- **FIVE LINES THAT GO WRONG**: a blank one, `&`, `< f`, a word of 65 characters, and
    256 words. -/
theorem lines_that_go_wrong :
    handleLine [' '] = .error (.overrun .argument) ∧
    handleLine ['&'] = .error .nullPointer ∧
    handleLine ['<', 'f'] = .error .nullPointer ∧
    handleLine (List.replicate 65 'a') = .error (.overrun .character) ∧
    handleLine ((List.replicate 256 ['a', ' ']).flatten) = .error (.overrun .argument) := by
  have hwords : (scan (List.replicate 256 ['a', ' ']).flatten).words =
      List.replicate 256 ⟨['a'], true⟩ := by
    rw [scan, foldl_letters, words_of_gap, List.nil_append]
  refine ⟨by decide, by decide, by decide, by decide +kernel, handleLine_of_full ?_ ?_⟩
  · rw [hwords]
    refine ⟨Nat.le_of_eq List.length_replicate, fun w hw => ?_⟩
    rw [List.eq_of_mem_replicate hw]
    decide
  · rw [hwords]
    exact List.length_replicate

end Shell
