import UniqueFreshman.ShellCommandProofs

/-! # The shell — the two children of a pipeline

    `set_pipe` forks twice.  The first child puts a null pointer in the place of
    the `|` and executes `argv[0]` with `argv`; the second copies what stands
    behind the `|` to `argv1` and executes `argv1[0]` with it.  Whether that is
    what happens depends on the command: a built-in command is not handed over
    as a vector that ends with a null pointer, but reads the variable `argc`,
    which nobody changes, and the second child hands `argv[0]` and `argv` to
    `exec_builtin` where it should hand over `argv1`.

    The streams of the children are left out. -/

namespace Shell

open CallSequence

/-- The first child: `argv[i]` is null. -/
def firstChild (argv : List Token) (i : Nat) : Except Fault Act :=
  let argv₀ := (pointers argv).set i none
  execute argv.length (entry argv₀ 0) argv₀ (entry argv₀ 0) argv₀

/-- The second child: what stands behind `argv[i]` is copied, and a built-in command gets
    `argv` all the same. -/
def secondChild (argv : List Token) (i : Nat) : Except Fault Act :=
  let argv₁ := pointers (argv.drop (i + 1))
  execute argv.length (entry argv₁ 0) argv₁ (entry (pointers argv) 0) (pointers argv)

/-- The two children `set_pipe` makes, if there is a `|`. -/
def pipeChildren (argv : List Token) : Option (Except Fault Act × Except Fault Act) :=
  (argv.idxOf? ['|']).map fun i => (firstChild argv i, secondChild argv i)

variable {left right ts : List Token} {ps : List (Option Token)} {b : Builtin}

/-- In front of a null pointer, with the `argc` of a longer line, `echo` comes to it. -/
theorem not_echo_cut {cmd : Token} (hcmd : builtinOf cmd = some .echo) (hl : left ≠ [])
    (ps : List (Option Token)) {argc : Nat} (hargc : left.length < argc) (effect : Effect) :
    execBuiltin argc cmd (left.map some ++ none :: ps) ≠ .ok effect := by
  have hmem : none ∈ ((left.map some ++ none :: ps).take argc).drop 1 := by
    refine List.mem_iff_getElem?.mpr ⟨left.length - 1, ?_⟩
    have hpos := List.length_pos_iff.mpr hl
    rw [List.getElem?_drop, Nat.add_sub_cancel' hpos, List.getElem?_take_of_lt hargc,
      List.getElem?_append_right (Nat.le_of_eq (List.length_map _)), List.length_map, Nat.sub_self]
    rfl
  rw [execBuiltin_echo hcmd]
  cases hwords : echoWords (((left.map some ++ none :: ps).take argc).drop 1) with
  | error e => nofun
  | ok ts =>
      rw [echoWords_eq_ok.mp hwords, List.mem_map] at hmem
      obtain ⟨t, -, ht⟩ := hmem
      cases ht

/-! ## The children -/

/-- A command that may stand in front of the `|`: not `echo`, and a built-in command that
    reads its argument has one. -/
def leftOk (left : List Token) : Bool :=
  match builtinOf (left.headD []) with
  | none | some .exit | some .cd | some .pwd => true
  | some .echo => false
  | some .kill | some .export => left[1]?.isSome

/-- A command that may stand behind the `|`: not a built-in command, unless it makes no
    difference that the command in front is executed in its place. -/
def rightOk (left right : List Token) : Bool :=
  match builtinOf (right.headD []) with
  | none => true
  | some b => builtinOf (left.headD []) == some b &&
      match b with
      | .exit | .pwd => true
      | .echo => false
      | .cd | .kill | .export => right[1]?.isSome && left[1]? == right[1]?

/-- Two commands act alike just when both have one effect. -/
theorem exists_act_iff {x y : Except Fault Effect} :
    (∃ a, x.map Act.builtin = .ok a ∧ y.map Act.builtin = .ok a) ↔
      ∃ e, x = .ok e ∧ y = .ok e := by
  constructor
  · rintro ⟨a, hx, hy⟩
    cases x with
    | error f => cases hx
    | ok e =>
        cases y with
        | error f => cases hy
        | ok e' =>
            have heq : Act.builtin e = Act.builtin e' :=
              Except.ok.inj (hx.trans hy.symm)
            cases heq
            exact ⟨e, rfl, rfl⟩
  · rintro ⟨e, rfl, rfl⟩
    exact ⟨.builtin e, rfl, rfl⟩

/-- Two commands that read an argument have one effect just when it is the same. -/
theorem exists_deref_iff {p q : Option Token} {f : Token → Effect}
    (hf : ∀ t u, f t = f u → t = u) :
    (∃ e, (deref p).map f = .ok e ∧ (deref q).map f = .ok e) ↔ q.isSome = true ∧ p = q := by
  constructor
  · rintro ⟨e, hp, hq⟩
    cases p with
    | none => cases hp
    | some t =>
        cases q with
        | none => cases hq
        | some u => exact ⟨rfl, congrArg some (hf t u (Except.ok.inj (hp.trans hq.symm)))⟩
  · rintro ⟨hq, rfl⟩
    obtain ⟨t, rfl⟩ := Option.isSome_iff_exists.mp hq
    exact ⟨f t, rfl, rfl⟩

/-- **THE FIRST CHILD** executes the command in front of the `|` just when it may stand
    there. -/
theorem firstChild_iff (right : List Token) (hl : left ≠ []) :
    (∃ a, firstChild (left ++ ['|'] :: right) left.length = .ok a ∧ command left = .ok a) ↔
      leftOk left = true := by
  have hargv : (pointers (left ++ ['|'] :: right)).set left.length none =
      left.map some ++ none :: pointers right := by
    simp [pointers, List.set_append_right]
  have hargc : left.length < (left ++ ['|'] :: right).length := by
    rw [List.length_append, List.length_cons]
    omega
  have hone := entry_one hl (pointers right)
  rw [firstChild, hargv, entry_zero hl]
  obtain ⟨t, ts, rfl⟩ := List.exists_cons_of_ne_nil hl
  rw [List.head?_cons, leftOk, List.headD_cons]
  cases h : builtinOf t with
  | none =>
      refine iff_of_true ⟨_, execute_external h _, ?_⟩ rfl
      rw [command_external h, vector_map_some]
  | some b =>
      rw [execute_builtin h, command_builtin h, exists_act_iff]
      by_cases hb : b = .echo
      · subst hb
        refine iff_of_false ?_ Bool.false_ne_true
        rintro ⟨e, he, -⟩
        exact not_echo_cut h hl _ hargc e he
      · rw [execBuiltin_of_ne_echo h hb hone]
        cases b with
        | echo => exact absurd rfl hb
        | exit => exact iff_of_true ⟨_, rfl, rfl⟩ rfl
        | cd => exact iff_of_true ⟨_, rfl, rfl⟩ rfl
        | pwd => exact iff_of_true ⟨_, rfl, rfl⟩ rfl
        | kill => exact (exists_deref_iff fun _ _ => Effect.kill.inj).trans (and_iff_left rfl)
        | «export» =>
            exact (exists_deref_iff fun _ _ => Effect.setenv.inj).trans (and_iff_left rfl)

/-- What the second child does for a built-in command: the command in front, with all the
    arguments of the line. -/
theorem execBuiltin_whole (t : Token) (ts : List Token) :
    execBuiltin (t :: ts).length t (pointers (t :: ts)) =
      match builtinOf t with
      | none => .ok .nothing
      | some b => ownEffect b (t :: ts) := by
  cases h : builtinOf t with
  | none => rw [execBuiltin, h]
  | some b => exact execBuiltin_own h (List.cons_ne_nil t ts)

/-- The second argument of the line is the one of the command behind the `|` just when it
    is one of the command in front. -/
theorem second_eq_iff (hl : left ≠ []) (hpipe : ['|'] ∉ right) :
    (left ++ ['|'] :: right)[1]? = right[1]? ↔
      (right[1]?.isSome && left[1]? == right[1]?) = true := by
  rw [Bool.and_eq_true, beq_iff_eq]
  cases left with
  | nil => exact absurd rfl hl
  | cons t ts =>
      cases ts with
      | nil =>
          refine iff_of_false (fun h => hpipe ?_) fun h => ?_
          · exact List.mem_iff_getElem?.mpr ⟨1, h.symm⟩
          · rw [← h.2] at h
            exact Bool.false_ne_true h.1
      | cons u us =>
          show some u = right[1]? ↔ right[1]?.isSome = true ∧ some u = right[1]?
          constructor
          · intro h
            exact ⟨h ▸ rfl, h⟩
          · exact fun h => h.2

/-- The command that has the effect. -/
def Effect.command : Effect → Option Builtin
  | .echo _ => some .echo
  | .exit => some .exit
  | .chdir _ => some .cd
  | .pwd => some .pwd
  | .kill _ => some .kill
  | .setenv _ => some .export
  | .nothing => none

theorem command_of_ownEffect {e : Effect} (h : ownEffect b ts = .ok e) : e.command = some b := by
  cases b with
  | echo => cases h; rfl
  | exit => cases h; rfl
  | cd => cases h; rfl
  | pwd => cases h; rfl
  | kill =>
      cases hp : ts[1]? with
      | none => rw [ownEffect, hp] at h; cases h
      | some t => rw [ownEffect, hp] at h; cases h; rfl
  | «export» =>
      cases hp : ts[1]? with
      | none => rw [ownEffect, hp] at h; cases h
      | some t => rw [ownEffect, hp] at h; cases h; rfl

/-- A command with all arguments of the line, in the place of the same command with its
    own. -/
theorem ownEffect_eq_iff (hl : left ≠ []) (hpipe : ['|'] ∉ right) :
    (∃ e, ownEffect b (left ++ ['|'] :: right) = .ok e ∧ ownEffect b right = .ok e) ↔
      (match b with
        | .exit | .pwd => true
        | .echo => false
        | .cd | .kill | .export => right[1]?.isSome && left[1]? == right[1]?) = true := by
  have hsecond := second_eq_iff hl hpipe
  have hread : right[1]?.isSome = true ∧ (left ++ ['|'] :: right)[1]? = right[1]? ↔
      (right[1]?.isSome && left[1]? == right[1]?) = true := by
    constructor
    · exact fun h => hsecond.mp h.2
    · intro h
      exact ⟨(Bool.and_eq_true _ _ ▸ h).1, hsecond.mpr h⟩
  cases b with
  | echo =>
      -- the line has more arguments than its end
      refine iff_of_false ?_ Bool.false_ne_true
      rintro ⟨e, he, he'⟩
      have heq := congrArg List.length (Effect.echo.inj (Except.ok.inj (he.trans he'.symm)))
      simp only [List.length_tail, List.length_append, List.length_cons] at heq
      have := List.length_pos_iff.mpr hl
      omega
  | exit => exact iff_of_true ⟨_, rfl, rfl⟩ rfl
  | pwd => exact iff_of_true ⟨_, rfl, rfl⟩ rfl
  | cd =>
      rw [← hsecond]
      constructor
      · rintro ⟨e, he, he'⟩
        exact Effect.chdir.inj (Except.ok.inj (he.trans he'.symm))
      · intro h
        exact ⟨_, rfl, congrArg (fun t => Except.ok (Effect.chdir t)) h.symm⟩
  | kill => exact (exists_deref_iff fun _ _ => Effect.kill.inj).trans hread
  | «export» => exact (exists_deref_iff fun _ _ => Effect.setenv.inj).trans hread

/-- **THE SECOND CHILD** executes the command behind the `|` just when it may stand
    there. -/
theorem secondChild_iff (hl : left ≠ []) (hr : right ≠ []) (hpipe : ['|'] ∉ right) :
    (∃ a, secondChild (left ++ ['|'] :: right) left.length = .ok a ∧ command right = .ok a) ↔
      rightOk left right = true := by
  have hdrop : (left ++ ['|'] :: right).drop (left.length + 1) = right := by
    rw [List.drop_append, List.drop_of_length_le (Nat.le_succ _), Nat.add_sub_cancel_left]
    rfl
  rw [secondChild, hdrop, pointers, entry_zero hr]
  obtain ⟨u, us, rfl⟩ := List.exists_cons_of_ne_nil hr
  obtain ⟨t, ts, rfl⟩ := List.exists_cons_of_ne_nil hl
  rw [List.head?_cons, rightOk, List.headD_cons, List.headD_cons]
  cases h : builtinOf u with
  | none =>
      refine iff_of_true ⟨_, execute_external h _, ?_⟩ rfl
      rw [command_external h, vector_map_some]
  | some b =>
      show (∃ a, execute _ (some u) _ (some t) (pointers _) = _ ∧ _) ↔ _
      rw [execute_builtin h, command_builtin h, exists_act_iff, List.cons_append,
        execBuiltin_whole]
      show _ ↔ (builtinOf t == some b && _) = true
      by_cases hb : builtinOf t = some b
      · rw [hb, beq_self_eq_true, Bool.true_and]
        exact @ownEffect_eq_iff (t :: ts) (u :: us) b hl hpipe
      · -- the effect tells which command it is of
        refine iff_of_false ?_ fun h' => hb (eq_of_beq (Bool.and_eq_true _ _ ▸ h').1)
        rintro ⟨e, he', he⟩
        have hcommand := command_of_ownEffect he
        cases ht : builtinOf t with
        | none =>
            rw [ht] at he'
            cases he'
            cases hcommand
        | some b' =>
            rw [ht] at he'
            exact hb (ht.trans ((command_of_ownEffect he').symm.trans hcommand))

theorem idxOf?_pipe (h : ['|'] ∉ left) :
    (left ++ ['|'] :: right).idxOf? ['|'] = some left.length := by
  induction left with
  | nil => rfl
  | cons t ts ih =>
      have ht : ¬ (t == ['|']) = true := fun heq => h (eq_of_beq heq ▸ List.mem_cons_self ..)
      rw [List.cons_append, List.idxOf?_cons, if_neg ht,
        ih fun hmem => h (List.mem_cons_of_mem t hmem)]
      rfl

/-- **THE PIPELINE SPLIT.**  For a line with one `|`, the first child executes the command
    in front of it and the second child the one behind it, each with exactly its own
    arguments, just when both may stand there. -/
theorem pipeline_split_iff (left right : List Token) (hl : left ≠ []) (hr : right ≠ [])
    (hpipel : ['|'] ∉ left) (hpiper : ['|'] ∉ right) :
    (∃ a b, pipeChildren (left ++ ['|'] :: right) = some (.ok a, .ok b) ∧
      command left = .ok a ∧ command right = .ok b) ↔
      leftOk left = true ∧ rightOk left right = true := by
  rw [pipeChildren, idxOf?_pipe hpipel, ← firstChild_iff right hl,
    ← secondChild_iff hl hr hpiper]
  constructor
  · rintro ⟨a, b, heq, ha, hb⟩
    obtain ⟨hfirst, hsecond⟩ := Prod.mk.inj (Option.some.inj heq)
    exact ⟨⟨a, hfirst, ha⟩, b, hsecond, hb⟩
  · rintro ⟨⟨a, hfirst, ha⟩, b, hsecond, hb⟩
    refine ⟨a, b, ?_, ha, hb⟩
    rw [Option.map_some, hfirst, hsecond]

theorem pipeline_split_of_cd :
    ∃ a b, pipeChildren [['c', 'd'], ['d'], ['|'], ['w', 'c'], ['-', 'l']] =
        some (.ok a, .ok b) ∧
      command [['c', 'd'], ['d']] = .ok a ∧ command [['w', 'c'], ['-', 'l']] = .ok b :=
  (pipeline_split_iff [['c', 'd'], ['d']] [['w', 'c'], ['-', 'l']] (by decide) (by decide)
    (by decide) (by decide)).mpr (by decide)

/-- **NOT THE COMMAND, NOT THE ARGUMENTS**: in `echo a | wc` the first child comes to the
    null pointer, and in `ls | pwd` the second one does nothing. -/
theorem pipeline_of_builtins_goes_wrong :
    (pipeChildren [['e', 'c', 'h', 'o'], ['a'], ['|'], ['w', 'c']]).map Prod.fst =
      some (.error .nullPointer) ∧
    (pipeChildren [['l', 's'], ['|'], ['p', 'w', 'd']]).map Prod.snd =
      some (.ok (.builtin .nothing)) ∧
    command [['p', 'w', 'd']] = .ok (.builtin .pwd) := by
  decide +kernel

end Shell
