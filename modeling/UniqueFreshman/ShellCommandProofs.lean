import UniqueFreshman.CallSequenceProofs
import Mathlib.Data.List.Basic
import Mathlib.Logic.Basic
import Mathlib.Tactic.SplitIfs

/-! # The shell — one command, built-in or not

    What `main` and the children of a pipeline do with an argument vector: if its
    first string is the name of a built-in command, `exec_builtin` runs it in the
    process itself, and if not, the process becomes a program.

    `exec_builtin` gets the vector, but `myEcho` goes by the variable `argc`.  An
    argument that is passed on to the kernel may be null (`chdir`); the others
    are read. -/

namespace Shell

open CallSequence

abbrev Token := List Char

inductive Fault where
  | nullPointer | closedStream
deriving DecidableEq, Repr

/-- `is_builtin`. -/
def isBuiltin (cmd : Token) : Bool :=
  cmd == ['e', 'c', 'h', 'o'] || cmd == ['e', 'x', 'i', 't'] || cmd == ['c', 'd'] ||
    cmd == ['p', 'w', 'd'] || cmd == ['k', 'i', 'l', 'l'] ||
    cmd == ['e', 'x', 'p', 'o', 'r', 't']

inductive Builtin where
  | echo | exit | cd | pwd | kill | export
deriving DecidableEq, Repr

/-- The comparisons of `exec_builtin`. -/
def builtinOf (cmd : Token) : Option Builtin :=
  if cmd = ['e', 'c', 'h', 'o'] then some .echo
  else if cmd = ['e', 'x', 'i', 't'] then some .exit
  else if cmd = ['c', 'd'] then some .cd
  else if cmd = ['p', 'w', 'd'] then some .pwd
  else if cmd = ['k', 'i', 'l', 'l'] then some .kill
  else if cmd = ['e', 'x', 'p', 'o', 'r', 't'] then some .export
  else none

/-- What a built-in command does, with the arguments it reads. -/
inductive Effect where
  | echo (words : List Token)
  | exit
  | chdir (target : Option Token)
  | pwd
  | kill (pid : Token)
  | setenv (assignment : Token)
  | nothing
deriving DecidableEq, Repr

/-- A pointer that is read. -/
def deref : Option Token → Except Fault Token
  | none => .error .nullPointer
  | some t => .ok t

/-- `argv[i]`. -/
def entry (argv : List (Option Token)) (i : Nat) : Option Token := argv[i]?.join

/-- The loop of `myEcho` over `argv[1]` to `argv[argc - 1]`. -/
def echoWords : List (Option Token) → Except Fault (List Token)
  | [] => .ok []
  | p :: ps => do
      let t ← deref p
      let ts ← echoWords ps
      .ok (t :: ts)

/-- `exec_builtin`, with the value of `argc`. -/
def execBuiltin (argc : Nat) (cmd : Token) (argv : List (Option Token)) :
    Except Fault Effect :=
  match builtinOf cmd with
  | some .echo => do
      let words ← echoWords ((argv.take argc).drop 1)
      .ok (.echo words)
  | some .exit => .ok .exit
  | some .cd => .ok (.chdir (entry argv 1))
  | some .pwd => .ok .pwd
  | some .kill => do
      let pid ← deref (entry argv 1)
      .ok (.kill pid)
  | some .export => do
      let assignment ← deref (entry argv 1)
      .ok (.setenv assignment)
  | none => .ok .nothing

/-- What a child does: it becomes a program, or it runs a built-in command. -/
inductive Act where
  | execve (filename : Token) (args : List Token)
  | builtin (effect : Effect)
deriving DecidableEq, Repr

/-- `argv` as an array, with the null pointer at its end. -/
def pointers (argv : List Token) : List (Option Token) := argv.map some ++ [none]

/-- The strings up to the first null pointer, as `execve` takes them. -/
def vector : List (Option Token) → List Token
  | some t :: ps => t :: vector ps
  | _ => []

/-- `is_builtin(p)`, and `Execve` or `exec_builtin` after it; `argc` is the global one. -/
def execute (argc : Nat) (p : Option Token) (argv : List (Option Token))
    (cmd : Option Token) (argv' : List (Option Token)) : Except Fault Act := do
  let name ← deref p
  if !isBuiltin name then .ok (.execve name (vector argv))
  else
    let cmd ← deref cmd
    let effect ← execBuiltin argc cmd argv'
    .ok (.builtin effect)

/-- A command executed with exactly its own arguments. -/
def command (ts : List Token) : Except Fault Act :=
  execute ts.length ts.head? (pointers ts) ts.head? (pointers ts)

/-! ## Arrays of pointers -/

variable {left ts : List Token} {ps : List (Option Token)} {b : Builtin}

/-- `is_builtin` knows the commands that `exec_builtin` does. -/
theorem isBuiltin_eq (cmd : Token) : isBuiltin cmd = (builtinOf cmd).isSome := by
  simp only [isBuiltin, builtinOf, beq_eq_decide]
  split_ifs <;> simp [*]

/-- `execve` sees the pointers up to the first null pointer. -/
theorem vector_map_some (ts : List Token) (ps : List (Option Token)) :
    vector (ts.map some ++ none :: ps) = ts := by
  induction ts with
  | nil => rfl
  | cons t ts ih => exact congrArg (t :: ·) ih

/-- The loop of `myEcho` returns just when it meets no null pointer. -/
theorem echoWords_eq_ok : echoWords ps = .ok ts ↔ ps = ts.map some := by
  induction ps generalizing ts with
  | nil =>
      cases ts with
      | nil => exact iff_of_true rfl rfl
      | cons t ts => exact iff_of_false nofun nofun
  | cons p ps ih =>
      cases p with
      | none =>
          refine iff_of_false nofun fun h => ?_
          cases ts with
          | nil => cases h
          | cons t ts => cases h
      | some u =>
          show (echoWords ps >>= fun us => .ok (u :: us)) = .ok ts ↔ _
          rw [bind_eq_ok]
          constructor
          · rintro ⟨us, hus, heq⟩
            rw [← Except.ok.inj heq, ih.mp hus, List.map_cons]
          · intro h
            cases ts with
            | nil => cases h
            | cons t ts =>
                obtain ⟨hu, hps⟩ := List.cons.inj h
                exact ⟨ts, ih.mpr hps, by rw [Option.some.inj hu]⟩

theorem entry_zero (hl : left ≠ []) (ps : List (Option Token)) :
    entry (left.map some ++ ps) 0 = left.head? := by
  cases left with
  | nil => exact absurd rfl hl
  | cons t ts => rfl

/-- `argv[1]` of a command whose arguments end with a null pointer. -/
theorem entry_one (hl : left ≠ []) (ps : List (Option Token)) :
    entry (left.map some ++ none :: ps) 1 = left[1]? := by
  cases left with
  | nil => exact absurd rfl hl
  | cons t ts =>
      cases ts with
      | nil => rfl
      | cons u us => rfl

/-! ## What a built-in command reads -/

/-- The effect of a built-in command that has exactly its own arguments. -/
def ownEffect (b : Builtin) (ts : List Token) : Except Fault Effect :=
  match b with
  | .echo => .ok (.echo ts.tail)
  | .exit => .ok .exit
  | .cd => .ok (.chdir ts[1]?)
  | .pwd => .ok .pwd
  | .kill => (deref ts[1]?).map .kill
  | .export => (deref ts[1]?).map .setenv

/-- Only `echo` looks further than `argv[1]`. -/
theorem execBuiltin_of_ne_echo {cmd : Token} (hcmd : builtinOf cmd = some b) (hb : b ≠ .echo)
    (hone : entry ps 1 = ts[1]?) (argc : Nat) : execBuiltin argc cmd ps = ownEffect b ts := by
  rw [execBuiltin, hcmd]
  cases b with
  | echo => exact absurd rfl hb
  | exit => rfl
  | cd => exact congrArg (fun t => Except.ok (Effect.chdir t)) hone
  | pwd => rfl
  | kill => exact congrArg (fun t => (deref t).map Effect.kill) hone
  | «export» => exact congrArg (fun t => (deref t).map Effect.setenv) hone

/-- `echo` prints what stands behind its name. -/
theorem execBuiltin_echo {cmd : Token} (hcmd : builtinOf cmd = some .echo) (argc : Nat)
    (ps : List (Option Token)) :
    execBuiltin argc cmd ps = (echoWords ((ps.take argc).drop 1)).map .echo := by
  rw [execBuiltin, hcmd]
  rfl

/-- With `argc` and `argv` of its own a command has its own effect. -/
theorem execBuiltin_own {cmd : Token} (hcmd : builtinOf cmd = some b) (hts : ts ≠ []) :
    execBuiltin ts.length cmd (pointers ts) = ownEffect b ts := by
  by_cases hb : b = .echo
  · subst hb
    have hwords : echoWords (((pointers ts).take ts.length).drop 1) = .ok ts.tail := by
      rw [echoWords_eq_ok, pointers, List.take_left' (List.length_map _), List.drop_one,
        List.map_tail]
    rw [execBuiltin_echo hcmd, hwords]
    rfl
  · exact execBuiltin_of_ne_echo hcmd hb (entry_one hts []) _

/-! ## Execution -/

section Execute

variable {t u : Token} {ps' : List (Option Token)} {argc : Nat}

/-- An external command gets the pointers of its own side. -/
theorem execute_external (h : builtinOf t = none) (cmd : Option Token) :
    execute argc (some t) ps cmd ps' = .ok (.execve t (vector ps)) := by
  show (if !isBuiltin t then _ else _) = _
  rw [isBuiltin_eq, h]
  rfl

/-- A built-in one is looked up by the name it is given, and reads the pointers it is given. -/
theorem execute_builtin (h : builtinOf t = some b) (u : Token) :
    execute argc (some t) ps (some u) ps' = (execBuiltin argc u ps').map .builtin := by
  show (if !isBuiltin t then _ else _) = _
  rw [isBuiltin_eq, h]
  rfl

/-- A command line without operators is one `execve`, -/
theorem command_external (h : builtinOf t = none) (ts : List Token) :
    command (t :: ts) = .ok (.execve t (t :: ts)) := by
  have hvector : vector (pointers (t :: ts)) = t :: ts := vector_map_some (t :: ts) []
  rw [command, List.head?_cons, execute_external h, hvector]

/-- or one built-in command with its own arguments. -/
theorem command_builtin (h : builtinOf t = some b) (ts : List Token) :
    command (t :: ts) = (ownEffect b (t :: ts)).map .builtin := by
  rw [command, List.head?_cons, execute_builtin h, execBuiltin_own h (List.cons_ne_nil t ts)]

end Execute

end Shell
