import UniqueFreshman.DescriptorTableProofs
import UniqueFreshman.ShellCommandProofs

/-! # The shell — redirection and its undoing

    One round of the loop in `mysh.c` after `parse` and `set_bg`: `io_redirect`
    looks for the first `<` or `>` among the tokens, the command is executed,
    and `io_reset` restores the descriptors.  For an external command the
    descriptor is saved with `dup` and the stream reopened; a built-in command
    gets a stream of its own.  Both set the same flag, and `io_reset` restores
    from the saved descriptor whenever the flag is set.

    A program works on a copy of the descriptors, and the built-in commands
    change none, but they are executed in the shell itself: it exits where
    `unix_error` is called, and `kill` and `export` read an argument that may not
    be there.  What the kernel answers to them is a parameter (`Host`).

    An open file is a number, and a stream is the descriptor it was opened with.
    `rplc_stderr` is never set, `fork` succeeds, no program sends the shell a
    signal, and freeing the arguments is left out. -/

namespace Shell

open CallSequence DescriptorTable

/-- A `FILE` of the shell. -/
structure Stream where
  fileno : Nat
  isOpen : Bool
deriving DecidableEq

/-- The variables of one direction: `input_file`, `input_fd`, `saved_stdin` and
    `rplc_stdin`, or those of the output. -/
structure Side where
  file : Option Stream
  fd : Nat
  saved : Int
  rplc : Bool
deriving DecidableEq

/-- The shell's globals and its descriptors; `opened` counts the files opened so far. -/
structure State where
  fds : Table Nat
  opened : Nat
  input : Side
  output : Side
  pipeFd : Nat × Nat

inductive Direction where
  | input | output
deriving DecidableEq

def direction : Token → Option Direction
  | ['<'] => some .input
  | ['>'] => some .output
  | _ => none

/-- The first redirection among the tokens. -/
def redirection (argv : List Token) : Option (Nat × Direction) :=
  let i := argv.findIdx fun a => (direction a).isSome
  (argv[i]?.bind direction).map fun dir => (i, dir)

/-- Redirect the side of the standard descriptor `std` to a file that can be opened. -/
def redirectSide (s : State) (std : Nat) (side : Side) (builtin : Bool) :
    Except Fault (Table Nat × Side) :=
  if builtin then
    match s.fds.alloc s.opened with
    | none => .error .nullPointer
    | some (fd, fds) =>
        .ok (fds, { side with file := some ⟨fd, true⟩, fd := fd, rplc := true })
  else
    match s.fds.dup std with
    | none => .ok (s.fds.put std s.opened, { side with saved := -1, rplc := true })
    | some (fd, fds) => .ok (fds.put std s.opened, { side with saved := fd, rplc := true })

/-- `io_redirect`: the state, the tokens that are left, and whether there was a
    redirection. -/
def ioRedirect (s : State) (argv : List Token) : Except Fault (State × List Token × Bool) :=
  match redirection argv with
  | none => .ok (s, argv, false)
  | some (i, dir) =>
      let builtin := isBuiltin (argv.headD [])
      match argv[i + 1]?, dir with
      | none, _ => .error .nullPointer
      | some _, .input => do
          let (fds, side) ← redirectSide s 0 s.input builtin
          .ok ({ s with fds := fds, opened := s.opened + 1, input := side }, argv.take i, true)
      | some _, .output => do
          let (fds, side) ← redirectSide s 1 s.output builtin
          .ok ({ s with fds := fds, opened := s.opened + 1, output := side }, argv.take i, true)

/-- `set_pipe` in the shell itself: a pipe for the two children, closed afterwards.  `Pipe`
    does not notice a failure, and then `pipe_fd` keeps its values. -/
def setPipe (s : State) (argv : List Token) : State :=
  if ['|'] ∈ argv then
    let (pipeFd, fds) := match s.fds.pipe s.opened (s.opened + 1) with
      | none => (s.pipeFd, s.fds)
      | some (r, w, fds) => ((r, w), fds)
    { s with fds := (fds.close pipeFd.1).close pipeFd.2, opened := s.opened + 2, pipeFd := pipeFd }
  else s

/-- Close a stream that is not the standard one; it must not have been closed before. -/
def fcloseUnless (std : Nat) (fds : Table Nat) (f : Stream) : Except Fault (Table Nat × Stream) :=
  if !f.isOpen then .error .closedStream
  else if f.fileno ≠ std then .ok (fds.close f.fileno, { f with isOpen := false })
  else .ok (fds, f)

/-- The flag and the descriptor of one side. -/
def restore (std : Nat) (fds : Table Nat) (side : Side) : Table Nat :=
  if side.rplc then fds.dup2 side.saved std else fds

def ioReset (s : State) : Except Fault State :=
  let fds := restore 1 (restore 0 s.fds s.input) s.output
  let input := { s.input with fd := 0, rplc := false }
  let output := { s.output with fd := 1, rplc := false }
  match s.input.file with
  | none => .ok { s with fds := fds, input := input, output := output }
  | some f => do
      let (fds, f) ← fcloseUnless 0 fds f
      -- the second test is of `input_file` again
      match s.output.file with
      | none => .error .nullPointer
      | some g =>
          let (fds, g) ← fcloseUnless 1 fds g
          .ok { s with fds := fds, input := { input with file := some f },
                       output := { output with file := some g } }

/-! ## Execution -/

/-- What the kernel answers while a line is executed: to `chdir`, to `getcwd`, and whether a
    signal that is sent to a process or a group of them reaches the shell. -/
structure Host where
  chdir : Token → Bool
  getcwd : Bool
  reaches : Int → Bool

/-- Why there is no next line: a fault, a buffer that is read past its end, a call of `exit`,
    or a signal. -/
inductive Stop where
  | fault (f : Fault)
  | overread
  | exited
  | killed
deriving DecidableEq, Repr

def isspace (c : Char) : Bool := c == ' ' || ('\t' ≤ c && c ≤ '\r')

/-- The number that the digits at the beginning stand for. -/
def digits (cs : List Char) : Nat :=
  (cs.takeWhile Char.isDigit).foldl (fun n c => 10 * n + (c.toNat - '0'.toNat)) 0

/-- The value of `atoi`, for a number that is an `int`. -/
def atoi (t : Token) : Int :=
  match t.dropWhile isspace with
  | '-' :: cs => -(digits cs : Int)
  | '+' :: cs => digits cs
  | cs => digits cs

/-- What becomes of the shell in a built-in command: `unix_error` exits, `myKill` sends no
    signal to process `0`, and `myExport` goes on until it finds a `=`. -/
def runBuiltin (host : Host) : Effect → Except Stop Unit
  | .echo _ | .nothing => .ok ()
  | .exit => .error .exited
  | .chdir target => if target.any host.chdir then .ok () else .error .exited
  | .pwd => if host.getcwd then .ok () else .error .exited
  | .kill pid => if atoi pid ≠ 0 ∧ host.reaches (atoi pid) then .error .killed else .ok ()
  | .setenv assignment => if '=' ∈ assignment then .ok () else .error .overread

/-- The command of a line without a pipe. -/
def executeCommand (host : Host) (argv : List Token) : Except Stop Unit := do
  match ← (command argv).mapError .fault with
  | .execve _ _ => .ok ()
  | .builtin effect => runBuiltin host effect

/-! ## Command lines -/

/-- What the property is about: the files of descriptors `0` and `1`, and the two variables. -/
structure View where
  stdin : Option Nat
  stdout : Option Nat
  inputFd : Nat
  outputFd : Nat
deriving DecidableEq

def view (s : State) : View := ⟨s.fds.slots 0, s.fds.slots 1, s.input.fd, s.output.fd⟩

/-- The tokens of a line, and what the kernel answers while it is executed. -/
structure Line where
  argv : List Token
  host : Host

/-- What stands between `io_redirect` and `io_reset`: a pipeline, if the line has no
    redirection, or a command. -/
def executeLine (host : Host) (s : State) (argv : List Token) (redirected : Bool) :
    Except Stop State :=
  if redirected = false ∧ ['|'] ∈ argv then .ok (setPipe s argv)
  else (executeCommand host argv).map fun _ => s

/-- One command line, and what the shell's descriptors are afterwards. -/
def commandLine (s : State) (line : Line) : Except Stop (State × View) := do
  let (s, argv, redirected) ← (ioRedirect s line.argv).mapError .fault
  let s ← executeLine line.host s argv redirected
  let s ← (ioReset s).mapError .fault
  .ok (s, view s)

/-! ## What one command line keeps -/

variable {f₀ f₁ : Nat} {s : State} {argv : List Token}

/-- Between two command lines: descriptors `0` and `1` refer to `f₀` and `f₁`, and as long
    as no built-in command had a `<`, so does the saved input; the output stream is open. -/
structure Ready (f₀ f₁ : Nat) (s : State) : Prop where
  slot0 : s.fds.slots 0 = some f₀
  slot1 : s.fds.slots 1 = some f₁
  inputFd : s.input.fd = 0
  outputFd : s.output.fd = 1
  inputKept : s.input.rplc = false
  outputKept : s.output.rplc = false
  saved : s.input.file = none → ∃ k : Nat, s.input.saved = k ∧ s.fds.slots k = some f₀
  stream : s.input.file = none → ∀ g, s.output.file = some g →
    g.isOpen = true ∧ g.fileno ≠ 0 ∧ g.fileno ≠ 1

/-- What a redirection needs: a file name, a free descriptor, and for a built-in command,
    if it is a `<`, that there is an output stream; if it is a `>`, that the descriptor saved
    last refers to the file of descriptor `1`.  A pipe needs two free descriptors. -/
def Needs (s : State) (argv : List Token) : Option (Nat × Direction) → Prop
  | none => ['|'] ∈ argv → (s.fds.pipe s.opened (s.opened + 1)).isSome = true
  | some (i, .input) =>
      ((argv[i + 1]?).isSome = true ∧ s.fds.lowest.isSome = true) ∧
        (isBuiltin (argv.headD []) = true → s.output.file.isSome = true)
  | some (i, .output) =>
      ((argv[i + 1]?).isSome = true ∧ s.fds.lowest.isSome = true) ∧
        (isBuiltin (argv.headD []) = true →
          0 ≤ s.output.saved ∧ s.fds.slots s.output.saved.toNat = s.fds.slots 1)

/-- The tokens in front of the redirection. -/
def inFront (argv : List Token) : List Token :=
  match redirection argv with
  | none => argv
  | some (i, _) => argv.take i

/-- A command that the shell outlives: a program, `echo`, a `cd` to a directory that `chdir`
    accepts, a `pwd` that `getcwd` answers, a `kill` of another process, or an `export` of an
    assignment. -/
def survives (host : Host) : List Token → Bool
  | [] => false
  | cmd :: args =>
      match builtinOf cmd with
      | none | some .echo => true
      | some .exit => false
      | some .cd => args.head?.any host.chdir
      | some .pwd => host.getcwd
      | some .kill => args.head?.any fun pid => atoi pid == 0 || !host.reaches (atoi pid)
      | some .export => args.head?.any fun assignment => decide ('=' ∈ assignment)

/-- A command line that can be undone: no built-in command had a `<` before it, its needs are
    met, and unless it is a pipeline the shell outlives its command. -/
def Undoable (s : State) (line : Line) : Prop :=
  s.input.file = none ∧ Needs s line.argv (redirection line.argv) ∧
    (redirection line.argv = none ∧ ['|'] ∈ line.argv ∨
      survives line.host (inFront line.argv) = true)

instance (s : State) (argv : List Token) : ∀ r, Decidable (Needs s argv r)
  | none => inferInstanceAs (Decidable (_ → _))
  | some (_, .input) => inferInstanceAs (Decidable (_ ∧ (_ → _)))
  | some (_, .output) => inferInstanceAs (Decidable (_ ∧ (_ → _ ∧ _)))

instance (s : State) (line : Line) : Decidable (Undoable s line) :=
  inferInstanceAs (Decidable (_ ∧ _ ∧ (_ ∧ _ ∨ _)))

/-- Without an `input_file` the second test of `io_reset` does not look at `output_file`. -/
theorem ioReset_of_none (h : s.input.file = none) :
    ioReset s = .ok { s with
      fds := restore 1 (restore 0 s.fds s.input) s.output
      input := { s.input with fd := 0, rplc := false }
      output := { s.output with fd := 1, rplc := false } } := by
  rw [ioReset, h]

/-- The pipe of a pipeline is gone when it ends. -/
theorem setPipe_eq (h : ['|'] ∈ argv → (s.fds.pipe s.opened (s.opened + 1)).isSome = true) :
    (setPipe s argv).fds = s.fds ∧ (setPipe s argv).input = s.input ∧
      (setPipe s argv).output = s.output := by
  rw [setPipe]
  split
  · next hpipe =>
      obtain ⟨⟨r, w, fds⟩, hfds⟩ := Option.isSome_iff_exists.mp (h hpipe)
      simp only [hfds, and_self, and_true]
      exact Table.close_pipe hfds
  · exact ⟨rfl, rfl, rfl⟩

/-- A round that ends with more descriptors in use than before leaves the shell ready. -/
theorem Ready.of_extends (h : Ready f₀ f₁ s) {s' : State} (hfds : s.fds.Extends s'.fds)
    (hin : s'.input.fd = 0 ∧ s'.input.rplc = false)
    (hout : s'.output.fd = 1 ∧ s'.output.rplc = false)
    (hsaved : ∃ k : Nat, s'.input.saved = k ∧ s'.fds.slots k = some f₀)
    (hstream : ∀ g, s'.output.file = some g →
      g.isOpen = true ∧ g.fileno ≠ 0 ∧ g.fileno ≠ 1) : Ready f₀ f₁ s' where
  slot0 := hfds 0 f₀ h.slot0
  slot1 := hfds 1 f₁ h.slot1
  inputFd := hin.1
  outputFd := hout.1
  inputKept := hin.2
  outputKept := hout.2
  saved := fun _ => hsaved
  stream := fun _ => hstream

/-- What a ready shell looks like from outside. -/
theorem Ready.view_eq (h : Ready f₀ f₁ s) : view s = ⟨some f₀, some f₁, 0, 1⟩ := by
  rw [view, h.slot0, h.slot1, h.inputFd, h.outputFd]

/-- The descriptors go from `s` over `io_redirect`, and the pipe if there is one, and
    `io_reset` to `s'`. -/
def Undone (s : State) (argv : List Token) (s' : State) : Prop :=
  ∃ s₁ r, ioRedirect s argv = .ok (s₁, inFront argv, r) ∧
    (r = false ↔ redirection argv = none) ∧
    ioReset (if r then s₁ else setPipe s₁ (inFront argv)) = .ok s'

/-- A redirection that is set up and reset. -/
theorem redirected_eq {s₁ s' : State} {i : Nat} {dir : Direction}
    (hred : redirection argv = some (i, dir))
    (hdir : ioRedirect s argv = .ok (s₁, argv.take i, true)) (hreset : ioReset s₁ = .ok s') :
    Undone s argv s' := by
  refine ⟨s₁, true, ?_, ?_, hreset⟩
  · rw [hdir, inFront, hred]
  · rw [hred]
    exact iff_of_false Bool.true_eq_false.mp (Option.some_ne_none _)

/-- **THE SHELL OUTLIVES** a command just when it is one that it survives. -/
theorem executeCommand_ok_iff {host : Host} {argv : List Token} :
    executeCommand host argv = .ok () ↔ survives host argv = true := by
  cases argv with
  | nil => exact iff_of_false (by rintro ⟨⟩) (by rintro ⟨⟩)
  | cons cmd args =>
      rw [survives]
      cases hcmd : builtinOf cmd with
      | none =>
          rw [executeCommand, command_external hcmd]
          exact iff_of_true rfl rfl
      | some b =>
          rw [executeCommand, command_builtin hcmd]
          cases b with
          | echo => exact iff_of_true rfl rfl
          | exit => exact iff_of_false (by rintro ⟨⟩) (by rintro ⟨⟩)
          | cd =>
              have hone : (cmd :: args)[1]? = args.head? := by cases args <;> rfl
              rw [ownEffect, hone]
              show runBuiltin host (.chdir args.head?) = _ ↔ _
              simp [runBuiltin]
          | pwd =>
              show runBuiltin host .pwd = _ ↔ _
              simp [runBuiltin]
          | kill =>
              cases args with
              | nil => exact iff_of_false (by rintro ⟨⟩) (by rintro ⟨⟩)
              | cons pid args =>
                  show runBuiltin host (.kill pid) = _ ↔ _
                  simp [runBuiltin, imp_iff_not_or]
          | «export» =>
              cases args with
              | nil => exact iff_of_false (by rintro ⟨⟩) (by rintro ⟨⟩)
              | cons assignment args =>
                  show runBuiltin host (.setenv assignment) = _ ↔ _
                  simp [runBuiltin]

/-- A line whose command is executed, if it is no pipeline, and whose redirection is undone. -/
theorem commandLine_eq {line : Line} {s' : State} (h : Undone s line.argv s')
    (hexec : redirection line.argv = none ∧ ['|'] ∈ line.argv ∨
      survives line.host (inFront line.argv) = true) :
    commandLine s line = .ok (s', view s') := by
  obtain ⟨s₁, r, hred, hr, hreset⟩ := h
  have hfront (hnone : redirection line.argv = none) : inFront line.argv = line.argv := by
    rw [inFront, hnone]
  rw [commandLine, hred]
  show executeLine line.host s₁ (inFront line.argv) r >>= _ = _
  rw [executeLine]
  by_cases hpipe : r = false ∧ ['|'] ∈ inFront line.argv
  · rw [if_pos hpipe, ok_bind]
    rw [hpipe.1, if_neg Bool.false_ne_true] at hreset
    rw [hreset]
    rfl
  · -- without a pipe the command is executed, and `set_pipe` does nothing
    have halive : survives line.host (inFront line.argv) = true := by
      refine hexec.resolve_left fun h => hpipe ⟨hr.mpr h.1, ?_⟩
      rw [hfront h.1]
      exact h.2
    have hsame : (if r then s₁ else setPipe s₁ (inFront line.argv)) = s₁ := by
      cases r with
      | true => rfl
      | false =>
          rw [if_neg Bool.false_ne_true, setPipe, if_neg fun hmem => hpipe ⟨rfl, hmem⟩]
    rw [hsame] at hreset
    rw [if_neg hpipe, executeCommand_ok_iff.mpr halive, Except.map, ok_bind, hreset]
    rfl

/-- A command line without redirection. -/
theorem plain_spec (h : Ready f₀ f₁ s) (hfile : s.input.file = none)
    (hred : redirection argv = none)
    (hpipe : ['|'] ∈ argv → (s.fds.pipe s.opened (s.opened + 1)).isSome = true) :
    ∃ s', Undone s argv s' ∧ Ready f₀ f₁ s' := by
  obtain ⟨hfds, hin, hout⟩ := setPipe_eq hpipe
  have hfront : inFront argv = argv := by rw [inFront, hred]
  have hredirect : ioRedirect s argv = .ok (s, inFront argv, false) := by
    rw [ioRedirect, hred, hfront]
  have hreset := ioReset_of_none (s := setPipe s argv) (hin ▸ hfile)
  rw [← hfront] at hreset
  refine ⟨_, ⟨s, false, hredirect, iff_of_true rfl hred, hreset⟩, ?_⟩
  rw [hfront]
  have hsame : restore 1 (restore 0 (setPipe s argv).fds (setPipe s argv).input)
      (setPipe s argv).output = s.fds := by
    rw [hin, hout, hfds, restore, restore, h.inputKept, h.outputKept]
    rfl
  refine h.of_extends ?_ ⟨rfl, rfl⟩ ⟨rfl, rfl⟩ ?_ ?_
  · intro i a hi
    show Table.slots (restore 1 _ _) i = _
    rw [hsame]
    exact hi
  · show ∃ k : Nat, (setPipe s argv).input.saved = k ∧ Table.slots (restore 1 _ _) k = _
    rw [hsame, hin]
    exact h.saved hfile
  · show ∀ g, (setPipe s argv).output.file = some g → _
    rw [hout]
    exact h.stream hfile

section Redirected

variable {i : Nat} {fds : Table Nat} {side : Side}

theorem ioRedirect_input (hred : redirection argv = some (i, .input))
    (hname : (argv[i + 1]?).isSome = true) {b : Bool} (hcmd : isBuiltin (argv.headD []) = b)
    (hside : redirectSide s 0 s.input b = .ok (fds, side)) :
    ioRedirect s argv =
      .ok ({ s with fds := fds, opened := s.opened + 1, input := side }, argv.take i, true) := by
  obtain ⟨name, hname⟩ := Option.isSome_iff_exists.mp hname
  simp only [ioRedirect, hred, hname, hcmd, hside]
  rfl

theorem ioRedirect_output (hred : redirection argv = some (i, .output))
    (hname : (argv[i + 1]?).isSome = true) {b : Bool} (hcmd : isBuiltin (argv.headD []) = b)
    (hside : redirectSide s 1 s.output b = .ok (fds, side)) :
    ioRedirect s argv =
      .ok ({ s with fds := fds, opened := s.opened + 1, output := side }, argv.take i, true) := by
  obtain ⟨name, hname⟩ := Option.isSome_iff_exists.mp hname
  simp only [ioRedirect, hred, hname, hcmd, hside]
  rfl

/-- An external command's side is saved and reopened. -/
theorem redirectSide_external {std f : Nat} (hstd : s.fds.slots std = some f)
    (hfree : s.fds.lowest.isSome = true) (side : Side) :
    ∃ j t, s.fds.dup std = some (j, t) ∧
      redirectSide s std side false =
        .ok (t.put std s.opened, { side with saved := j, rplc := true }) := by
  obtain ⟨j, t, halloc⟩ := Table.exists_alloc hfree f
  have hdup : s.fds.dup std = some (j, t) := by rw [Table.dup, hstd, Option.bind_some, halloc]
  exact ⟨j, t, hdup, by simp only [redirectSide, hdup, Bool.false_eq_true, if_false]⟩

/-- An external command with `<`. -/
theorem external_input_spec (h : Ready f₀ f₁ s) (hfile : s.input.file = none)
    (hred : redirection argv = some (i, .input)) (hname : (argv[i + 1]?).isSome = true)
    (hfree : s.fds.lowest.isSome = true) (hcmd : isBuiltin (argv.headD []) = false) :
    ∃ s', Undone s argv s' ∧ Ready f₀ f₁ s' := by
  obtain ⟨j, t, hdup, hside⟩ := redirectSide_external h.slot0 hfree s.input
  obtain ⟨hext, hsaved⟩ := Table.dup_put_dup2 h.slot0 hdup s.opened
  have hredirect := ioRedirect_input hred hname hcmd hside
  refine ⟨_, redirected_eq hred hredirect (ioReset_of_none hfile), ?_⟩
  have hfds : restore 1 (restore 0 (t.put 0 s.opened) { s.input with saved := j, rplc := true })
      s.output = (t.put 0 s.opened).dup2 j 0 := by
    rw [restore, h.outputKept]
    rfl
  refine h.of_extends ?_ ⟨rfl, rfl⟩ ⟨rfl, rfl⟩ ⟨j, rfl, ?_⟩ (h.stream hfile)
  · exact hfds ▸ hext
  · exact hfds ▸ hsaved

/-- An external command with `>`. -/
theorem external_output_spec (h : Ready f₀ f₁ s) (hfile : s.input.file = none)
    (hred : redirection argv = some (i, .output)) (hname : (argv[i + 1]?).isSome = true)
    (hfree : s.fds.lowest.isSome = true) (hcmd : isBuiltin (argv.headD []) = false) :
    ∃ s', Undone s argv s' ∧ Ready f₀ f₁ s' := by
  obtain ⟨j, t, hdup, hside⟩ := redirectSide_external h.slot1 hfree s.output
  obtain ⟨hext, -⟩ := Table.dup_put_dup2 h.slot1 hdup s.opened
  have hredirect := ioRedirect_output hred hname hcmd hside
  refine ⟨_, redirected_eq hred hredirect (ioReset_of_none hfile), ?_⟩
  have hfds : restore 1 (restore 0 (t.put 1 s.opened) s.input)
      { s.output with saved := j, rplc := true } = (t.put 1 s.opened).dup2 j 1 := by
    rw [restore, restore, h.inputKept]
    rfl
  obtain ⟨k, hk, hslot⟩ := h.saved hfile
  refine h.of_extends ?_ ⟨rfl, rfl⟩ ⟨rfl, rfl⟩ ⟨k, hk, ?_⟩ (h.stream hfile)
  · exact hfds ▸ hext
  · exact hfds ▸ hext k f₀ hslot

/-- A built-in command gets a stream at a descriptor that was free. -/
theorem redirectSide_builtin (hfree : s.fds.lowest.isSome = true) (std : Nat) (side : Side) :
    ∃ fd t, s.fds.alloc s.opened = some (fd, t) ∧
      redirectSide s std side true =
        .ok (t, { side with file := some ⟨fd, true⟩, fd := fd, rplc := true }) := by
  obtain ⟨fd, t, halloc⟩ := Table.exists_alloc hfree s.opened
  exact ⟨fd, t, halloc, by simp only [redirectSide, halloc, if_true]⟩

/-- The new stream is not one of the standard ones. -/
theorem Ready.fileno_ne (h : Ready f₀ f₁ s) {fd : Nat} {t : Table Nat}
    (halloc : s.fds.alloc s.opened = some (fd, t)) : fd ≠ 0 ∧ fd ≠ 1 := by
  obtain ⟨hfree, -⟩ := Table.alloc_eq_some halloc
  constructor
  · rintro rfl
    exact nomatch hfree.symm.trans h.slot0
  · rintro rfl
    exact nomatch hfree.symm.trans h.slot1

/-- A built-in command with `>`, when `saved_stdout` refers to the file of descriptor 1. -/
theorem builtin_output_spec (h : Ready f₀ f₁ s) (hfile : s.input.file = none)
    (hred : redirection argv = some (i, .output)) (hname : (argv[i + 1]?).isSome = true)
    (hfree : s.fds.lowest.isSome = true) (hcmd : isBuiltin (argv.headD []) = true)
    (hpos : 0 ≤ s.output.saved) (hslot : s.fds.slots s.output.saved.toNat = s.fds.slots 1) :
    ∃ s', Undone s argv s' ∧ Ready f₀ f₁ s' := by
  obtain ⟨fd, t, halloc, hside⟩ := redirectSide_builtin hfree 1 s.output
  have hext := Table.alloc_extends halloc
  have hredirect := ioRedirect_output hred hname hcmd hside
  refine ⟨_, redirected_eq hred hredirect (ioReset_of_none hfile), ?_⟩
  have hfds : restore 1 (restore 0 t s.input)
      { s.output with file := some ⟨fd, true⟩, fd := fd, rplc := true } = t.put 1 f₁ := by
    have hdup : t.dup2 s.output.saved 1 = t.put 1 f₁ := by
      rw [← Int.toNat_of_nonneg hpos]
      exact Table.dup2_of_slot (hext _ f₁ (hslot.trans h.slot1))
    rw [restore, restore, h.inputKept]
    exact hdup
  have hput : t.Extends (t.put 1 f₁) :=
    Table.extends_put fun b hb => Option.some.inj (hb.symm.trans (hext 1 f₁ h.slot1))
  obtain ⟨k, hk, hsaved⟩ := h.saved hfile
  refine h.of_extends ?_ ⟨rfl, rfl⟩ ⟨rfl, rfl⟩ ⟨k, hk, ?_⟩ ?_
  · intro j a hj
    exact hfds ▸ hput j a (hext j a hj)
  · exact hfds ▸ hput k f₀ (hext k f₀ hsaved)
  · intro g hg
    obtain rfl := Option.some.inj hg
    exact ⟨rfl, h.fileno_ne halloc⟩

/-- After the first `<` of a built-in command `io_reset` closes both streams. -/
theorem ioReset_of_builtin_input {t : Table Nat} {fd : Nat} {g : Stream}
    (hdup : t.dup2 s.input.saved 0 = t.put 0 f₀) (hkept : s.output.rplc = false)
    (hg : s.output.file = some g) (hopen : g.isOpen = true) (hg1 : g.fileno ≠ 1)
    (hfd0 : fd ≠ 0) :
    ioReset { s with
      fds := t
      opened := s.opened + 1
      input := { s.input with file := some ⟨fd, true⟩, fd := fd, rplc := true } } =
      .ok { s with
        fds := ((t.put 0 f₀).close fd).close g.fileno
        opened := s.opened + 1
        input := { s.input with file := some ⟨fd, false⟩, fd := 0, rplc := false }
        output := { s.output with
          file := some { g with isOpen := false }
          fd := 1
          rplc := false } } := by
  have hfds : restore 1 (restore 0 t
      { s.input with file := some ⟨fd, true⟩, fd := fd, rplc := true }) s.output =
        t.put 0 f₀ := by
    rw [restore, hkept, restore]
    exact hdup
  simp only [ioReset, hfds, fcloseUnless, hg, hopen, ok_bind, if_pos hfd0, if_pos hg1,
    Bool.not_true, Bool.false_eq_true, if_false]

/-- A built-in command with `<`, when `output_file` is not null. -/
theorem builtin_input_spec (h : Ready f₀ f₁ s) (hfile : s.input.file = none)
    (hred : redirection argv = some (i, .input)) (hname : (argv[i + 1]?).isSome = true)
    (hfree : s.fds.lowest.isSome = true) (hcmd : isBuiltin (argv.headD []) = true)
    (hout : s.output.file.isSome = true) :
    ∃ s', Undone s argv s' ∧ Ready f₀ f₁ s' := by
  obtain ⟨fd, t, halloc, hside⟩ := redirectSide_builtin hfree 0 s.input
  obtain ⟨g, hg⟩ := Option.isSome_iff_exists.mp hout
  obtain ⟨hopen, hg0, hg1⟩ := h.stream hfile g hg
  obtain ⟨hfd0, hfd1⟩ := h.fileno_ne halloc
  obtain ⟨k, hk, hsaved⟩ := h.saved hfile
  have hext := Table.alloc_extends halloc
  have hdup : t.dup2 s.input.saved 0 = t.put 0 f₀ := by
    rw [hk]
    exact Table.dup2_of_slot (hext k f₀ hsaved)
  have hreset := ioReset_of_builtin_input hdup h.outputKept hg hopen hg1 hfd0
  refine ⟨_, redirected_eq hred (ioRedirect_input hred hname hcmd hside) hreset, ?_⟩
  refine ⟨?_, ?_, rfl, rfl, rfl, rfl, nofun, nofun⟩
  · show (((t.put 0 f₀).close fd).close g.fileno).slots 0 = _
    rw [Table.close_slots, if_neg hg0.symm, Table.close_slots, if_neg hfd0.symm,
      Table.put_slots, if_pos rfl]
  · show (((t.put 0 f₀).close fd).close g.fileno).slots 1 = _
    rw [Table.close_slots, if_neg hg1.symm, Table.close_slots, if_neg hfd1.symm,
      Table.put_slots, if_neg (by decide)]
    exact hext 1 f₁ h.slot1

end Redirected

/-- **WHAT IS NEEDED** for the descriptors is enough for them. -/
theorem undone_of_needs (h : Ready f₀ f₁ s) (hfile : s.input.file = none)
    (hok : Needs s argv (redirection argv)) : ∃ s', Undone s argv s' ∧ Ready f₀ f₁ s' := by
  cases hred : redirection argv with
  | none =>
      rw [hred] at hok
      exact plain_spec h hfile hred hok
  | some r =>
      rw [hred] at hok
      cases hcmd : isBuiltin (argv.headD []) with
      | false =>
          match r, hok with
          | (i, .input), ⟨⟨hname, hfree⟩, _⟩ =>
              exact external_input_spec h hfile hred hname hfree hcmd
          | (i, .output), ⟨⟨hname, hfree⟩, _⟩ =>
              exact external_output_spec h hfile hred hname hfree hcmd
      | true =>
          match r, hok with
          | (i, .input), ⟨⟨hname, hfree⟩, hbuiltin⟩ =>
              exact builtin_input_spec h hfile hred hname hfree hcmd (hbuiltin hcmd)
          | (i, .output), ⟨⟨hname, hfree⟩, hbuiltin⟩ =>
              obtain ⟨hpos, hslot⟩ := hbuiltin hcmd
              exact builtin_output_spec h hfile hred hname hfree hcmd hpos hslot

/-- **ONE COMMAND LINE** that can be undone is undone. -/
theorem commandLine_spec {line : Line} (h : Ready f₀ f₁ s) (hok : Undoable s line) :
    ∃ s', commandLine s line = .ok (s', ⟨some f₀, some f₁, 0, 1⟩) ∧ Ready f₀ f₁ s' := by
  obtain ⟨hfile, hneeds, hexec⟩ := hok
  obtain ⟨s', hundone, hready⟩ := undone_of_needs h hfile hneeds
  refine ⟨s', ?_, hready⟩
  rw [commandLine_eq hundone hexec, hready.view_eq]

/-- The shell when it starts, with the files `f₀` and `f₁` at descriptors `0` and `1`. -/
structure Started (f₀ f₁ : Nat) (s : State) : Prop where
  slot0 : s.fds.slots 0 = some f₀
  slot1 : s.fds.slots 1 = some f₁
  input : s.input = ⟨none, 0, 0, false⟩
  output : s.output = ⟨none, 1, 0, false⟩

theorem Started.ready (h : Started f₀ f₁ s) : Ready f₀ f₁ s where
  slot0 := h.slot0
  slot1 := h.slot1
  inputFd := by rw [h.input]
  outputFd := by rw [h.output]
  inputKept := by rw [h.input]
  outputKept := by rw [h.output]
  saved := fun _ => ⟨0, by rw [h.input]; rfl, h.slot0⟩
  stream := fun _ g hg => by rw [h.output] at hg; exact nomatch hg

/-- A shell with three open files and thirteen free descriptors. -/
def started : State where
  fds := ⟨16, fun i => if i < 3 then some i else none⟩
  opened := 3
  input := ⟨none, 0, 0, false⟩
  output := ⟨none, 1, 0, false⟩
  pipeFd := (0, 0)

/-- A host on which `chdir` and `getcwd` succeed and no signal reaches the shell. -/
def quiet : Host := ⟨fun _ => true, true, fun _ => false⟩

/-- `ls > f`, `echo > g`, `ls | wc`, `cd d` and `pwd < f`. -/
def fiveLines : List Line :=
  [⟨[['l', 's'], ['>'], ['f']], quiet⟩, ⟨[['e', 'c', 'h', 'o'], ['>'], ['g']], quiet⟩,
    ⟨[['l', 's'], ['|'], ['w', 'c']], quiet⟩, ⟨[['c', 'd'], ['d']], quiet⟩,
    ⟨[['p', 'w', 'd'], ['<'], ['f']], quiet⟩]

end Shell
