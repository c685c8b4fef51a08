import Mathlib
import UniqueFreshman.CallSequenceProofs

/-! # `xargs` — the vector that `myxargs.c` builds for `execve`

    `myxargs` reads once from its standard input and cuts what it has read into
    words, the runs of printable bytes other than spaces.  It copies the command
    and the words into the slots of an array on its stack.  The array has
    `MAX_ARGS` slots and is not initialised: what a slot holds before it is
    written is a parameter here, and a write outside of the array is a fault.

    The loop is a scanner that closes a word at the byte behind it; the last word
    is closed behind the loop.  `scan_eq` says that the two together store the
    words, one by one.  The null pointer that `execve` looks for is never stored. -/

namespace Myxargs

open CallSequence

abbrev Bytes := List UInt8

/-- `MAX_ARGS`. -/
def maxArgs : Nat := 50

/-- The size of `buf`. -/
def bufsize : Nat := 1024

/-- What a slot of `exec_argv` holds: a null pointer, a pointer to a string, or some other
    address. -/
inductive Slot where
  | null
  | string (s : Bytes)
  | wild
deriving DecidableEq, Repr

/-- A write outside of `exec_argv`. -/
inductive Overrun where
  | exec_argv
deriving DecidableEq, Repr

/-- `exec_argc` and `exec_argv`. -/
structure Args where
  exec_argc : Nat
  exec_argv : Vector Slot maxArgs
deriving DecidableEq

/-- The variables of the loop. -/
structure Scan where
  args : Args
  word : Bool
  st : Nat
deriving DecidableEq

/-- `isprint`, in the C locale. -/
def isprint (c : UInt8) : Bool := 0x20 ≤ c && c ≤ 0x7e

def space : UInt8 := 0x20

/-- `exec_argv[exec_argc++] = s`, for a new copy of the string. -/
def Args.push (a : Args) (s : Bytes) : Except Overrun Args :=
  if h : a.exec_argc < maxArgs then
    .ok ⟨a.exec_argc + 1, a.exec_argv.set a.exec_argc (.string s)⟩
  else .error .exec_argv

/-- The string in a block of `1 + n` bytes after `strncpy(block, from, n)` and
    `block[n] = '\0'`: a copy ends at the first null byte. -/
def copied (from' : Bytes) (n : Nat) : Bytes := (from'.take n).takeWhile (· ≠ 0)

/-- The word from `st` to `stop` is stored. -/
def closeWord (buf : Bytes) (s : Scan) (stop : Nat) : Except Overrun Scan := do
  let args ← s.args.push (copied (buf.drop s.st) (stop - s.st))
  .ok { s with args, word := false }

/-- One turn of the loop. -/
def scanByte (buf : Bytes) (s : Scan) (i : Nat) (c : UInt8) : Except Overrun Scan :=
  if s.word then
    if c = space ∨ ¬ isprint c then closeWord buf s i
    else .ok s
  else if c ≠ space ∧ isprint c then .ok { s with word := true, st := i }
  else .ok s

/-- The loop, from index `i` on. -/
def scanFrom (buf : Bytes) : Nat → Bytes → Scan → Except Overrun Scan
  | _, [], s => .ok s
  | i, c :: cs, s => do
      let s ← scanByte buf s i c
      scanFrom buf (i + 1) cs s

/-- Behind the loop: the input may end in a word. -/
def finish (buf : Bytes) (s : Scan) : Except Overrun Args := do
  if s.word then
    let s ← closeWord buf s buf.length
    .ok s.args
  else .ok s.args

/-- `main`, up to `execve`: the array it is called with, for what is read from the standard
    input and what the array held before. -/
def buildArgv (command : Bytes) (init : Vector Slot maxArgs) (stdin : Bytes) :
    Except Overrun Args := do
  let buf := stdin.take bufsize
  let args ← Args.push ⟨0, init⟩ command
  let s ← scanFrom buf 0 buf ⟨args, false, 0⟩
  finish buf s

/-- The vector `execve` finds: the strings up to the first null pointer.  Without one among the
    slots it goes on behind the array. -/
def passed : List Slot → Option (List Bytes)
  | [] => none
  | .null :: _ => some []
  | .string s :: slots => (passed slots).map (s :: ·)
  | .wild :: _ => none

/-! ## The words -/

/-- A printable byte that is not a space. -/
def isWordByte (c : UInt8) : Bool := c ≠ space && isprint c

/-- The longest runs of such bytes, in order: what is left between the other bytes. -/
def words (input : Bytes) : List Bytes :=
  (input.splitOnP fun c => !isWordByte c).filter (· ≠ [])

section Words

variable {cur : Bytes} {c : UInt8}

/-- A run of word bytes is one word. -/
theorem words_of_run (hcur : ∀ b ∈ cur, isWordByte b) :
    words cur = if cur = [] then [] else [cur] := by
  rw [words, List.splitOnP_eq_singleton fun b hb => by rw [hcur b hb]; rfl]
  by_cases h : cur = []
  · simp [h]
  · simp [h]

/-- A byte of no word ends the run in front of it. -/
theorem words_append_cons (hc : isWordByte c = false) (cs : Bytes) :
    words (cur ++ c :: cs) = words cur ++ words cs := by
  rw [words, List.splitOnP_append_cons _ _ (by rw [hc]; rfl), List.filter_append]
  rfl

theorem ne_space_and_isprint : (c ≠ space ∧ isprint c) ↔ isWordByte c = true := by
  rw [isWordByte, Bool.and_eq_true, decide_eq_true_eq]

theorem eq_space_or_not_isprint : (c = space ∨ ¬ isprint c) ↔ isWordByte c = false := by
  rw [← Bool.not_eq_true, ← ne_space_and_isprint, not_and_or, not_not]

/-- No word has a null byte in it. -/
theorem ne_zero_of_isWordByte (hc : isWordByte c = true) : c ≠ 0 := by
  rintro rfl
  exact absurd hc (by decide)

end Words

/-! ## The loop stores the words -/

/-- Strings stored one after the other. -/
def Args.pushAll (a : Args) (ws : List Bytes) : Except Overrun Args := ws.foldlM Args.push a

/-- After the bytes `pre` the loop is in the run `cur`, or in none. -/
structure Current (pre : Bytes) (s : Scan) (cur : Bytes) : Prop where
  word_iff : s.word = true ↔ cur ≠ []
  run : s.word = true → pre.drop s.st = cur
  bytes : ∀ b ∈ cur, isWordByte b

/-- Between words nothing has been read of one. -/
theorem Current.eq_nil {pre cur : Bytes} {s : Scan} (h : Current pre s cur)
    (hword : s.word = false) : cur = [] := by
  by_contra hne
  exact absurd (h.word_iff.mpr hne) (by rw [hword]; exact Bool.false_ne_true)

theorem Current.st_le {pre cur : Bytes} {s : Scan} (h : Current pre s cur)
    (hword : s.word = true) : s.st ≤ pre.length := by
  by_contra hst
  refine h.word_iff.mp hword ?_
  rw [← h.run hword, List.drop_eq_nil_of_le (by omega)]

/-- The copy of a run is the run. -/
theorem Current.copied {pre cur : Bytes} {s : Scan} (h : Current pre s cur)
    (hword : s.word = true) (cs : Bytes) :
    copied ((pre ++ cs).drop s.st) (pre.length - s.st) = cur := by
  have hrun := h.run hword
  rw [Myxargs.copied, List.drop_append_of_le_length (h.st_le hword), hrun]
  have hlength : pre.length - s.st = cur.length := by rw [← hrun, List.length_drop]
  rw [hlength, List.take_left, List.takeWhile_eq_self_iff]
  intro b hb
  rw [decide_eq_true_eq]
  exact ne_zero_of_isWordByte (h.bytes b hb)

theorem Args.pushAll_cons (a : Args) (w : Bytes) (ws : List Bytes) :
    a.pushAll (w :: ws) = a.push w >>= fun a' => a'.pushAll ws := rfl

/-- **THE SCANNER STORES THE WORDS** that begin with the run it is in. -/
theorem scan_eq (cs pre cur : Bytes) (s : Scan) (h : Current pre s cur) :
    (scanFrom (pre ++ cs) pre.length cs s >>= finish (pre ++ cs)) =
      s.args.pushAll (words (cur ++ cs)) := by
  induction cs generalizing pre cur s with
  | nil =>
      rw [List.append_nil cur, words_of_run h.bytes]
      show finish (pre ++ []) s = _
      cases hword : s.word with
      | false =>
          rw [finish, hword, if_pos (h.eq_nil hword)]
          rfl
      | true =>
          rw [finish, if_pos hword, if_neg (h.word_iff.mp hword), closeWord, List.length_append,
            List.length_nil, Nat.add_zero, h.copied hword, Args.pushAll_cons]
          cases s.args.push cur <;> rfl
  | cons c cs ih =>
      have hnext (s' : Scan) (cur' : Bytes) (h' : Current (pre ++ [c]) s' cur') :
          (scanFrom (pre ++ c :: cs) (pre.length + 1) cs s' >>= finish (pre ++ c :: cs)) =
            s'.args.pushAll (words (cur' ++ cs)) := by
        have hih := ih (pre ++ [c]) cur' s' h'
        rw [List.length_append, List.append_assoc] at hih
        exact hih
      show ((scanByte (pre ++ c :: cs) s pre.length c >>= fun s' =>
        scanFrom (pre ++ c :: cs) (pre.length + 1) cs s') >>= finish (pre ++ c :: cs)) = _
      cases hword : s.word with
      | false =>
          obtain rfl := h.eq_nil hword
          rw [scanByte, hword, if_neg Bool.false_ne_true]
          by_cases hc : isWordByte c = true
          · -- a word begins here
            rw [if_pos (ne_space_and_isprint.mpr hc)]
            refine hnext ⟨s.args, true, pre.length⟩ [c] ⟨by simp, fun _ => ?_, ?_⟩
            · exact List.drop_left
            · exact List.forall_mem_singleton.mpr hc
          · rw [if_neg (mt ne_space_and_isprint.mp hc)]
            rw [List.nil_append, ← List.nil_append (c :: cs),
              words_append_cons (Bool.eq_false_of_not_eq_true hc)]
            exact hnext s [] ⟨by simp [hword], fun h => absurd h (by simp [hword]), by simp⟩
      | true =>
          have hne := h.word_iff.mp hword
          rw [scanByte, if_pos hword]
          by_cases hc : isWordByte c = true
          · -- the word goes on
            have hcur : cur ++ c :: cs = (cur ++ [c]) ++ cs := List.append_cons cur c cs
            have hsep : ¬(c = space ∨ ¬ isprint c) := by
              rw [eq_space_or_not_isprint, hc]
              exact nofun
            rw [if_neg hsep, hcur]
            refine hnext s (cur ++ [c]) ⟨by simp [hword], fun _ => ?_, ?_⟩
            · rw [List.drop_append_of_le_length (h.st_le hword), h.run hword]
            · exact List.forall_mem_append.mpr ⟨h.bytes, List.forall_mem_singleton.mpr hc⟩
          · -- the byte behind the word
            have hc := Bool.eq_false_of_not_eq_true hc
            rw [if_pos (eq_space_or_not_isprint.mpr hc), closeWord, h.copied hword,
              words_append_cons hc, words_of_run h.bytes, if_neg hne, List.singleton_append,
              Args.pushAll_cons]
            cases s.args.push cur with
            | error e => rfl
            | ok a => exact hnext ⟨a, false, s.st⟩ [] ⟨by simp, nofun, by simp⟩

/-- The words are stored behind the command. -/
theorem buildArgv_eq (command : Bytes) (init : Vector Slot maxArgs) {stdin : Bytes}
    (h : stdin.length ≤ bufsize) :
    buildArgv command init stdin = Args.pushAll ⟨0, init⟩ (command :: words stdin) := by
  have hbuf : stdin.take bufsize = stdin := List.take_of_length_le h
  have hscan (args : Args) :=
    scan_eq stdin [] [] ⟨args, false, 0⟩ ⟨by simp, nofun, by simp⟩
  rw [buildArgv, hbuf, Args.pushAll_cons]
  cases Args.push ⟨0, init⟩ command with
  | error e => rfl
  | ok args => exact hscan args

/-! ## What is stored -/

/-- Strings that fit into the array stand in the slots from `exec_argc` on. -/
theorem pushAll_ok (ws : List Bytes) (a : Args) (h : a.exec_argc + ws.length ≤ maxArgs) :
    ∃ argv, a.pushAll ws = .ok ⟨a.exec_argc + ws.length, argv⟩ ∧
      argv.toList = a.exec_argv.toList.take a.exec_argc ++ ws.map .string ++
        a.exec_argv.toList.drop (a.exec_argc + ws.length) := by
  induction ws generalizing a with
  | nil => exact ⟨a.exec_argv, rfl, by simp⟩
  | cons w ws ih =>
      rw [List.length_cons] at h
      have hlt : a.exec_argc < maxArgs := by omega
      have hpush : a.push w = .ok ⟨a.exec_argc + 1, a.exec_argv.set a.exec_argc (.string w)⟩ :=
        dif_pos hlt
      obtain ⟨argv, hall, hlist⟩ := ih ⟨a.exec_argc + 1, a.exec_argv.set a.exec_argc (.string w)⟩
        (by simp only; omega)
      simp only [Vector.toList_set] at hall hlist
      rw [Args.pushAll_cons, hpush, ok_bind, hall, List.length_cons]
      refine ⟨argv, by congr 2; omega, ?_⟩
      have htake : (a.exec_argv.toList.set a.exec_argc (.string w)).take (a.exec_argc + 1) =
          a.exec_argv.toList.take a.exec_argc ++ [.string w] := by
        rw [List.take_add_one, List.take_set_of_le (Nat.le_refl _),
          List.getElem?_set_self (by simpa using hlt)]
        rfl
      rw [hlist, htake, List.drop_set_of_lt (by omega), Nat.add_right_comm a.exec_argc 1,
        Nat.add_assoc a.exec_argc, List.append_assoc (List.take _ _)]
      rfl

/-- Strings that do not fit overrun it. -/
theorem pushAll_overrun (ws : List Bytes) (a : Args) (ha : a.exec_argc ≤ maxArgs)
    (h : maxArgs < a.exec_argc + ws.length) : a.pushAll ws = .error .exec_argv := by
  induction ws generalizing a with
  | nil => exact absurd h (by simpa using ha)
  | cons w ws ih =>
      rw [Args.pushAll_cons, Args.push]
      rw [List.length_cons] at h
      split
      · exact ih _ (by simp only; omega) (by simp only; omega)
      · rfl

/-! ## What `execve` finds -/

/-- Strings in front are passed first. -/
theorem passed_append (ws : List Bytes) (slots : List Slot) :
    passed (ws.map .string ++ slots) = (passed slots).map (ws ++ ·) := by
  induction ws with
  | nil => simp
  | cons w ws ih =>
      show (passed (ws.map .string ++ slots)).map (w :: ·) = _
      rw [ih, Option.map_map]
      rfl

/-- Nothing but the strings stands in front of the null pointer just when it is the first slot. -/
theorem passed_eq_nil {slots : List Slot} : passed slots = some [] ↔ slots.head? = some .null := by
  cases slots with
  | nil => simp [passed]
  | cons slot slots =>
      cases slot with
      | null => simp [passed]
      | wild => simp [passed]
      | string s => cases passed slots <;> simp [passed]

/-- `execve` finds these strings just when a null pointer follows them. -/
theorem passed_strings {ws : List Bytes} {slots : List Slot} :
    passed (ws.map .string ++ slots) = some ws ↔ slots.head? = some .null := by
  rw [passed_append, ← passed_eq_nil]
  cases passed slots with
  | none => simp
  | some rest => simp

/-- **THE VECTOR IS RIGHT BY CHANCE.**  For every command and every input that one `read`
    delivers, `myxargs` stays inside of its array and calls `execve` with the command, the words
    of the input and a null pointer, just when the slot behind the last word is in the array and
    held a null pointer before. -/
theorem xargs_vector_iff (command stdin : Bytes) (init : Vector Slot maxArgs)
    (h : stdin.length ≤ bufsize) :
    (∃ args, buildArgv command init stdin = .ok args ∧
      passed args.exec_argv.toList = some (command :: words stdin)) ↔
    init.toList[(words stdin).length + 1]? = some .null := by
  rw [buildArgv_eq command init h]
  by_cases hfit : (command :: words stdin).length ≤ maxArgs
  · obtain ⟨argv, hpush, hlist⟩ := pushAll_ok (command :: words stdin) ⟨0, init⟩
      ((Nat.zero_add _).trans_le hfit)
    simp only [List.take_zero, List.nil_append, Nat.zero_add] at hpush hlist
    have hpassed : passed argv.toList = some (command :: words stdin) ↔
        init.toList[(words stdin).length + 1]? = some .null := by
      rw [hlist, passed_strings, List.head?_drop, List.length_cons]
    rw [hpush, ← hpassed]
    constructor
    · rintro ⟨args, hargs, hpassed⟩
      obtain rfl := Except.ok.inj hargs
      exact hpassed
    · intro hpassed
      exact ⟨_, rfl, hpassed⟩
  · -- no slot is left for the last word
    rw [pushAll_overrun _ _ (Nat.zero_le _) (by simpa using hfit),
      List.getElem?_eq_none (by rw [Vector.length_toList]; exact Nat.le_of_not_le hfit)]
    constructor
    · rintro ⟨args, hargs, -⟩
      exact nomatch hargs
    · exact nofun

/-- The command `a` and the words `b` and `c`, with an array of zeros. -/
theorem xargs_vector_of_two_words :
    ∃ args, buildArgv [97] (Vector.replicate maxArgs .null) [98, 32, 99, 10] = .ok args ∧
      passed args.exec_argv.toList = some [[97], [98], [99]] :=
  (xargs_vector_iff [97] [98, 32, 99, 10] (Vector.replicate maxArgs .null) (by decide)).mpr
    (by decide)

/-- The same with an array of other addresses: `execve` finds no null pointer.  And with fifty
    words the array is overrun, whatever it holds. -/
theorem xargs_vector_not_terminated :
    (¬ ∃ args, buildArgv [97] (Vector.replicate maxArgs .wild) [98, 32, 99, 10] = .ok args ∧
      passed args.exec_argv.toList = some ([97] :: words [98, 32, 99, 10])) ∧
    buildArgv [97] (Vector.replicate maxArgs .null) (List.replicate 50 [98, 32]).flatten =
      .error .exec_argv := by
  constructor
  · rintro ⟨args, hargs, hpassed⟩
    obtain rfl := Except.ok.inj hargs
    exact absurd hpassed (by decide)
  · decide

end Myxargs
