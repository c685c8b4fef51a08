import UniqueFreshman.CallSequenceProofs
import UniqueFreshman.OverlayListingProofs

/-! # The overlay file system — descriptors that stay open

    Apart from `create` and `open`, which hand a descriptor to FUSE, a request
    should leave the descriptors of the process as they were.  `write` opens a
    file and closes it; `read` closes its file only when `fi` is null, which FUSE
    never passes; and `readdir` opens two streams and closes the second.  So each
    `read` that can open its file, and each `readdir` that can open the lower
    directory, takes a descriptor that is never given back. -/

namespace Overlay

open FileTree FileCalls DescriptorTable CallSequence

variable {proc : Process} {dirs : Dirs} {w w' : World}

/-- A descriptor of the process is in use. -/
def Held (w : World) (fd : Nat) : Prop := (w.fds.slots fd).isSome = true

/-- The requests that hand no descriptor to FUSE, as FUSE makes them. -/
def Op.isTransient : Op → Bool
  | .create .. | .open .. => false
  | .read _ _ _ fiNull => !fiNull
  | _ => true

/-- The request opens what it does not close. -/
def leaks (proc : Process) (dirs : Dirs) (w : World) : Op → Bool
  | .readdir path _ => (opendir proc w (setFpath dirs path.string .lower)).isOk
  | .read path _ _ _ => (openFile proc w (file proc dirs w path) rdonly 0).isOk
  | _ => false

/-- A request as a call without an answer. -/
def request (proc : Process) (dirs : Dirs) (w : World) (op : Op) : World × Unit :=
  (apply proc dirs w op, ())

/-- The descriptors after a request: one more, if it leaks. -/
def Takes (leak : Bool) (w w' : World) : Prop :=
  if leak then ∃ fd f, w.fds.slots fd = none ∧ w'.fds = w.fds.put fd f else w'.fds = w.fds

/-- A failed call leaves the descriptors alone, so that only the successful one matters. -/
theorem reply_fds {x : Except Errno World} (h : ∀ w', x = .ok w' → w'.fds = w.fds) :
    (reply w x).2.fds = w.fds := by
  cases x with
  | error e => rfl
  | ok w' => exact h w' rfl

/-- The descriptor of the lower directory is never closed. -/
theorem readLower_takes (path : FusePath) (filler : List Filled → Filled → Bool) :
    Takes (opendir proc w (setFpath dirs path.string .lower)).isOk w
      (readLower proc dirs w path filler).2 := by
  rw [readLower]
  cases h : opendir proc w (setFpath dirs path.string .lower) with
  | error e => rfl
  | ok r =>
      obtain ⟨fd, q, w'⟩ := r
      obtain ⟨-, -, hfd, rfl⟩ := opendir_spec h
      exact ⟨fd, _, (Table.lowest_eq_some.mp hfd).2.1, rfl⟩

/-- The upper stream is closed. -/
theorem readUpper_fds (path : FusePath) (filler : List Filled → Filled → Bool)
    (passed : List Filled) : (readUpper proc dirs w path filler passed).2.fds = w.fds := by
  rw [readUpper]
  cases h : opendir proc w (setFpath dirs path.string .upper) with
  | error e => rfl
  | ok r =>
      obtain ⟨fd, q, w'⟩ := r
      obtain ⟨-, -, hfd, rfl⟩ := opendir_spec h
      exact Table.close_put (Table.lowest_eq_some.mp hfd).2.1 _

/-- `myfs_read` opens a file and does not close it. -/
theorem read_takes (path : FusePath) (size : Nat) (offset : Int) :
    Takes (openFile proc w (file proc dirs w path) rdonly 0).isOk w
      (myfsRead proc dirs w path size offset false).2.2 := by
  rw [myfsRead]
  cases h : openFile proc w (file proc dirs w path) rdonly 0 with
  | error e => rfl
  | ok r =>
      obtain ⟨fd, w'⟩ := r
      obtain ⟨-, q, -, -, hfree, rfl⟩ := openFile_keeps rfl rfl h
      refine ⟨fd, ⟨q, .rdonly⟩, hfree, ?_⟩
      simp only [readOpened]
      split <;> rfl

/-- `truncate` works on a path. -/
theorem truncate_fds (path : FusePath) (size ret₀ : Int) :
    (myfsTruncate proc dirs w path size ret₀).2.fds = w.fds := by
  rw [myfsTruncate]
  split
  · exact reply_fds fun w' h => (truncate_ok h).2
  · split
    · exact reply_fds fun w' h => (truncate_ok h).2
    · rfl

/-- **ONE REQUEST** takes a descriptor, or leaves them all as they were. -/
theorem apply_takes {op : Op} (hop : op.isTransient = true) :
    Takes (leaks proc dirs w op) w (apply proc dirs w op) := by
  cases op with
  | getattr path => rfl
  | access path mask ret₀ => rfl
  | readdir path filler =>
      have hlower : Takes (leaks proc dirs w (.readdir path filler)) w
          (readLower proc dirs w path filler).2 := readLower_takes path filler
      have hfds : (apply proc dirs w (.readdir path filler)).fds =
          (readLower proc dirs w path filler).2.fds := readUpper_fds path filler _
      rw [Takes] at hlower ⊢
      rw [hfds]
      exact hlower
  | create path mode flags => cases hop
  | «open» path flags ret₀ => cases hop
  | read path size offset fiNull =>
      obtain rfl : fiNull = false := (Bool.not_eq_true' fiNull).mp hop
      exact read_takes path size offset
  | write path data offset => exact (write_spec path data offset).1
  | unlink path => exact reply_fds fun w' h => (unlink_ok h).2
  | mkdir path mode => exact reply_fds fun w' h => (mkdir_ok h).2
  | truncate path size ret₀ => exact truncate_fds path size ret₀

/-- What is held stays held. -/
theorem Takes.held {leak : Bool} (h : Takes leak w w') {fd : Nat} (hfd : Held w fd) :
    Held w' fd := by
  cases leak with
  | false =>
      have hfds : w'.fds = w.fds := h
      rw [Held, hfds]
      exact hfd
  | true =>
      obtain ⟨k, f, -, hfds⟩ := h
      rw [Held, hfds, Table.put_slots]
      split
      · rfl
      · exact hfd

/-- A step that takes no descriptor holds no new one. -/
theorem Takes.kept_iff {leak : Bool} (h : Takes leak w w') :
    leak = false ↔ ∀ fd, Held w' fd → Held w fd := by
  cases leak with
  | false =>
      have hfds : w'.fds = w.fds := h
      refine ⟨fun _ fd hfd => ?_, fun _ => rfl⟩
      rw [Held, hfds] at hfd
      exact hfd
  | true =>
      obtain ⟨k, f, hfree, hfds⟩ := h
      have hnew : Held w' k := by
        rw [Held, hfds, Table.put_slots, if_pos rfl]
        rfl
      have hold : ¬ Held w k := by
        rw [Held, hfree]
        exact Bool.false_ne_true
      exact ⟨nofun, fun hkept => absurd (hkept k hnew) hold⟩

/-- **NO DESCRIPTOR IS LEAKED** over a sequence of requests just when, each time, the file a
    `read` names and the lower directory a `readdir` names could not be opened. -/
theorem descriptors_kept_iff (proc : Process) (dirs : Dirs) (w : World) (ops : List Op)
    (hops : ∀ op ∈ ops, op.isTransient = true) :
    (∀ fd, Held (specRun (request proc dirs) w ops).1 fd ↔ Held w fd) ↔
      Throughout (request proc dirs) (fun w op => leaks proc dirs w op = false) w ops := by
  have hgrow (w : World) (op : Op) (fd : Nat) (hop : op.isTransient = true) (hfd : Held w fd) :
      Held (request proc dirs w op).1 fd := (apply_takes hop).held hfd
  have hkept (w : World) (op : Op) (hop : op.isTransient = true) :
      leaks proc dirs w op = false ↔ ∀ fd, Held (request proc dirs w op).1 fd → Held w fd :=
    (apply_takes hop).kept_iff
  exact held_iff_throughout hgrow hkept hops

/-- A directory is made, a file is looked at, written, cut and removed, and a missing file is
    read. -/
def noReads : List Op :=
  [.mkdir directory 0o755, .getattr lowerFile, .access lowerFile fOk 0,
    .write lowerFile [7, 8] 0, .truncate lowerFile 1 0, .unlink lowerFile,
    .read missingFile 9 0 false]

/-- All requests but the last change or look at something; the last reads nothing. -/
theorem descriptors_kept_of_no_reads :
    (∀ op ∈ noReads, op.isTransient = true) ∧
      ∀ fd, Held (specRun (request anyone twoDirs) oneFile noReads).1 fd ↔ Held oneFile fd :=
  ⟨by decide, (descriptors_kept_iff anyone twoDirs oneFile noReads (by decide)).mpr
    (by decide +kernel)⟩

/-- **TWO DESCRIPTORS ARE LEFT OPEN**: by a `read` of the lower file, and by a `readdir`. -/
theorem read_and_readdir_leak :
    (∀ op ∈ [Op.read (pathOf 'f') 9 0 false, .readdir rootPath fun _ _ => false],
      op.isTransient = true) ∧
    (¬ Held oneFile 0 ∧ ¬ Held oneFile 1) ∧
    Held (specRun (request anyone twoDirs) oneFile
      [.read (pathOf 'f') 9 0 false, .readdir rootPath fun _ _ => false]).1 0 ∧
    Held (specRun (request anyone twoDirs) oneFile
      [.read (pathOf 'f') 9 0 false, .readdir rootPath fun _ _ => false]).1 1 := by
  refine ⟨by decide, ⟨nofun, nofun⟩, ?_, ?_⟩
  · rw [Held]
    decide +kernel
  · rw [Held]
    decide +kernel

end Overlay
