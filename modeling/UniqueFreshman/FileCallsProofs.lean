import UniqueFreshman.CallSequenceProofs
import UniqueFreshman.DescriptorTableProofs
import UniqueFreshman.FileTreeProofs

/-! # File system calls — what a process can do to a file tree

    The calls of the POSIX file interface on a tree and the descriptors of one
    process.  A call that fails returns its error number and changes nothing; a
    call that takes a path string resolves it and then acts at one place
    (`…At`).  A descriptor remembers the place it was opened at, and `pread` and
    `pwrite` move at most `maxTransfer` bytes.

    `access` and the calls on directories also take a tree with symbolic links:
    `access` and `opendir` follow a link at the end of their string, and a
    directory stream shows the link itself.

    `OnlyAt q` is the frame of every call that changes the tree: nothing but the
    node at `q` is different afterwards. -/

namespace FileCalls

open FileTree DescriptorTable
open CallSequence (bind_eq_ok ite_error_eq_ok)

def code : Errno → Int
  | .ENOENT => 2
  | .EBADF => 9
  | .EACCES => 13
  | .EFAULT => 14
  | .EEXIST => 17
  | .ENOTDIR => 20
  | .EISDIR => 21
  | .EINVAL => 22
  | .EMFILE => 24
  | .ELOOP => 40

theorem code_pos (e : Errno) : 0 < code e := by
  cases e <;> decide

/-- Errors can be told apart by their numbers. -/
theorem code_injective {e e' : Errno} (h : code e = code e') : e = e' := by
  cases e <;> cases e' <;> first | rfl | exact absurd h (by decide)

inductive AccMode where
  | rdonly | wronly | rdwr
deriving DecidableEq

/-- The flags of `open`; a flag that makes no difference to files and directories is left
    out. -/
structure Flags where
  acc : AccMode
  creat : Bool := false
  excl : Bool := false
  trunc : Bool := false
  directory : Bool := false
deriving DecidableEq

/-- `O_RDONLY` and nothing else. -/
def rdonly : Flags := { acc := .rdonly }

def wronly : Flags := { acc := .wronly }

structure OpenFile where
  place : Path
  acc : AccMode
deriving DecidableEq

/-- The file system, and the descriptors of the process. -/
structure WorldOf (Links : Prop) where
  tree : TreeOf Links
  fds : Table OpenFile

abbrev World := WorldOf False

structure Stat where
  ino : Nat
  mode : Nat
  size : Nat
deriving DecidableEq

/-- An entry of a directory stream. -/
structure Dirent where
  ino : Nat
  type : Nat
  name : Name
deriving DecidableEq

variable {Links : Prop}

/-- `DT_DIR`, `DT_REG` or `DT_LNK`; shifted by twelve, the file type bits of a mode. -/
def fileType : KindOf Links → Nat
  | .dir => 4
  | .file _ => 8
  | .link .. => 10

def Dirent.isLink (de : Dirent) : Bool := de.type == 10

/-- `F_OK`, the mask that asks for existence only. -/
def fOk : Nat := 0

/-- The most bytes one transfer moves. -/
def maxTransfer : Nat := 0x7ffff000

variable (proc : Process)

/-! ## The calls -/

def accessAt (w : WorldOf Links) (q : Path) (mask : Nat) : Except Errno Unit :=
  match w.tree.lookup q with
  | none => .error .ENOENT
  | some n =>
      if (mask.testBit 2 → proc.may n.mode .read) ∧ (mask.testBit 1 → proc.may n.mode .write) ∧
          (mask.testBit 0 → proc.may n.mode .search) then .ok () else .error .EACCES

def access (w : WorldOf Links) (s : List Char) (mask : Nat) : Except Errno Unit :=
  if 7 < mask then .error .EINVAL else do
    let q ← resolve proc w.tree s
    accessAt proc w q mask

def lstatAt (w : World) (q : Path) : Except Errno Stat :=
  match w.tree.lookup q with
  | none => .error .ENOENT
  | some ⟨ino, mode, .dir⟩ => .ok ⟨ino, fileType (.dir : Kind) <<< 12 ||| mode, 0⟩
  | some ⟨ino, mode, .file bytes⟩ =>
      .ok ⟨ino, fileType (.file bytes : Kind) <<< 12 ||| mode, bytes.length⟩

def lstat (w : World) (s : List Char) : Except Errno Stat := do
  let q ← resolve proc w.tree s
  lstatAt w q

/-- A serial number that is not in use. -/
def freshIno (t : Tree) : Nat := (t.nodes.entries.map fun e => e.2.ino).foldr max 0 + 1

/-- A new node at `q`, in a directory that may be written to. -/
def addAt (t : Tree) (q : Path) (mode : Nat) (kind : Kind) : Except Errno Tree :=
  match t.lookup q.dropLast with
  | some ⟨_, dirMode, .dir⟩ =>
      if proc.may dirMode .write then
        .ok (t.set q (some ⟨freshIno t, mode ^^^ (mode &&& proc.umask), kind⟩))
      else .error .EACCES
  | _ => .error .ENOENT

/-- Whether a file of this mode may be opened so. -/
def mayOpen (mode : Nat) (flags : Flags) : Bool :=
  (flags.acc == .wronly || proc.may mode .read) &&
    ((flags.acc == .rdonly && !flags.trunc) || proc.may mode .write)

/-- What `open` does to the tree at the place it resolved; `slash` says that the string
    ended in one. -/
def openNode (t : Tree) (q : Path) (slash : Bool) (flags : Flags) (mode : Nat) :
    Except Errno Tree :=
  match t.lookup q with
  | none =>
      if !flags.creat then .error .ENOENT
      else if slash then .error .EISDIR
      else if flags.directory then .error .EINVAL
      else addAt proc t q mode (.file [])
  | some ⟨_, m, .dir⟩ =>
      if flags.creat && flags.excl then .error .EEXIST
      else if flags.creat || flags.trunc || flags.acc != .rdonly then .error .EISDIR
      else if !proc.may m .read then .error .EACCES
      else .ok t
  | some ⟨ino, m, .file _⟩ =>
      if flags.creat && flags.excl then .error .EEXIST
      else if flags.directory then .error .ENOTDIR
      else if !mayOpen proc m flags then .error .EACCES
      else .ok (if flags.trunc then t.set q (some ⟨ino, m, .file []⟩) else t)

/-- A descriptor for the place, if one is free. -/
def openAt (w : World) (q : Path) (slash : Bool) (flags : Flags) (mode : Nat) :
    Except Errno (Nat × World) :=
  match w.fds.lowest with
  | none => .error .EMFILE
  | some fd => do
      let tree ← openNode proc w.tree q slash flags mode
      .ok (fd, ⟨tree, w.fds.put fd ⟨q, flags.acc⟩⟩)

/-- `open`; a null path is outside the address space. -/
def openFile (w : World) (s : Option (List Char)) (flags : Flags) (mode : Nat) :
    Except Errno (Nat × World) :=
  match s with
  | none => .error .EFAULT
  | some s =>
      match resolve proc w.tree s with
      | .error e => .error (if w.fds.lowest = none then .EMFILE else e)
      | .ok q => openAt proc w q (s.getLast? == some '/') flags mode

def closeFile (w : WorldOf Links) (fd : Nat) : WorldOf Links := { w with fds := w.fds.close fd }

def pread (w : World) (fd size : Nat) (offset : Int) : Except Errno (List UInt8) :=
  match w.fds.slots fd with
  | none => .error .EBADF
  | some f =>
      if f.acc = .wronly then .error .EBADF
      else if offset < 0 then .error .EINVAL
      else match w.tree.lookup f.place with
        | some ⟨_, _, .file bytes⟩ =>
            .ok ((bytes.drop offset.toNat).take (min size maxTransfer))
        | _ => .error .EISDIR

/-- `bytes` with `data` from `offset` on; a gap is filled with zeros. -/
def overwrite (bytes : List UInt8) (offset : Nat) (data : List UInt8) : List UInt8 :=
  bytes.take offset ++ List.replicate (offset - bytes.length) 0 ++ data ++
    bytes.drop (offset + data.length)

def pwrite (w : World) (fd : Nat) (data : List UInt8) (offset : Int) :
    Except Errno (Nat × World) :=
  match w.fds.slots fd with
  | none => .error .EBADF
  | some f =>
      if f.acc = .rdonly then .error .EBADF
      else if offset < 0 then .error .EINVAL
      else match w.tree.lookup f.place with
        | some ⟨ino, mode, .file bytes⟩ =>
            let moved := data.take maxTransfer
            if moved = [] then .ok (0, w)
            else .ok (moved.length,
              ⟨w.tree.set f.place
                (some ⟨ino, mode, .file (overwrite bytes offset.toNat moved)⟩), w.fds⟩)
        | _ => .error .EISDIR

/-- The first `length` bytes, with zeros if there are fewer. -/
def resize (bytes : List UInt8) (length : Nat) : List UInt8 :=
  bytes.take length ++ List.replicate (length - bytes.length) 0

def truncateAt (w : World) (q : Path) (length : Int) : Except Errno World :=
  match w.tree.lookup q with
  | none => .error .ENOENT
  | some ⟨_, _, .dir⟩ => .error .EISDIR
  | some ⟨ino, mode, .file bytes⟩ =>
      if !proc.may mode .write then .error .EACCES
      else
        .ok ⟨w.tree.set q (some ⟨ino, mode, .file (resize bytes length.toNat)⟩), w.fds⟩

def truncate (w : World) (s : List Char) (length : Int) : Except Errno World :=
  if length < 0 then .error .EINVAL else do
    let q ← resolve proc w.tree s
    truncateAt proc w q length

def unlinkAt (w : World) (q : Path) : Except Errno World :=
  match w.tree.lookup q with
  | none => .error .ENOENT
  | some ⟨_, _, .dir⟩ => .error .EISDIR
  | some ⟨_, _, .file _⟩ =>
      match w.tree.lookup q.dropLast with
      | some ⟨_, dirMode, .dir⟩ =>
          if proc.may dirMode .write then .ok { w with tree := w.tree.set q none }
          else .error .EACCES
      | _ => .error .ENOENT

def unlink (w : World) (s : List Char) : Except Errno World := do
  let q ← resolve proc w.tree s
  unlinkAt proc w q

def mkdirAt (w : World) (q : Path) (mode : Nat) : Except Errno World :=
  match w.tree.lookup q with
  | some _ => .error .EEXIST
  | none => do
      let tree ← addAt proc w.tree q mode .dir
      .ok { w with tree := tree }

def mkdir (w : World) (s : List Char) (mode : Nat) : Except Errno World := do
  let q ← resolve proc w.tree s
  mkdirAt proc w q mode

/-- A directory stream: its descriptor and its place. -/
def opendir (w : WorldOf Links) (s : List Char) : Except Errno (Nat × Path × WorldOf Links) :=
  match w.fds.lowest with
  | none => .error .EMFILE
  | some fd => do
      let q ← resolve proc w.tree s
      match w.tree.lookup q with
      | none => .error .ENOENT
      | some ⟨_, mode, .dir⟩ =>
          if proc.may mode .read then .ok (fd, q, ⟨w.tree, w.fds.put fd ⟨q, .rdonly⟩⟩)
          else .error .EACCES
      | some _ => .error .ENOTDIR

/-- The entries of a directory, with `.` and `..` first. -/
def dirents (t : TreeOf Links) (q : Path) : List Dirent :=
  let entry (p : Path) (c : Name) : List Dirent :=
    ((t.lookup p).map fun n => ⟨n.ino, fileType n.kind, c⟩).toList
  entry q ['.'] ++ entry q.dropLast ['.', '.'] ++
    t.nodes.entries.filterMap fun e =>
      match e.1.getLast? with
      | some c => if e.1.dropLast = q then some ⟨e.2.ino, fileType e.2.kind, c⟩ else none
      | none => none

/-! ## Frames -/

/-- Nothing but the node at `q` is different. -/
def OnlyAt (q : Path) (t t' : Tree) : Prop := ∀ r, r ≠ q → t'.lookup r = t.lookup r

variable {proc} {w w' : World}

theorem OnlyAt.refl (q : Path) (t : Tree) : OnlyAt q t t := fun _ _ => rfl

theorem OnlyAt.of_eq {q : Path} {t t' : Tree} (h : t' = t) : OnlyAt q t t' := by
  rw [h]
  exact .refl q t

theorem onlyAt_set (t : Tree) (q : Path) (new : Option Node) : OnlyAt q t (t.set q new) :=
  fun _ hr => t.lookup_set_ne new hr

/-- A new node is put at its own place. -/
theorem addAt_onlyAt {t t' : Tree} {q : Path} {mode : Nat} {kind : Kind}
    (h : addAt proc t q mode kind = .ok t') : OnlyAt q t t' := by
  rw [addAt] at h
  split at h
  · split at h
    · rw [← Except.ok.inj h]
      exact onlyAt_set t q _
    · exact nomatch h
  · exact nomatch h

/-- What `open` can do to the tree: add a file, cut a file, or nothing. -/
theorem openNode_cases {t t' : Tree} {q : Path} {slash : Bool} {flags : Flags} {mode : Nat}
    (h : openNode proc t q slash flags mode = .ok t') :
    (t.lookup q = none ∧ flags.creat = true ∧ addAt proc t q mode (.file []) = .ok t') ∨
      (flags.trunc = true ∧ ∃ new, t' = t.set q new) ∨ t' = t := by
  rw [openNode] at h
  split at h
  · next hnone =>
      simp only [ite_error_eq_ok, Bool.not_eq_true, Bool.not_eq_false'] at h
      obtain ⟨hcreat, -, -, hadd⟩ := h
      exact .inl ⟨hnone, hcreat, hadd⟩
  · simp only [ite_error_eq_ok] at h
    exact .inr (.inr (Except.ok.inj h.2.2.2).symm)
  · simp only [ite_error_eq_ok] at h
    have ht := (Except.ok.inj h.2.2.2).symm
    by_cases htrunc : flags.trunc = true
    · rw [if_pos htrunc] at ht
      exact .inr (.inl ⟨htrunc, _, ht⟩)
    · rw [if_neg htrunc] at ht
      exact .inr (.inr ht)

/-- `open` may make a file or cut it, and does nothing elsewhere. -/
theorem openNode_onlyAt {t t' : Tree} {q : Path} {slash : Bool} {flags : Flags} {mode : Nat}
    (h : openNode proc t q slash flags mode = .ok t') : OnlyAt q t t' := by
  rcases openNode_cases h with ⟨-, -, hadd⟩ | ⟨-, new, rfl⟩ | rfl
  · exact addAt_onlyAt hadd
  · exact onlyAt_set t q new
  · exact .refl q t'

/-- **OPENING CHANGES NOTHING** unless it creates or cuts a file. -/
theorem openNode_eq {t t' : Tree} {q : Path} {slash : Bool} {flags : Flags} {mode : Nat}
    (h : openNode proc t q slash flags mode = .ok t') (htrunc : flags.trunc = false)
    (hcreat : flags.creat = true → (t.lookup q).isSome = true) : t' = t := by
  rcases openNode_cases h with ⟨hnone, hc, -⟩ | ⟨ht, -⟩ | ht
  · have hsome := hcreat hc
    rw [hnone] at hsome
    exact nomatch hsome
  · exact nomatch htrunc.symm.trans ht
  · exact ht

/-- An `open` that returns has a descriptor for the place of its string. -/
theorem openFile_ok {s : Option (List Char)} {flags : Flags} {mode fd : Nat}
    (h : openFile proc w s flags mode = .ok (fd, w')) :
    ∃ str q slash, s = some str ∧ resolve proc w.tree str = .ok q ∧
      w.fds.lowest = some fd ∧ openNode proc w.tree q slash flags mode = .ok w'.tree ∧
      w'.fds = w.fds.put fd ⟨q, flags.acc⟩ := by
  cases s with
  | none => exact nomatch h
  | some str =>
      rw [openFile] at h
      cases hq : resolve proc w.tree str with
      | error e => rw [hq] at h; exact nomatch h
      | ok q =>
          simp only [hq] at h
          rw [openAt] at h
          cases hfd : w.fds.lowest with
          | none => rw [hfd] at h; exact nomatch h
          | some fd' =>
              simp only [hfd, bind_eq_ok] at h
              obtain ⟨t, ht, hw⟩ := h
              obtain ⟨rfl, rfl⟩ := Prod.mk.inj (Except.ok.inj hw)
              exact ⟨str, q, _, rfl, hq, rfl, ht, rfl⟩

/-- An `open` that neither creates nor cuts takes a free descriptor, and does nothing else. -/
theorem openFile_keeps {s : Option (List Char)} {flags : Flags} {mode fd : Nat}
    (htrunc : flags.trunc = false) (hcreat : flags.creat = false)
    (h : openFile proc w s flags mode = .ok (fd, w')) :
    ∃ str q, s = some str ∧ resolve proc w.tree str = .ok q ∧ w.fds.slots fd = none ∧
      w' = ⟨w.tree, w.fds.put fd ⟨q, flags.acc⟩⟩ := by
  obtain ⟨str, q, slash, hs, hq, hfd, hnode, hfds⟩ := openFile_ok h
  have htree : w'.tree = w.tree := by
    refine openNode_eq hnode htrunc fun hc => ?_
    rw [hcreat] at hc
    cases hc
  refine ⟨str, q, hs, hq, (Table.lowest_eq_some.mp hfd).2.1, ?_⟩
  rw [← htree, ← hfds]

/-- So it is for a path string. -/
theorem openFile_onlyAt {s : List Char} {flags : Flags} {mode fd : Nat}
    (h : openFile proc w (some s) flags mode = .ok (fd, w')) :
    OnlyAt (place proc s) w.tree w'.tree := by
  obtain ⟨str, q, slash, hs, hq, -, hnode, -⟩ := openFile_ok h
  rw [Option.some.inj hs, ← resolve_ok hq]
  exact openNode_onlyAt hnode

/-- `pwrite` changes the file of its descriptor, and no descriptor. -/
theorem pwrite_ok {fd n : Nat} {f : OpenFile} {data : List UInt8} {offset : Int}
    (hf : w.fds.slots fd = some f) (h : pwrite w fd data offset = .ok (n, w')) :
    OnlyAt f.place w.tree w'.tree ∧ w'.fds = w.fds := by
  simp only [pwrite, hf, ite_error_eq_ok] at h
  obtain ⟨-, -, h⟩ := h
  split at h
  · split at h
    · obtain ⟨-, rfl⟩ := Prod.mk.inj (Except.ok.inj h)
      exact ⟨.refl _ _, rfl⟩
    · obtain ⟨-, rfl⟩ := Prod.mk.inj (Except.ok.inj h)
      exact ⟨onlyAt_set _ _ _, rfl⟩
  · exact nomatch h

/-- `truncate` changes the file of its path, and no descriptor. -/
theorem truncate_ok {s : List Char} {length : Int} (h : truncate proc w s length = .ok w') :
    OnlyAt (place proc s) w.tree w'.tree ∧ w'.fds = w.fds := by
  simp only [truncate, ite_error_eq_ok, bind_eq_ok] at h
  obtain ⟨-, q, hq, h⟩ := h
  rw [← resolve_ok hq]
  rw [truncateAt] at h
  split at h
  · exact nomatch h
  · exact nomatch h
  · obtain ⟨-, h⟩ := ite_error_eq_ok.mp h
    rw [← Except.ok.inj h]
    exact ⟨onlyAt_set _ q _, rfl⟩

/-- A file that was removed: it could be reached, and nothing else changes. -/
theorem unlink_spec {s : List Char} (h : unlink proc w s = .ok w') :
    isFile (w.tree.lookup (place proc s)) = true ∧
      (∀ r, w'.tree.lookup r = if r = place proc s then none else w.tree.lookup r) ∧
      w'.fds = w.fds := by
  simp only [unlink, bind_eq_ok] at h
  obtain ⟨q, hq, h⟩ := h
  rw [← resolve_ok hq]
  rw [unlinkAt] at h
  split at h
  · cases h
  · cases h
  · next hn =>
      have hpermits : w.tree.permits q none = true := by
        rw [TreeOf.permits, hn]
        rfl
      refine ⟨by rw [hn]; rfl, ?_⟩
      split at h
      · split at h
        · rw [← Except.ok.inj h]
          exact ⟨TreeOf.lookup_set hpermits, rfl⟩
        · cases h
      · cases h

/-- `unlink` changes the place of its path, and no descriptor. -/
theorem unlink_ok {s : List Char} (h : unlink proc w s = .ok w') :
    OnlyAt (place proc s) w.tree w'.tree ∧ w'.fds = w.fds := by
  obtain ⟨-, hlookup, hfds⟩ := unlink_spec h
  refine ⟨fun r hr => ?_, hfds⟩
  rw [hlookup, if_neg hr]

/-- A file stands in a directory. -/
theorem dir_of_file {t : Tree} {q : Path} {ino mode : Nat} {bytes : List UInt8}
    (h : t.lookup q = some ⟨ino, mode, .file bytes⟩) :
    ∃ ino' mode', t.lookup q.dropLast = some ⟨ino', mode', .dir⟩ := by
  rcases List.eq_nil_or_concat' q with rfl | ⟨p, c, rfl⟩
  · have hroot : isDir (t.lookup []) = true := t.root
    rw [h] at hroot
    cases hroot
  · have hdir := t.dir_above (Option.isSome_of_eq_some h)
    obtain ⟨⟨ino', mode', kind⟩, hn, rfl⟩ := isDir_iff.mp hdir
    rw [List.dropLast_concat]
    exact ⟨ino', mode', hn⟩

/-- There is nothing to remove just where there is nothing to look at. -/
theorem unlink_enoent_iff {s : List Char} :
    unlink proc w s = .error .ENOENT ↔ lstat proc w s = .error .ENOENT := by
  rw [unlink, lstat]
  cases resolve proc w.tree s with
  | error e =>
      constructor
      · intro h
        exact congrArg _ (Except.error.inj h)
      · intro h
        exact congrArg _ (Except.error.inj h)
  | ok q =>
      show unlinkAt proc w q = _ ↔ lstatAt w q = _
      cases hn : w.tree.lookup q with
      | none => simp only [unlinkAt, lstatAt, hn]
      | some n =>
          obtain ⟨ino, mode, kind⟩ := n
          cases kind using Kind.cases with
          | dir => simp [unlinkAt, lstatAt, hn]
          | file bytes =>
              obtain ⟨ino', mode', hdir⟩ := dir_of_file hn
              simp only [unlinkAt, lstatAt, hn, hdir]
              split <;> simp

/-- `mkdir` changes the place of its path, and no descriptor. -/
theorem mkdir_ok {s : List Char} {mode : Nat} (h : mkdir proc w s mode = .ok w') :
    OnlyAt (place proc s) w.tree w'.tree ∧ w'.fds = w.fds := by
  simp only [mkdir, bind_eq_ok] at h
  obtain ⟨q, hq, h⟩ := h
  rw [← resolve_ok hq]
  rw [mkdirAt] at h
  split at h
  · exact nomatch h
  · obtain ⟨t, ht, h⟩ := bind_eq_ok.mp h
    rw [← Except.ok.inj h]
    exact ⟨addAt_onlyAt ht, rfl⟩

/-! ## Directories -/

section Directories

variable {w w' : WorldOf Links} {t : TreeOf Links} {q : Path}

/-- A directory stream that was opened. -/
theorem opendir_spec {s : List Char} {fd : Nat} (h : opendir proc w s = .ok (fd, q, w')) :
    resolve proc w.tree s = .ok q ∧ isDir (w.tree.lookup q) = true ∧
      w.fds.lowest = some fd ∧ w' = ⟨w.tree, w.fds.put fd ⟨q, .rdonly⟩⟩ := by
  rw [opendir] at h
  split at h
  · cases h
  · next hfd =>
      obtain ⟨q', hq, h⟩ := bind_eq_ok.mp h
      split at h
      · cases h
      · next hn =>
          split at h
          · obtain ⟨rfl, rfl, rfl⟩ : _ = fd ∧ q' = q ∧ _ = w' := by simpa using h
            exact ⟨hq, isDir_iff.mpr ⟨_, hn, rfl⟩, hfd, rfl⟩
          · cases h
      · cases h

/-- Opening a directory stream leaves the tree alone. -/
theorem opendir_ok {s : List Char} {fd : Nat} (h : opendir proc w s = .ok (fd, q, w')) :
    w'.tree = w.tree := by
  rw [(opendir_spec h).2.2.2]

/-- A directory that may be read can be opened while a descriptor is free. -/
theorem opendir_eq {s : List Char} {fd : Nat} {n : NodeOf Links}
    (hq : resolve proc w.tree s = .ok q) (hn : w.tree.lookup q = some n) (hdir : n.kind = .dir)
    (hread : proc.may n.mode .read = true) (hfd : w.fds.lowest = some fd) :
    opendir proc w s = .ok (fd, q, ⟨w.tree, w.fds.put fd ⟨q, .rdonly⟩⟩) := by
  obtain ⟨ino, mode, kind⟩ := n
  obtain rfl : kind = .dir := hdir
  simp only [opendir, hfd, hq, CallSequence.ok_bind, hn]
  exact if_pos hread

/-- Every name in the tree is one. -/
def ProperNames (t : TreeOf Links) : Prop := ∀ p c n, t.lookup (p ++ [c]) = some n → Proper c

/-- The name of the entry at `p` of the directory `q`. -/
def entryName (q p : Path) : Option Name := if p.dropLast = q then p.getLast? else none

/-- An entry of a directory is what stands one level below it. -/
theorem entryName_eq_some {q p : Path} {c : Name} : entryName q p = some c ↔ p = q ++ [c] := by
  rw [entryName]
  constructor
  · intro h
    split at h
    · next hq =>
        obtain ⟨p', rfl⟩ := List.getLast?_eq_some_iff.mp h
        rw [← hq, List.dropLast_concat]
    · cases h
  · rintro rfl
    rw [if_pos List.dropLast_concat, List.getLast?_concat]

/-- The entry of a node under the name `c`. -/
def direntOf (c : Name) (n : NodeOf Links) : Dirent := ⟨n.ino, fileType n.kind, c⟩

/-- `.`, `..`, and what stands one level below. -/
theorem dirents_eq (t : TreeOf Links) (q : Path) :
    dirents t q = ((t.lookup q).map (direntOf ['.'])).toList ++
      ((t.lookup q.dropLast).map (direntOf ['.', '.'])).toList ++
      t.nodes.entries.filterMap fun e => (entryName q e.1).map (direntOf · e.2) := by
  rw [dirents]
  congr 1
  refine List.filterMap_congr fun e _ => ?_
  cases hlast : e.1.getLast? with
  | none => simp [entryName, hlast]
  | some c => by_cases hq : e.1.dropLast = q <;> simp [entryName, hlast, hq, direntOf]

/-- **THE ENTRIES OF A DIRECTORY**: itself, its parent, and what stands in it. -/
theorem mem_dirents {de : Dirent} :
    de ∈ dirents t q ↔ (∃ n, t.lookup q = some n ∧ de = direntOf ['.'] n) ∨
      (∃ n, t.lookup q.dropLast = some n ∧ de = direntOf ['.', '.'] n) ∨
      ∃ c n, t.lookup (q ++ [c]) = some n ∧ de = direntOf c n := by
  rw [dirents_eq]
  simp only [List.mem_append, Option.mem_toList, Option.map_eq_some_iff,
    List.mem_filterMap, or_assoc]
  refine or_congr ?_ (or_congr ?_ ?_)
  · exact exists_congr fun n => and_congr_right fun _ => eq_comm
  · exact exists_congr fun n => and_congr_right fun _ => eq_comm
  · constructor
    · rintro ⟨⟨p, n⟩, he, c, hc, rfl⟩
      obtain rfl := entryName_eq_some.mp hc
      exact ⟨c, n, AList.mem_lookup_iff.mpr he, rfl⟩
    · rintro ⟨c, n, hn, rfl⟩
      exact ⟨⟨q ++ [c], n⟩, AList.mem_lookup_iff.mp hn, c, entryName_eq_some.mpr rfl, rfl⟩

/-- It is enough to look at the last name of every path of the tree. -/
theorem properNames_iff_keys :
    ProperNames t ↔ ∀ p ∈ t.nodes.keys, ∀ c ∈ p.getLast?, Proper c := by
  constructor
  · intro h p hp c hc
    obtain ⟨n, hn⟩ := Option.isSome_iff_exists.mp (AList.lookup_isSome.mpr hp)
    obtain ⟨p, rfl⟩ := List.getLast?_eq_some_iff.mp hc
    exact h p c n hn
  · intro h p c n hn
    have hkey : p ++ [c] ∈ t.nodes.keys := AList.lookup_isSome.mp (Option.isSome_of_eq_some hn)
    exact h _ hkey c List.getLast?_concat

instance (t : TreeOf Links) : Decidable (ProperNames t) :=
  decidable_of_iff' _ properNames_iff_keys

/-- An entry with a name of its own stands in the directory. -/
theorem exists_of_mem_dirents {de : Dirent} (hname : Proper de.name) (h : de ∈ dirents t q) :
    (t.lookup (q ++ [de.name])).isSome = true := by
  rcases mem_dirents.mp h with ⟨n, -, rfl⟩ | ⟨n, -, rfl⟩ | ⟨c, n, hn, rfl⟩
  · exact absurd rfl hname.2.2.1
  · exact absurd rfl hname.2.2.2
  · exact Option.isSome_of_eq_some hn

/-- A name of an entry of a directory is `.`, `..` or a proper one. -/
theorem name_of_mem_dirents (ht : ProperNames t) {de : Dirent} (h : de ∈ dirents t q) :
    de.name = ['.'] ∨ de.name = ['.', '.'] ∨ Proper de.name := by
  rcases mem_dirents.mp h with ⟨n, -, rfl⟩ | ⟨n, -, rfl⟩ | ⟨c, n, hn, rfl⟩
  · exact .inl rfl
  · exact .inr (.inl rfl)
  · exact .inr (.inr (ht q c n hn))

theorem ne_nil_and_no_slash {c : Name} (hc : c = ['.'] ∨ c = ['.', '.'] ∨ Proper c) :
    c ≠ [] ∧ '/' ∉ c := by
  rcases hc with rfl | rfl | hc
  · decide
  · decide
  · exact ⟨hc.1, hc.2.1⟩

/-- An entry is about what its name leads to. -/
theorem lookup_of_mem_dirents (ht : ProperNames t) {de : Dirent} (h : de ∈ dirents t q) :
    ∃ n, t.lookup (child q de.name) = some n ∧ de = direntOf de.name n := by
  rcases mem_dirents.mp h with ⟨n, hn, rfl⟩ | ⟨n, hn, rfl⟩ | ⟨c, n, hn, rfl⟩
  · exact ⟨n, hn, rfl⟩
  · exact ⟨n, hn, rfl⟩
  · have hproper : Proper c := ht q c n hn
    exact ⟨n, (congrArg t.lookup (child_proper hproper)).trans hn, rfl⟩

/-- The type of an entry tells the links. -/
theorem isLink_direntOf (c : Name) (n : NodeOf Links) :
    (direntOf c n).isLink = true ↔ ∃ text h, n.kind = .link text h := by
  obtain ⟨ino, mode, kind⟩ := n
  cases kind with
  | dir => exact ⟨by rintro ⟨⟩, by rintro ⟨_, _, ⟨⟩⟩⟩
  | file bytes => exact ⟨by rintro ⟨⟩, by rintro ⟨_, _, ⟨⟩⟩⟩
  | link text h => exact ⟨fun _ => ⟨text, h, rfl⟩, fun _ => rfl⟩

/-- What stands under a name is an entry. -/
theorem mem_dirents_of_lookup {c : Name} {n : NodeOf Links}
    (hc : c = ['.'] ∨ c = ['.', '.'] ∨ Proper c) (hn : t.lookup (child q c) = some n) :
    direntOf c n ∈ dirents t q := by
  refine mem_dirents.mpr ?_
  rcases hc with rfl | rfl | hc
  · exact .inl ⟨n, hn, rfl⟩
  · exact .inr (.inl ⟨n, hn, rfl⟩)
  · rw [child_proper hc] at hn
    exact .inr (.inr ⟨c, n, hn, rfl⟩)

/-- **EACH NAME ONCE.** -/
theorem nodup_names (ht : ProperNames t) (q : Path) : ((dirents t q).map Dirent.name).Nodup := by
  have hnames : (t.nodes.entries.filterMap fun e => (entryName q e.1).map (direntOf · e.2)).map
      Dirent.name = t.nodes.keys.filterMap (entryName q) := by
    rw [List.map_filterMap, AList.keys, List.keys, List.filterMap_map]
    refine List.filterMap_congr fun e _ => ?_
    cases h : entryName q e.1 <;> simp [h, direntOf]
  have hproper : ∀ c ∈ t.nodes.keys.filterMap (entryName q), Proper c := by
    intro c hc
    obtain ⟨p, hp, hpc⟩ := List.mem_filterMap.mp hc
    obtain rfl := entryName_eq_some.mp hpc
    obtain ⟨n, hn⟩ := Option.isSome_iff_exists.mp (AList.lookup_isSome.mpr hp)
    exact ht q c n hn
  have hkeys : (t.nodes.keys.filterMap (entryName q)).Nodup := by
    refine List.Nodup.filterMap (fun p p' c hp hp' => ?_) t.nodes.keys_nodup
    rw [entryName_eq_some.mp hp, entryName_eq_some.mp hp']
  rw [dirents_eq, List.map_append, hnames, List.map_append]
  cases t.lookup q <;> cases t.lookup q.dropLast <;>
    simp only [Option.map_none, Option.map_some, Option.toList_none, Option.toList_some,
      List.map_nil, List.map_cons, direntOf, List.nil_append, List.nodup_cons,
      List.cons_append, hkeys, and_true, List.mem_cons, not_or]
  · exact fun h => (hproper _ h).2.2.2 rfl
  · exact fun h => (hproper _ h).2.2.1 rfl
  · exact ⟨⟨by decide, fun h => (hproper _ h).2.2.1 rfl⟩, fun h => (hproper _ h).2.2.2 rfl⟩

end Directories

end FileCalls
