import UniqueFreshman.FileCallsProofs
import UniqueFreshman.GuardedRunProofs

/-! # The overlay file system — operations over two layers

    `myfs.c` mounts an upper and a lower directory as one file system.  Every
    operation builds a path string from a layer's directory and the path FUSE
    passes, looks whether the file exists in the upper layer, and falls back to
    the lower one; `create`, `unlink` and `mkdir` use the upper layer only.

    `access`, `open` and `truncate` return through a variable `ret` that they do
    not set when the path is in neither layer; the value it then holds is the
    argument `ret₀`.  `fpath` stands for the string in that buffer.

    `readdir` is also defined for layers with symbolic links, which its `access`
    follows; the other operations are defined for layers without them. -/

namespace Overlay

open FileTree FileCalls DescriptorTable GuardedRun

inductive Layer where
  | lower | upper
deriving DecidableEq

/-- The configured directories: `lower_dir_path` and `upper_dir_path`. -/
structure Dirs where
  lower : List Char
  upper : List Char

def Dirs.of (dirs : Dirs) : Layer → List Char
  | .lower => dirs.lower
  | .upper => dirs.upper

/-- A path as FUSE passes it: names of entries from the root of the mount. -/
structure FusePath where
  names : Path
  proper : ∀ c ∈ names, Proper c

def FusePath.string (path : FusePath) : List Char := absolute path.names

/-- An entry as it is handed to `filler`. -/
structure Filled where
  name : Name
  ino : Nat
  mode : Nat
deriving DecidableEq

section Operations

variable {Links : Prop} (proc : Process) (dirs : Dirs)

/-- The string `set_fpath` leaves in `fpath`. -/
def setFpath (path : List Char) (layer : Layer) : List Char := dirs.of layer ++ path

/-- `access(s, F_OK) == 0`. -/
def found (w : WorldOf Links) (s : List Char) : Bool := (access proc w s fOk).isOk

/-- Hand entries to `filler`, skipping those not kept, until it asks to stop; `passed` are
    the entries handed over before. -/
def fill (filler : List Filled → Filled → Bool) (keep : Dirent → Bool) (passed : List Filled) :
    List Dirent → List Filled
  | [] => passed
  | de :: des =>
      if keep de then
        let st : Filled := ⟨de.name, de.ino, de.type <<< 12⟩
        if filler passed st then passed ++ [st]
        else fill filler keep (passed ++ [st]) des
      else fill filler keep passed des

/-- The first part of `readdir`: the lower entries whose name `access` does not find in the
    upper directory.  The stream is not closed. -/
def readLower (w : WorldOf Links) (path : FusePath) (filler : List Filled → Filled → Bool) :
    List Filled × WorldOf Links :=
  match opendir proc w (setFpath dirs path.string .lower) with
  | .error _ => ([], w)
  | .ok (_, q, w) =>
      let keep (de : Dirent) : Bool :=
        let filePath := setFpath dirs path.string .upper ++ de.name
        !found proc w filePath
      (fill filler keep [] (dirents w.tree q), w)

/-- The second part: all upper entries.  `closedir` of a null stream does nothing. -/
def readUpper (w : WorldOf Links) (path : FusePath) (filler : List Filled → Filled → Bool)
    (passed : List Filled) : List Filled × WorldOf Links :=
  match opendir proc w (setFpath dirs path.string .upper) with
  | .error _ => (passed, w)
  | .ok (fd, q, w) =>
      (fill filler (fun _ => true) passed (dirents w.tree q), closeFile w fd)

/-- The return value and the entries handed to `filler`. -/
def myfsReaddir (w : WorldOf Links) (path : FusePath) (filler : List Filled → Filled → Bool) :
    Int × List Filled × WorldOf Links :=
  let lower := readLower proc dirs w path filler
  (0, readUpper proc dirs lower.2 path filler lower.1)

variable (w : World)

def myfsGetattr (path : FusePath) : Int × Stat :=
  let fpath := setFpath dirs path.string .upper
  let ret := if found proc w fpath then lstat proc w fpath
    else lstat proc w (setFpath dirs path.string .lower)
  match ret with
  | .error e => (-code e, ⟨0, 0, 0⟩)
  | .ok st => (0, st)

/-- The string up to its last slash. -/
def cutLast (s : List Char) : List Char :=
  if '/' ∈ s then ((s.reverse.dropWhile (· ≠ '/')).drop 1).reverse else s

/-- `if (ret == -1) return -errno; return 0;` -/
def status {α : Type} : Except Errno α → Int
  | .error e => -code e
  | .ok _ => 0

/-- The same with the state after the call. -/
def reply : Except Errno World → Int × World
  | .error e => (-code e, w)
  | .ok w => (0, w)

/-- The same after `open`, with what is stored in `fi->fh`. -/
def replyOpen : Except Errno (Nat × World) → Int × Option Int × World
  | .error e => (-code e, none, w)
  | .ok (fd, w) => (0, some fd, w)

def myfsCreate (path : FusePath) (mode : Nat) (flags : Flags) : Int × Option Int × World :=
  if found proc w (cutLast (setFpath dirs path.string .upper)) then
    replyOpen w (openFile proc w (some (setFpath dirs path.string .upper)) flags mode)
  else (1, none, w)

def myfsUnlink (path : FusePath) : Int × World :=
  reply w (unlink proc w (setFpath dirs path.string .upper))

def myfsMkdir (path : FusePath) (mode : Nat) : Int × World :=
  reply w (mkdir proc w (setFpath dirs path.string .upper) mode)

/-- The return value when neither layer has the path: `ret` is `ret₀`, and `errno` is from
    the last look into the lower layer. -/
def unset (path : FusePath) (ret₀ : Int) : Int :=
  if ret₀ = -1 then status (access proc w (setFpath dirs path.string .lower) fOk) else 0

def myfsAccess (path : FusePath) (mask : Nat) (ret₀ : Int) : Int :=
  let ret (fpath : List Char) : Int := status (access proc w fpath mask)
  if found proc w (setFpath dirs path.string .upper) then
    ret (setFpath dirs path.string .upper)
  else if found proc w (setFpath dirs path.string .lower) then
    ret (setFpath dirs path.string .lower)
  else unset proc dirs w path ret₀

def myfsOpen (path : FusePath) (flags : Flags) (ret₀ : Int) : Int × Option Int × World :=
  let ret (fpath : List Char) : Int × Option Int × World :=
    replyOpen w (openFile proc w (some fpath) flags 0)
  if found proc w (setFpath dirs path.string .upper) then
    ret (setFpath dirs path.string .upper)
  else if found proc w (setFpath dirs path.string .lower) then
    ret (setFpath dirs path.string .lower)
  else (unset proc dirs w path ret₀, if ret₀ = -1 then none else some ret₀, w)

/-- The string `read` and `write` open: `NULL` when neither layer has the path. -/
def file (path : FusePath) : Option (List Char) :=
  if found proc w (setFpath dirs path.string .upper) then
    some (setFpath dirs path.string .upper)
  else if found proc w (setFpath dirs path.string .lower) then
    some (setFpath dirs path.string .lower)
  else none

/-- `read` after `open`: the return value, the bytes stored in `buf`, and the state
    afterwards.  The descriptor is closed only if `fi` is null. -/
def readOpened (size : Nat) (offset : Int) (fiNull : Bool) :
    Except Errno (Nat × World) → Int × List UInt8 × World
  | .error e => (-code e, [], w)
  | .ok (fd, w) =>
      let w' := if fiNull then closeFile w fd else w
      match pread w fd size offset with
      | .error e => (-code e, [], w')
      | .ok bytes => (bytes.length, bytes, w')

def myfsRead (path : FusePath) (size : Nat) (offset : Int) (fiNull : Bool) :
    Int × List UInt8 × World :=
  readOpened w size offset fiNull (openFile proc w (file proc dirs w path) rdonly 0)

/-- `write` after `open`; `data` are the `size` bytes at `buf`. -/
def writeOpened (data : List UInt8) (offset : Int) :
    Except Errno (Nat × World) → Int × World
  | .error e => (-code e, w)
  | .ok (fd, w) =>
      match pwrite w fd data offset with
      | .error e => (-code e, closeFile w fd)
      | .ok (n, w) => (n, closeFile w fd)

def myfsWrite (path : FusePath) (data : List UInt8) (offset : Int) : Int × World :=
  writeOpened w data offset (openFile proc w (file proc dirs w path) wronly 0)

def myfsTruncate (path : FusePath) (size : Int) (ret₀ : Int) : Int × World :=
  let ret (fpath : List Char) : Int × World := reply w (truncate proc w fpath size)
  if found proc w (setFpath dirs path.string .upper) then
    ret (setFpath dirs path.string .upper)
  else if found proc w (setFpath dirs path.string .lower) then
    ret (setFpath dirs path.string .lower)
  else (unset proc dirs w path ret₀, w)

end Operations

/-! ## Runs -/

/-- A request of FUSE; `ret₀` is the value an unset `ret` happens to hold. -/
inductive Op where
  | getattr (path : FusePath)
  | access (path : FusePath) (mask : Nat) (ret₀ : Int)
  | readdir (path : FusePath) (filler : List Filled → Filled → Bool)
  | create (path : FusePath) (mode : Nat) (flags : Flags)
  | open (path : FusePath) (flags : Flags) (ret₀ : Int)
  | read (path : FusePath) (size : Nat) (offset : Int) (fiNull : Bool)
  | write (path : FusePath) (data : List UInt8) (offset : Int)
  | unlink (path : FusePath)
  | mkdir (path : FusePath) (mode : Nat)
  | truncate (path : FusePath) (size : Int) (ret₀ : Int)

def Op.path : Op → FusePath
  | .getattr path | .access path .. | .readdir path .. | .create path .. | .open path ..
  | .read path .. | .write path .. | .unlink path | .mkdir path .. | .truncate path .. => path

/-- The state after a request. -/
def apply (proc : Process) (dirs : Dirs) (w : World) : Op → World
  | .getattr _ => w
  | .access .. => w
  | .readdir path filler => (myfsReaddir proc dirs w path filler).2.2
  | .create path mode flags => (myfsCreate proc dirs w path mode flags).2.2
  | .open path flags ret₀ => (myfsOpen proc dirs w path flags ret₀).2.2
  | .read path size offset fiNull => (myfsRead proc dirs w path size offset fiNull).2.2
  | .write path data offset => (myfsWrite proc dirs w path data offset).2
  | .unlink path => (myfsUnlink proc dirs w path).2
  | .mkdir path mode => (myfsMkdir proc dirs w path mode).2
  | .truncate path size ret₀ => (myfsTruncate proc dirs w path size ret₀).2

def requestStep (proc : Process) (dirs : Dirs) (w : World) (op : Op) : Option World :=
  some (apply proc dirs w op)

variable {proc : Process} {dirs : Dirs} {w w' : World}

/-- The place of a layer's directory. -/
def layerPlace (proc : Process) (dirs : Dirs) (layer : Layer) : Path :=
  place proc (dirs.of layer ++ ['/'])

/-- Neither layer's directory lies in the other. -/
def Apart (proc : Process) (dirs : Dirs) : Prop :=
  ¬ layerPlace proc dirs .lower <+: layerPlace proc dirs .upper ∧
    ¬ layerPlace proc dirs .upper <+: layerPlace proc dirs .lower

/-- `set_fpath` names the place below the layer's directory. -/
theorem place_setFpath (path : FusePath) (layer : Layer) :
    place proc (setFpath dirs path.string layer) = layerPlace proc dirs layer ++ path.names :=
  place_absolute (dirs.of layer) path.proper

/-- The layers share no place. -/
theorem Apart.ne (h : Apart proc dirs) (p q : Path) :
    layerPlace proc dirs .lower ++ p ≠ layerPlace proc dirs .upper ++ q := by
  intro heq
  have hlower : layerPlace proc dirs .lower <+: layerPlace proc dirs .upper ++ q :=
    ⟨p, heq⟩
  rcases List.prefix_or_prefix_of_prefix hlower (List.prefix_append ..) with hpre | hpre
  · exact h.1 hpre
  · exact h.2 hpre

/-- `access` answers whether the string leads somewhere, over links too. -/
theorem found_iff {Links : Prop} {w : WorldOf Links} {s : List Char} :
    found proc w s = true ↔ Leads proc w.tree s := by
  have haccess : access proc w s fOk = resolve proc w.tree s >>= fun q => accessAt proc w q fOk :=
    rfl
  rw [found, haccess, Leads]
  cases resolve proc w.tree s with
  | error e => exact ⟨nofun, fun ⟨q, h, _⟩ => nomatch h⟩
  | ok q =>
      show (accessAt proc w q fOk).isOk = true ↔ _
      cases hq : w.tree.lookup q with
      | none =>
          simp only [accessAt, hq]
          exact ⟨nofun, fun ⟨r, hr, h⟩ => by rw [← Except.ok.inj hr, hq] at h; exact nomatch h⟩
      | some n =>
          simp only [accessAt, hq, fOk, Nat.zero_testBit]
          exact ⟨fun _ => ⟨q, rfl, by rw [hq]; rfl⟩, fun _ => rfl⟩

/-! ## What a request changes -/

/-- The requests that change a file where they find it. -/
def Op.writes : Op → Bool
  | .write .. | .truncate .. => true
  | .open _ flags _ => flags.trunc
  | _ => false

/-- A request that writes names a path that is in the upper layer, or not in the lower. -/
def KeepsLower (proc : Process) (dirs : Dirs) (w : World) (op : Op) : Prop :=
  op.writes = true →
    found proc w (setFpath dirs op.path.string .upper) = true ∨
      found proc w (setFpath dirs op.path.string .lower) = false

instance (proc : Process) (dirs : Dirs) (w : World) (op : Op) :
    Decidable (KeepsLower proc dirs w op) :=
  inferInstanceAs (Decidable (_ → _))

/-- Such a request does not fall back to the lower layer. -/
theorem KeepsLower.not_lower {op : Op} (h : KeepsLower proc dirs w op) (hop : op.writes = true)
    (hupper : ¬ found proc w (setFpath dirs op.path.string .upper) = true) :
    ¬ found proc w (setFpath dirs op.path.string .lower) = true := by
  rcases h hop with hu | hl
  · exact absurd hu hupper
  · rw [hl]
    exact Bool.false_ne_true

section Readdir

variable {Links : Prop} {w : WorldOf Links}

theorem readLower_tree (path : FusePath) (filler : List Filled → Filled → Bool) :
    (readLower proc dirs w path filler).2.tree = w.tree := by
  rw [readLower]
  cases h : opendir proc w (setFpath dirs path.string .lower) with
  | error e => rfl
  | ok r => exact opendir_ok h

theorem readUpper_tree (path : FusePath) (filler : List Filled → Filled → Bool)
    (passed : List Filled) : (readUpper proc dirs w path filler passed).2.tree = w.tree := by
  rw [readUpper]
  cases h : opendir proc w (setFpath dirs path.string .upper) with
  | error e => rfl
  | ok r =>
      obtain ⟨fd, q, w'⟩ := r
      have htree : w'.tree = w.tree := opendir_ok h
      exact htree

/-- `readdir` changes no file. -/
theorem readdir_tree (path : FusePath) (filler : List Filled → Filled → Bool) :
    (myfsReaddir proc dirs w path filler).2.2.tree = w.tree :=
  (readUpper_tree path filler _).trans (readLower_tree path filler)

end Readdir

theorem replyOpen_onlyAt {q : Path} {x : Except Errno (Nat × World)}
    (h : ∀ fd w', x = .ok (fd, w') → OnlyAt q w.tree w'.tree) :
    OnlyAt q w.tree (replyOpen w x).2.2.tree := by
  cases x with
  | error e => exact .refl q w.tree
  | ok r => exact h r.1 r.2 rfl

/-- A failed call changes nothing, so that only the successful one matters. -/
theorem reply_onlyAt {q : Path} {x : Except Errno World}
    (h : ∀ w', x = .ok w' → OnlyAt q w.tree w'.tree) :
    OnlyAt q w.tree (reply w x).2.tree := by
  cases x with
  | error e => exact .refl q w.tree
  | ok w' => exact h w' rfl

/-- `create` works in the upper layer. -/
theorem create_onlyAt (path : FusePath) (mode : Nat) (flags : Flags) :
    OnlyAt (layerPlace proc dirs .upper ++ path.names) w.tree
      (myfsCreate proc dirs w path mode flags).2.2.tree := by
  rw [myfsCreate]
  split
  · refine replyOpen_onlyAt fun fd w' h => ?_
    rw [← place_setFpath]
    exact openFile_onlyAt h
  · exact .refl _ _

/-- An `open` that finds the path in the lower layer only changes nothing, if it does not
    cut the file. -/
theorem open_onlyAt (path : FusePath) (flags : Flags) (ret₀ : Int)
    (hkeeps : KeepsLower proc dirs w (.open path flags ret₀)) :
    OnlyAt (layerPlace proc dirs .upper ++ path.names) w.tree
      (myfsOpen proc dirs w path flags ret₀).2.2.tree := by
  rw [myfsOpen]
  split
  · refine replyOpen_onlyAt fun fd w' h => ?_
    rw [← place_setFpath]
    exact openFile_onlyAt h
  · next hupper =>
    split
    · next hlower =>
        refine replyOpen_onlyAt fun fd w' h => ?_
        have htrunc : flags.trunc = false := by
          by_contra htrunc
          exact hkeeps.not_lower (Bool.not_eq_false _ |>.mp htrunc) hupper hlower
        obtain ⟨str, q, slash, hs, hq, -, hnode, -⟩ := openFile_ok h
        obtain ⟨q', hq', hsome⟩ := found_iff.mp hlower
        rw [← Option.some.inj hs] at hq
        obtain rfl := Except.ok.inj (hq.symm.trans hq')
        rw [openNode_eq hnode htrunc fun _ => hsome]
        exact .refl _ _
    · exact .refl _ _

/-- `read` changes no file. -/
theorem read_tree (path : FusePath) (size : Nat) (offset : Int) (fiNull : Bool) :
    (myfsRead proc dirs w path size offset fiNull).2.2.tree = w.tree := by
  rw [myfsRead]
  cases h : openFile proc w (file proc dirs w path) rdonly 0 with
  | error e => rfl
  | ok r =>
      obtain ⟨fd, w'⟩ := r
      obtain ⟨_, _, -, -, -, rfl⟩ := openFile_keeps rfl rfl h
      simp only [readOpened]
      split <;> split <;> rfl

/-- Only a path of the upper layer is opened for writing. -/
theorem place_file {path : FusePath} {data : List UInt8} {offset : Int} {str : List Char}
    (hkeeps : KeepsLower proc dirs w (.write path data offset))
    (h : file proc dirs w path = some str) :
    place proc str = layerPlace proc dirs .upper ++ path.names := by
  rw [file] at h
  split at h
  · rw [← Option.some.inj h]
    exact place_setFpath path .upper
  · next hupper =>
      split at h
      · next hlower => exact absurd hlower (hkeeps.not_lower rfl hupper)
      · exact nomatch h

/-- What `write` does: it gives back the descriptor it takes, and changes at most the file it
    opens. -/
theorem write_spec (path : FusePath) (data : List UInt8) (offset : Int) :
    (myfsWrite proc dirs w path data offset).2.fds = w.fds ∧
      ∀ p, (∀ str, file proc dirs w path = some str → place proc str = p) →
        OnlyAt p w.tree (myfsWrite proc dirs w path data offset).2.tree := by
  rw [myfsWrite]
  cases h : openFile proc w (file proc dirs w path) wronly 0 with
  | error e => exact ⟨rfl, fun p _ => .refl p w.tree⟩
  | ok r =>
      obtain ⟨fd, w'⟩ := r
      obtain ⟨str, q, hs, hq, hfree, rfl⟩ := openFile_keeps rfl rfl h
      have hslot : (w.fds.put fd ⟨q, wronly.acc⟩).slots fd = some ⟨q, wronly.acc⟩ := by
        rw [Table.put_slots, if_pos rfl]
      simp only [writeOpened]
      cases hw : pwrite ⟨w.tree, w.fds.put fd ⟨q, wronly.acc⟩⟩ fd data offset with
      | error e => exact ⟨Table.close_put hfree _, fun p _ => .refl p w.tree⟩
      | ok r =>
          obtain ⟨n, w''⟩ := r
          obtain ⟨honly, hfds⟩ := pwrite_ok hslot hw
          constructor
          · show w''.fds.close fd = w.fds
            rw [hfds]
            exact Table.close_put hfree _
          · intro p hp
            rw [← hp str hs, ← resolve_ok hq]
            exact honly

/-- `write` works in the upper layer, unless it falls back to a file of the lower one. -/
theorem write_onlyAt (path : FusePath) (data : List UInt8) (offset : Int)
    (hkeeps : KeepsLower proc dirs w (.write path data offset)) :
    OnlyAt (layerPlace proc dirs .upper ++ path.names) w.tree
      (myfsWrite proc dirs w path data offset).2.tree :=
  (write_spec path data offset).2 _ fun _ hs => place_file hkeeps hs

theorem truncate_onlyAt (path : FusePath) (size ret₀ : Int)
    (hkeeps : KeepsLower proc dirs w (.truncate path size ret₀)) :
    OnlyAt (layerPlace proc dirs .upper ++ path.names) w.tree
      (myfsTruncate proc dirs w path size ret₀).2.tree := by
  rw [myfsTruncate]
  split
  · refine reply_onlyAt fun w' h => ?_
    rw [← place_setFpath]
    exact (truncate_ok h).1
  · next hupper =>
    split
    · next hlower => exact absurd hlower (hkeeps.not_lower rfl hupper)
    · exact .refl _ _

/-- **ONE REQUEST** changes nothing but its path in the upper layer, if it keeps the lower
    layer. -/
theorem apply_onlyAt (op : Op) (hkeeps : KeepsLower proc dirs w op) :
    OnlyAt (layerPlace proc dirs .upper ++ op.path.names) w.tree
      (apply proc dirs w op).tree := by
  cases op with
  | getattr path => exact .refl _ _
  | access path mask ret₀ => exact .refl _ _
  | readdir path filler => exact .of_eq (readdir_tree ..)
  | create path mode flags => exact create_onlyAt path mode flags
  | «open» path flags ret₀ => exact open_onlyAt path flags ret₀ hkeeps
  | read path size offset fiNull => exact .of_eq (read_tree ..)
  | write path data offset => exact write_onlyAt path data offset hkeeps
  | unlink path =>
      refine reply_onlyAt fun w' h => ?_
      rw [Op.path, ← place_setFpath]
      exact (unlink_ok h).1
  | mkdir path mode =>
      refine reply_onlyAt fun w' h => ?_
      rw [Op.path, ← place_setFpath]
      exact (mkdir_ok h).1
  | truncate path size ret₀ => exact truncate_onlyAt path size ret₀ hkeeps

/-- **THE LOWER LAYER IS READ-ONLY** in every run whose writing requests all name a path
    that is in the upper layer or not in the lower one. -/
theorem lower_unchanged (proc : Process) (dirs : Dirs) (hdirs : Apart proc dirs) (w₀ : World)
    (ws : List World) (h : Run (requestStep proc dirs) (KeepsLower proc dirs) w₀ ws) :
    ∀ w ∈ ws, ∀ p, w.tree.lookup (layerPlace proc dirs .lower ++ p) =
      w₀.tree.lookup (layerPlace proc dirs .lower ++ p) := by
  refine h.invariant (fun _ => rfl) fun w op w' hw hkeeps hstep p => ?_
  rw [← Option.some.inj hstep, ← hw p]
  exact apply_onlyAt op hkeeps _ (hdirs.ne p op.path.names)

/-! ## A mount with one lower file -/

/-- A process that may do everything. -/
def anyone : Process := ⟨[], 0, fun _ _ => true⟩

def twoDirs : Dirs := ⟨['/', 'l'], ['/', 'u']⟩

def pathOf (c : Char) (h : Proper [c] := by decide) : FusePath :=
  ⟨[[c]], fun _ hd => List.mem_singleton.mp hd ▸ h⟩

/-- The layers `/l` and `/u`, with a file `/l/f` of one byte. -/
def oneFile : World where
  tree := ((TreeOf.bare 0o755).set [['l']] (some ⟨1, 0o755, .dir⟩)
    |>.set [['u']] (some ⟨2, 0o755, .dir⟩)
    |>.set [['l'], ['f']] (some ⟨3, 0o644, .file [1]⟩))
  fds := ⟨16, fun _ => none⟩

/-- A new file `g` is written and cut, and `f` is read. -/
def newFile : List Op :=
  [.create (pathOf 'g') 0o644 { acc := .wronly, creat := true }, .write (pathOf 'g') [7, 8] 0,
    .truncate (pathOf 'g') 1 0, .read (pathOf 'f') 9 0 false]

/-- `create` of a file that neither layer has. -/
theorem lower_unchanged_by_new_file :
    ∃ w ws, Run (requestStep anyone twoDirs) (KeepsLower anyone twoDirs) oneFile (w :: ws) ∧
      (w.tree.lookup (layerPlace anyone twoDirs .upper ++ [['g']])).isSome = true ∧
      ∀ p, w.tree.lookup (layerPlace anyone twoDirs .lower ++ p) =
        oneFile.tree.lookup (layerPlace anyone twoDirs .lower ++ p) := by
  obtain ⟨w, ws, hrun, hnew⟩ :
      ∃ w ws, Run (requestStep anyone twoDirs) (KeepsLower anyone twoDirs) oneFile (w :: ws) ∧
        (w.tree.lookup (layerPlace anyone twoDirs .upper ++ [['g']])).isSome = true :=
    run_reaches newFile (by decide +kernel)
  exact ⟨w, ws, hrun, hnew, lower_unchanged anyone twoDirs (by constructor <;> decide) oneFile
    (w :: ws) hrun w List.mem_cons_self⟩

/-- **NO COPY ON WRITE**: a write to a file of the lower layer changes that file. -/
theorem write_changes_lower_file :
    Apart anyone twoDirs ∧
      ∃ ws, Run (requestStep anyone twoDirs) Always oneFile ws ∧
        ∃ w ∈ ws, w.tree.lookup (layerPlace anyone twoDirs .lower ++ [['f']]) ≠
          oneFile.tree.lookup (layerPlace anyone twoDirs .lower ++ [['f']]) := by
  refine ⟨by constructor <;> decide, _, .next (.write (pathOf 'f') [9] 0) .start trivial rfl,
    _, List.mem_cons_self .., ?_⟩
  decide +kernel

end Overlay
