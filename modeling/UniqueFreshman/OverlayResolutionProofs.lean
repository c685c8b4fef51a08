import UniqueFreshman.OverlayProofs

/-! # The overlay file system — which copy a request acts on

    A path is looked up in the upper layer first and then in the lower one, by
    code that is repeated in six operations.  `ActsOn layer` says that each of
    them does at the place of that layer's copy what the file system call does
    there; `Fails` says that each returns an error.

    `getattr`, `read` and `write` return an error when neither layer has the
    path.  `access`, `open` and `truncate` then return what `ret` happened to
    hold, and only `-1` is taken for an error. -/

namespace Overlay

open FileTree FileCalls
open CallSequence (bind_eq_ok)

variable {proc : Process} {dirs : Dirs} {w : World} {path : FusePath} {layer : Layer}

/-- The layer's directory can be reached, and has something at `p`. -/
def HasAt (proc : Process) (dirs : Dirs) (w : World) (layer : Layer) (p : Path) : Prop :=
  resolve proc w.tree (dirs.of layer ++ ['/']) = .ok (layerPlace proc dirs layer) ∧
    (w.tree.lookup (layerPlace proc dirs layer ++ p)).isSome = true

/-- What is at `p` can be reached, if the directories on the way may be searched. -/
theorem HasAt.resolve {p : Path} (h : HasAt proc dirs w layer p) (hp : ∀ c ∈ p, Proper c)
    (hsearch : ∀ q n, q <+: p → q ≠ p → w.tree.lookup (layerPlace proc dirs layer ++ q) = some n →
      n.kind = .dir → proc.may n.mode .search = true) :
    FileTree.resolve proc w.tree (dirs.of layer ++ absolute p) =
      .ok (layerPlace proc dirs layer ++ p) := by
  refine resolve_of_reached hp h.1 h.2 fun q n hq hne hn => hsearch q n hq hne hn ?_
  -- something stands below `q`
  obtain ⟨r, rfl⟩ := hq
  cases r with
  | nil => exact absurd (List.append_nil q).symm hne
  | cons c r =>
      have habove := h.2
      rw [← List.append_assoc, List.append_cons] at habove
      obtain ⟨m, hm, hdir⟩ := isDir_iff.mp (w.tree.dir_above (w.tree.exists_above r habove))
      rw [Option.some.inj (hn.symm.trans hm)]
      exact hdir

/-- `access` answers whether the layer has the path, if the way may be searched. -/
theorem found_iff_hasAt {p : Path} (hp : ∀ c ∈ p, Proper c)
    (hsearch : ∀ q n, q <+: p → q ≠ p → w.tree.lookup (layerPlace proc dirs layer ++ q) = some n →
      n.kind = .dir → proc.may n.mode .search = true) :
    found proc w (dirs.of layer ++ absolute p) = true ↔ HasAt proc dirs w layer p := by
  rw [found_iff]
  constructor
  · rintro ⟨q, hq, hsome⟩
    obtain ⟨hdir, rfl⟩ := reached_of_resolve hp hq hsome
    exact ⟨hdir, hsome⟩
  · intro h
    exact ⟨_, h.resolve hp hsearch, h.2⟩

/-- The layer's directory can be reached, and the path exists in it. -/
def Has (proc : Process) (dirs : Dirs) (w : World) (layer : Layer) (path : FusePath) : Prop :=
  HasAt proc dirs w layer path.names

/-- The directories of the layers that the path leads through may be searched. -/
def Passable (proc : Process) (dirs : Dirs) (w : World) (path : FusePath) : Prop :=
  ∀ layer q n, q <+: path.names → q ≠ path.names →
    w.tree.lookup (layerPlace proc dirs layer ++ q) = some n → n.kind = .dir →
    proc.may n.mode .search = true

/-- What a layer has is where its directory and the path say. -/
theorem Has.resolve (h : Has proc dirs w layer path) (hpass : Passable proc dirs w path) :
    FileTree.resolve proc w.tree (setFpath dirs path.string layer) =
      .ok (layerPlace proc dirs layer ++ path.names) :=
  HasAt.resolve h path.proper (hpass layer)

theorem found_iff_has (hpass : Passable proc dirs w path) (layer : Layer) :
    found proc w (setFpath dirs path.string layer) = true ↔ Has proc dirs w layer path :=
  found_iff_hasAt path.proper (hpass layer)

/-- The layer whose copy is the file of the mount: the upper one if it has the path. -/
def IsCopy (proc : Process) (dirs : Dirs) (w : World) (path : FusePath) : Layer → Prop
  | .upper => Has proc dirs w .upper path
  | .lower => ¬ Has proc dirs w .upper path ∧ Has proc dirs w .lower path

theorem IsCopy.has (h : IsCopy proc dirs w path layer) : Has proc dirs w layer path := by
  cases layer with
  | lower => exact h.2
  | upper => exact h

/-- Every operation acts on the copy in `layer`; `ra`, `ro` and `rt` are the values the
    unset `ret` of `access`, `open` and `truncate` would hold. -/
structure ActsOn (proc : Process) (dirs : Dirs) (w : World) (path : FusePath) (ra ro rt : Int)
    (layer : Layer) : Prop where
  getattr : ∃ st, lstatAt w (layerPlace proc dirs layer ++ path.names) = .ok st ∧
    myfsGetattr proc dirs w path = (0, st)
  access : myfsAccess proc dirs w path fOk ra = 0
  opens : myfsOpen proc dirs w path rdonly ro =
    replyOpen w (openAt proc w (layerPlace proc dirs layer ++ path.names) false rdonly 0)
  read : ∀ size offset fiNull, myfsRead proc dirs w path size offset fiNull =
    readOpened w size offset fiNull
      (openAt proc w (layerPlace proc dirs layer ++ path.names) false rdonly 0)
  write : ∀ data offset, myfsWrite proc dirs w path data offset =
    writeOpened w data offset
      (openAt proc w (layerPlace proc dirs layer ++ path.names) false wronly 0)
  truncate : ∀ size, myfsTruncate proc dirs w path size rt =
    reply w (if size < 0 then .error .EINVAL
      else truncateAt proc w (layerPlace proc dirs layer ++ path.names) size)

/-- Every operation returns a negative error code. -/
structure Fails (proc : Process) (dirs : Dirs) (w : World) (path : FusePath) (ra ro rt : Int) :
    Prop where
  getattr : (myfsGetattr proc dirs w path).1 < 0
  access : myfsAccess proc dirs w path fOk ra < 0
  opens : (myfsOpen proc dirs w path rdonly ro).1 < 0
  read : ∀ size offset fiNull, (myfsRead proc dirs w path size offset fiNull).1 < 0
  write : ∀ data offset, (myfsWrite proc dirs w path data offset).1 < 0
  truncate : ∀ size, (myfsTruncate proc dirs w path size rt).1 < 0

/-- The choice the operations make, on the copy of the mount. -/
theorem IsCopy.choice {α : Type} (h : IsCopy proc dirs w path layer)
    (hpass : Passable proc dirs w path) (f : List Char → α) (d : α) :
    (if found proc w (setFpath dirs path.string .upper) then
        f (setFpath dirs path.string .upper)
      else if found proc w (setFpath dirs path.string .lower) then
        f (setFpath dirs path.string .lower)
      else d) = f (setFpath dirs path.string layer) := by
  cases layer with
  | upper => rw [if_pos ((found_iff_has hpass .upper).mpr h)]
  | lower =>
      rw [if_neg (mt (found_iff_has hpass .upper).mp h.1),
        if_pos ((found_iff_has hpass .lower).mpr h.2)]

/-- The slash at the end of a string makes no difference unless a file is created. -/
theorem openFile_resolved {s : List Char} {q : Path} {flags : Flags}
    (hs : resolve proc w.tree s = .ok q) (hcreat : flags.creat = false) :
    openFile proc w (some s) flags 0 = openAt proc w q false flags 0 := by
  simp only [openFile, hs, openAt, openNode, hcreat, Bool.not_false, if_true]

theorem neg_code (e : Errno) : -code e < 0 := by
  have := code_pos e
  omega

theorem status_eq_zero {α : Type} (x : Except Errno α) : status x = 0 ↔ x.isOk = true := by
  cases x with
  | error e =>
      have := code_pos e
      exact ⟨fun h => by rw [status] at h; omega, nofun⟩
  | ok a => exact ⟨fun _ => rfl, fun _ => rfl⟩

/-- The variable `ret`, which nothing has set, decides. -/
theorem unset_neg_iff (hl : found proc w (setFpath dirs path.string .lower) = false)
    {ret₀ : Int} : unset proc dirs w path ret₀ < 0 ↔ ret₀ = -1 := by
  rw [unset]
  split
  · next hret =>
      cases h : access proc w (setFpath dirs path.string .lower) fOk with
      | error e => exact ⟨fun _ => hret, fun _ => neg_code e⟩
      | ok _ => rw [found, h] at hl; cases hl
  · next hret => exact ⟨fun h => absurd h (Int.lt_irrefl 0), fun h => absurd h hret⟩

/-- `lstat` succeeds on what is there. -/
theorem lstatAt_ok {q : Path} {st : Stat} (h : lstatAt w q = .ok st) :
    (w.tree.lookup q).isSome = true := by
  cases hq : w.tree.lookup q with
  | none =>
      rw [lstatAt, hq] at h
      cases h
  | some n => rfl

/-- What exists has attributes. -/
theorem lstatAt_exists {q : Path} (h : (w.tree.lookup q).isSome = true) :
    ∃ st, lstatAt w q = .ok st := by
  obtain ⟨⟨ino, mode, kind⟩, hn⟩ := Option.isSome_iff_exists.mp h
  rw [lstatAt, hn]
  cases kind using Kind.cases with
  | dir => exact ⟨_, rfl⟩
  | file bytes => exact ⟨_, rfl⟩

/-- `getattr` answers from the copy. -/
theorem IsCopy.getattr (h : IsCopy proc dirs w path layer) (hpass : Passable proc dirs w path) :
    ∃ st, lstatAt w (layerPlace proc dirs layer ++ path.names) = .ok st ∧
      myfsGetattr proc dirs w path = (0, st) := by
  obtain ⟨st, hst⟩ := lstatAt_exists h.has.2
  refine ⟨st, hst, ?_⟩
  have hlstat : lstat proc w (setFpath dirs path.string layer) = .ok st := by
    rw [lstat, h.has.resolve hpass]
    exact hst
  cases layer with
  | upper => rw [myfsGetattr, if_pos ((found_iff_has hpass .upper).mpr h), hlstat]
  | lower => rw [myfsGetattr, if_neg (mt (found_iff_has hpass .upper).mp h.1), hlstat]

/-- **ONE COPY**: all operations act on the copy of the mount. -/
theorem IsCopy.actsOn (h : IsCopy proc dirs w path layer) (hpass : Passable proc dirs w path)
    (ra ro rt : Int) : ActsOn proc dirs w path ra ro rt layer := by
  have hres := h.has.resolve hpass
  have hfile : file proc dirs w path = some (setFpath dirs path.string layer) :=
    h.choice hpass some none
  refine ⟨h.getattr hpass, ?_, ?_, ?_, ?_, ?_⟩
  · have hret : myfsAccess proc dirs w path fOk ra =
        status (access proc w (setFpath dirs path.string layer) fOk) :=
      h.choice hpass (fun s => status (access proc w s fOk)) _
    rw [hret, status_eq_zero]
    exact (found_iff_has hpass layer).mpr h.has
  · rw [← openFile_resolved hres rfl]
    exact h.choice hpass (fun s => replyOpen w (openFile proc w (some s) rdonly 0)) _
  · intro size offset fiNull
    rw [myfsRead, hfile, openFile_resolved hres rfl]
  · intro data offset
    rw [myfsWrite, hfile, openFile_resolved hres rfl]
  · intro size
    have hret : myfsTruncate proc dirs w path size rt =
        reply w (truncate proc w (setFpath dirs path.string layer) size) :=
      h.choice hpass (fun s => reply w (truncate proc w s size)) _
    rw [hret, truncate, hres]
    rfl

/-! ## Neither layer has the path -/

section Neither

variable (hu : found proc w (setFpath dirs path.string .upper) = false)
  (hl : found proc w (setFpath dirs path.string .lower) = false)
include hu hl

/-- Both tests fail, and the function goes on to its last branch. -/
theorem choice_neither {α : Type} (f : List Char → α) (d : α) :
    (if found proc w (setFpath dirs path.string .upper) then
        f (setFpath dirs path.string .upper)
      else if found proc w (setFpath dirs path.string .lower) then
        f (setFpath dirs path.string .lower)
      else d) = d := by
  rw [if_neg (Bool.not_eq_true _ ▸ hu), if_neg (Bool.not_eq_true _ ▸ hl)]

/-- An unset `ret` is an error only if it happens to be `-1`. -/
theorem access_neg_iff (ra : Int) : myfsAccess proc dirs w path fOk ra < 0 ↔ ra = -1 := by
  have hret : myfsAccess proc dirs w path fOk ra = unset proc dirs w path ra :=
    choice_neither hu hl (fun s => status (access proc w s fOk)) _
  rw [hret]
  exact unset_neg_iff hl

theorem open_neg_iff (ro : Int) : (myfsOpen proc dirs w path rdonly ro).1 < 0 ↔ ro = -1 := by
  have hret : myfsOpen proc dirs w path rdonly ro =
      (unset proc dirs w path ro, if ro = -1 then none else some ro, w) :=
    choice_neither hu hl (fun s => replyOpen w (openFile proc w (some s) rdonly 0)) _
  rw [hret]
  exact unset_neg_iff hl

/-- `truncate` returns what its variable holds. -/
theorem truncate_neg_iff (size rt : Int) :
    (myfsTruncate proc dirs w path size rt).1 < 0 ↔ rt = -1 := by
  have hret : myfsTruncate proc dirs w path size rt = (unset proc dirs w path rt, w) :=
    choice_neither hu hl (fun s => reply w (truncate proc w s size)) _
  rw [hret]
  exact unset_neg_iff hl

/-- `getattr` is the one that reports an error. -/
theorem getattr_neg : (myfsGetattr proc dirs w path).1 < 0 := by
  obtain ⟨e, he⟩ : ∃ e, lstat proc w (setFpath dirs path.string .lower) = .error e := by
    cases h : lstat proc w (setFpath dirs path.string .lower) with
    | error e => exact ⟨e, rfl⟩
    | ok st =>
        obtain ⟨q, hq, hst⟩ := bind_eq_ok.mp h
        have hfound := found_iff.mpr ⟨q, hq, lstatAt_ok hst⟩
        exact nomatch hl.symm.trans hfound
  rw [myfsGetattr, if_neg (Bool.not_eq_true _ ▸ hu), he]
  exact neg_code e

/-- **WHICH OPERATIONS FAIL**, when neither layer has the path. -/
theorem fails_iff (ra ro rt : Int) :
    Fails proc dirs w path ra ro rt ↔ ra = -1 ∧ ro = -1 ∧ rt = -1 := by
  have hfile : file proc dirs w path = none := choice_neither hu hl some none
  constructor
  · intro h
    exact ⟨(access_neg_iff hu hl ra).mp h.access, (open_neg_iff hu hl ro).mp h.opens,
      (truncate_neg_iff hu hl 0 rt).mp (h.truncate 0)⟩
  · rintro ⟨hra, hro, hrt⟩
    refine ⟨getattr_neg hu hl, (access_neg_iff hu hl ra).mpr hra,
      (open_neg_iff hu hl ro).mpr hro, ?_, ?_, fun size => (truncate_neg_iff hu hl size rt).mpr hrt⟩
    · -- `open(NULL)` fails
      intro size offset fiNull
      rw [myfsRead, hfile]
      exact neg_code .EFAULT
    · intro data offset
      rw [myfsWrite, hfile]
      exact neg_code .EFAULT

end Neither

end Overlay
