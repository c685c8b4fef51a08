import UniqueFreshman.OverlayListingProofs

/-! # The overlay file system — what `unlink` leaves of a path

    `unlink` removes the upper file and knows nothing of the lower layer.  A file
    that both layers have is there again afterwards, in its lower version, and a
    file that only the lower layer has is reported missing although `getattr` and
    `readdir` show it.  A removal in the upper layer changes nothing that is seen
    of the lower one (`lstat_lower`), so both are decided by what `lstat` says of
    the two copies beforehand. -/

namespace Overlay

open FileTree FileCalls

variable {proc : Process} {dirs : Dirs} {w w' : World} {parent path : FusePath}

/-- The path `parent`/`c` is not in the mount: `getattr` does not find it, and `readdir`
    hands over no entry of its name, whatever its filler does. -/
structure Gone (proc : Process) (dirs : Dirs) (w : World) (parent path : FusePath) (c : Name) :
    Prop where
  getattr : (myfsGetattr proc dirs w path).1 = -code .ENOENT
  readdir : ∀ filler, ∀ f ∈ (myfsReaddir proc dirs w parent filler).2.1, f.name ≠ c

/-- `getattr` reports on the lower copy when there is no upper one. -/
theorem getattr_status (hu : found proc w (setFpath dirs path.string .upper) = false) :
    (myfsGetattr proc dirs w path).1 =
      status (lstat proc w (setFpath dirs path.string .lower)) := by
  rw [myfsGetattr, if_neg (Bool.not_eq_true _ ▸ hu)]
  cases lstat proc w (setFpath dirs path.string .lower) with
  | error e => rfl
  | ok st => rfl

theorem status_eq_enoent {α : Type} (x : Except Errno α) :
    status x = -code .ENOENT ↔ x = .error .ENOENT := by
  cases x with
  | error e =>
      constructor
      · intro h
        have hcode : code e = code .ENOENT := Int.neg_inj.mp h
        rw [code_injective hcode]
      · intro h
        rw [Except.error.inj h]
        rfl
  | ok a =>
      constructor
      · intro h
        have hpos := code_pos .ENOENT
        rw [status] at h
        omega
      · intro h
        cases h

/-- **THE LOWER LAYER LOOKS THE SAME** after a removal in the upper one. -/
theorem lstat_lower (hdirs : Apart proc dirs)
    (hlower : resolve proc w.tree (dirs.of .lower ++ ['/']) ≠ .error .ENOTDIR)
    (h : unlink proc w (setFpath dirs path.string .upper) = .ok w') :
    lstat proc w' (setFpath dirs path.string .lower) =
      lstat proc w (setFpath dirs path.string .lower) := by
  obtain ⟨hfile, hlookup, -⟩ := unlink_spec h
  rw [place_setFpath] at hfile hlookup
  have hbelow (r : Path) : w'.tree.lookup (layerPlace proc dirs .lower ++ r) =
      w.tree.lookup (layerPlace proc dirs .lower ++ r) := by
    rw [hlookup, if_neg (hdirs.ne r path.names)]
  have hsame (r : Path) (hr : isFile (w.tree.lookup r) = false) :
      w'.tree.lookup r = w.tree.lookup r := by
    rw [hlookup, if_neg]
    -- what is removed is a file
    rintro rfl
    rw [hr] at hfile
    cases hfile
  have hres : resolve proc w'.tree (setFpath dirs path.string .lower) =
      resolve proc w.tree (setFpath dirs path.string .lower) :=
    resolve_below path.proper hsame hbelow hlower
  rw [lstat, lstat, hres]
  cases hq : resolve proc w.tree (setFpath dirs path.string .lower) with
  | error e => rfl
  | ok q =>
      show lstatAt w' q = lstatAt w q
      rw [lstatAt, lstatAt, resolve_ok hq, place_setFpath, hbelow]

/-- What a stream shows, `lstat` does not call missing. -/
theorem lstat_of_mem_stream {layer : Layer} {de : Dirent}
    (h : de ∈ stream proc dirs w parent layer) (hpath : path.names = parent.names ++ [de.name]) :
    lstat proc w (setFpath dirs path.string layer) ≠ .error .ENOENT := by
  have hproper : ∀ c ∈ parent.names ++ [de.name], Proper c := hpath ▸ path.proper
  obtain ⟨q, ⟨hq, hdir⟩, hde⟩ := inLayer_of_mem_stream h
  have hres : resolve proc w.tree (setFpath dirs path.string layer) =
      enter proc w.tree q de.name := by
    rw [setFpath, FusePath.string, hpath]
    exact resolve_concat hproper hq
  rw [lstat, hres]
  obtain ⟨⟨ino, mode, kind⟩, hn, rfl⟩ := isDir_iff.mp hdir
  by_cases hmay : proc.may mode .search = true
  · have hname := hproper de.name (List.mem_append_right _ (List.mem_singleton.mpr rfl))
    have henter : enter proc w.tree q de.name = .ok (q ++ [de.name]) :=
      enter_eq_ok.mpr ⟨⟨_, hn, rfl, hmay⟩, (child_proper hname).symm⟩
    obtain ⟨st, hst⟩ := lstatAt_exists (exists_of_mem_dirents hname hde)
    rw [henter]
    intro hmissing
    cases hst.symm.trans hmissing
  · simp only [enter, hn, if_neg hmay]
    intro hmissing
    cases hmissing

/-- What `readdir` hands over is in one of its streams. -/
theorem mem_readdir {filler : List Filled → Filled → Bool} {f : Filled}
    (h : f ∈ (myfsReaddir proc dirs w path filler).2.1) :
    (∃ de ∈ stream proc dirs w path .lower, f = handed de) ∨
      ∃ de ∈ stream proc dirs (readLower proc dirs w path filler).2 path .upper,
        f = handed de := by
  rw [readdir_eq] at h
  rcases mem_fill h with h | h
  · exact .inl ((mem_fill h).resolve_left List.not_mem_nil)
  · exact .inr h

/-- What is not there is not found. -/
theorem not_found_upper
    (hupper : w.tree.lookup (layerPlace proc dirs .upper ++ path.names) = none) :
    found proc w (setFpath dirs path.string .upper) = false := by
  by_contra hfound
  obtain ⟨q, hq, hsome⟩ := found_iff.mp (eq_true_of_ne_false hfound)
  rw [resolve_ok hq, place_setFpath, hupper] at hsome
  cases hsome

/-- A path without an upper copy is not in the mount just when it has no lower one. -/
theorem gone_iff {c : Name} (hpath : path.names = parent.names ++ [c])
    (hupper : w.tree.lookup (layerPlace proc dirs .upper ++ path.names) = none) :
    Gone proc dirs w parent path c ↔
      lstat proc w (setFpath dirs path.string .lower) = .error .ENOENT := by
  have hgetattr := getattr_status (not_found_upper hupper)
  constructor
  · intro h
    rw [← status_eq_enoent, ← hgetattr]
    exact h.getattr
  · intro hlower
    refine ⟨hgetattr.trans ((status_eq_enoent _).mpr hlower), ?_⟩
    rintro filler f hf rfl
    rcases mem_readdir hf with ⟨de, hde, rfl⟩ | ⟨de, hde, rfl⟩
    · exact lstat_of_mem_stream hde hpath hlower
    · have hnames : path.names = parent.names ++ [de.name] := hpath
      have hproper : ∀ c ∈ parent.names ++ [de.name], Proper c := hnames ▸ path.proper
      have hname := hproper de.name (List.mem_append_right _ (List.mem_singleton.mpr rfl))
      obtain ⟨q, ⟨hq, -⟩, hmem⟩ := inLayer_of_mem_stream hde
      have hsome := exists_of_mem_dirents hname hmem
      rw [readLower_tree, resolve_ok hq, place_setFpath, List.append_assoc, ← hnames, hupper]
        at hsome
      cases hsome

theorem reply_fst (x : Except Errno World) : (reply w x).1 = status x := by
  cases x with
  | error e => rfl
  | ok w' => rfl

/-- **REMOVAL FROM THE MOUNT.**  When `unlink` returns `0` the path is gone, and it does not
    report a missing file, just when the upper layer has the path and, if its copy is removed,
    the lower layer has none. -/
theorem unlink_removes_iff (proc : Process) (dirs : Dirs) (hdirs : Apart proc dirs) (w : World)
    (hlower : resolve proc w.tree (dirs.of .lower ++ ['/']) ≠ .error .ENOTDIR)
    (parent path : FusePath) (c : Name) (hpath : path.names = parent.names ++ [c]) :
    (((myfsUnlink proc dirs w path).1 = 0 →
        Gone proc dirs (myfsUnlink proc dirs w path).2 parent path c) ∧
      (myfsUnlink proc dirs w path).1 ≠ -code .ENOENT) ↔
    lstat proc w (setFpath dirs path.string .upper) ≠ .error .ENOENT ∧
      ((unlink proc w (setFpath dirs path.string .upper)).isOk = true →
        lstat proc w (setFpath dirs path.string .lower) = .error .ENOENT) := by
  have hgone : (unlink proc w (setFpath dirs path.string .upper)).isOk = true →
      (Gone proc dirs (myfsUnlink proc dirs w path).2 parent path c ↔
        lstat proc w (setFpath dirs path.string .lower) = .error .ENOENT) := by
    intro hok
    rw [myfsUnlink]
    cases h : unlink proc w (setFpath dirs path.string .upper) with
    | error e =>
        rw [h] at hok
        cases hok
    | ok w' =>
        have hupper : w'.tree.lookup (layerPlace proc dirs .upper ++ path.names) = none := by
          rw [(unlink_spec h).2.1, place_setFpath, if_pos rfl]
        rw [← lstat_lower hdirs hlower h]
        exact gone_iff hpath hupper
  have hret : (myfsUnlink proc dirs w path).1 =
      status (unlink proc w (setFpath dirs path.string .upper)) := reply_fst _
  rw [hret, ne_eq, status_eq_zero, status_eq_enoent, unlink_enoent_iff, and_comm]
  exact and_congr_right' (imp_congr_right hgone)

/-- `oneFile` with another file `g` in the upper layer. -/
def upperFile : World :=
  { oneFile with tree := oneFile.tree.set [['u'], ['g']] (some ⟨4, 0o644, .file [2]⟩) }

/-- A file that only the upper layer has. -/
theorem unlink_removes_of_upper_file :
    (myfsGetattr anyone twoDirs upperFile (pathOf 'g')).1 = 0 ∧
      (myfsUnlink anyone twoDirs upperFile (pathOf 'g')).1 = 0 ∧
      Gone anyone twoDirs (myfsUnlink anyone twoDirs upperFile (pathOf 'g')).2 rootPath
        (pathOf 'g') ['g'] := by
  have hret : (myfsUnlink anyone twoDirs upperFile (pathOf 'g')).1 = 0 := by decide +kernel
  refine ⟨by decide +kernel, hret, ?_⟩
  exact ((unlink_removes_iff anyone twoDirs (by constructor <;> decide) upperFile
    (by decide +kernel) rootPath (pathOf 'g') ['g'] rfl).mpr
      ⟨by decide +kernel, fun _ => by decide +kernel⟩).1 hret

/-- The file `f` in the directory `d`. -/
def nestedPath : FusePath := ⟨[['d'], ['f']], by decide⟩

/-- **STILL THERE**: a file that both layers have is in the mount after its removal; and a
    file of the lower layer is reported missing. -/
theorem unlink_uncovers_lower_file :
    ((myfsGetattr anyone twoDirs twoCopies nestedPath).1 = 0 ∧
      (myfsUnlink anyone twoDirs twoCopies nestedPath).1 = 0 ∧
      (myfsGetattr anyone twoDirs (myfsUnlink anyone twoDirs twoCopies nestedPath).2
        nestedPath).1 = 0 ∧
      ['f'] ∈ (myfsReaddir anyone twoDirs (myfsUnlink anyone twoDirs twoCopies nestedPath).2
        (pathOf 'd') fun _ _ => false).2.1.map Filled.name) ∧
    (myfsGetattr anyone twoDirs oneFile (pathOf 'f')).1 = 0 ∧
      (myfsUnlink anyone twoDirs oneFile (pathOf 'f')).1 = -code .ENOENT := by
  decide +kernel

end Overlay
