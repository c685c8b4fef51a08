import UniqueFreshman.OverlayResolutionProofs

/-! # The overlay file system — what `readdir` lists

    `readdir` hands over the entries of the lower directory that the upper one
    does not have, and then all upper entries.  To look whether the upper
    directory has a name it appends the name to the path string of that
    directory.  The string of the root ends in a slash, and the others do not:
    below the root the test is about a file next to the directory, whose name is
    the one of the directory and the entry in one word.

    The layers may have symbolic links.  The test follows them, and so does not
    find a link that leads nowhere; a directory stream gives the link itself. -/

namespace Overlay

open FileTree FileCalls DescriptorTable

/-! ## Two lists under one key -/

section Merge

variable {α κ : Type} {key : α → κ} {keep : α → Bool} {ls us : List α}

/-- The members of `ls` that are kept, and all of `us`, are the members of `us` and those of
    `ls` whose key is not one of `us`, each key once, just when the right ones are kept. -/
theorem merge_iff (hls : (ls.map key).Nodup) (hus : (us.map key).Nodup) :
    (((ls.filter keep ++ us).map key).Nodup ∧
      ∀ a, a ∈ ls.filter keep ++ us ↔ a ∈ us ∨ (a ∈ ls ∧ ∀ u ∈ us, key u ≠ key a)) ↔
    ∀ a ∈ ls, (keep a = false ↔ ∃ u ∈ us, key u = key a) := by
  constructor
  · rintro ⟨hnodup, hmem⟩ a ha
    rw [List.map_append] at hnodup
    constructor
    · intro hdrop
      by_contra hno
      push Not at hno
      -- `a` is wanted, so something with its key was kept, but then so was `a`
      rcases List.mem_append.mp ((hmem a).mpr (.inr ⟨ha, hno⟩)) with h | h
      · rw [(List.mem_filter.mp h).2] at hdrop
        cases hdrop
      · exact hno a h rfl
    · rintro ⟨u, hu, heq⟩
      by_contra hkept
      have ha' : a ∈ ls.filter keep := List.mem_filter.mpr ⟨ha, eq_true_of_ne_false hkept⟩
      exact List.disjoint_of_nodup_append hnodup (List.mem_map_of_mem ha')
        (heq ▸ List.mem_map_of_mem hu)
  · intro h
    constructor
    · rw [List.map_append]
      refine List.nodup_append.mpr ⟨hls.sublist (List.filter_sublist.map key), hus, ?_⟩
      rintro x hx y hy rfl
      obtain ⟨a, ha, rfl⟩ := List.mem_map.mp hx
      obtain ⟨u, hu, heq⟩ := List.mem_map.mp hy
      obtain ⟨hals, hkept⟩ := List.mem_filter.mp ha
      rw [(h a hals).mpr ⟨u, hu, heq⟩] at hkept
      cases hkept
    · intro a
      rw [List.mem_append, List.mem_filter]
      constructor
      · rintro (⟨ha, hkept⟩ | ha)
        · refine .inr ⟨ha, fun u hu heq => ?_⟩
          rw [(h a ha).mpr ⟨u, hu, heq⟩] at hkept
          cases hkept
        · exact .inl ha
      · rintro (ha | ⟨ha, hno⟩)
        · exact .inr ha
        · refine .inl ⟨ha, eq_true_of_ne_false fun hdrop => ?_⟩
          obtain ⟨u, hu, heq⟩ := (h a ha).mp hdrop
          exact hno u hu heq

end Merge

/-! ## The directory in the two layers -/

section Layers

variable {Links : Prop} (proc : Process) (dirs : Dirs) (w : WorldOf Links)

/-- The path is a directory in the layer, and leads the process to `q`. -/
def IsDirectory (path : FusePath) (layer : Layer) (q : Path) : Prop :=
  resolve proc w.tree (setFpath dirs path.string layer) = .ok q ∧
    isDir (w.tree.lookup q) = true

/-- An entry of the directory in the layer. -/
def InLayer (path : FusePath) (layer : Layer) (de : Dirent) : Prop :=
  ∃ q, IsDirectory proc dirs w path layer q ∧ de ∈ dirents w.tree q

/-- An entry as it is handed to `filler`. -/
def handed (de : Dirent) : Filled := ⟨de.name, de.ino, de.type <<< 12⟩

/-- The merged directory: the upper entries, and the lower ones whose name no upper entry
    has; each name once. -/
structure MergedListing (path : FusePath) (filled : List Filled) : Prop where
  once : (filled.map Filled.name).Nodup
  entries : ∀ f, f ∈ filled ↔ ∃ de, f = handed de ∧
    (InLayer proc dirs w path .upper de ∨ (InLayer proc dirs w path .lower de ∧
      ∀ u, InLayer proc dirs w path .upper u → u.name ≠ de.name))

/-- The process may read the directory in both layers, and search it in the upper one. -/
structure Listable (path : FusePath) : Prop where
  read : ∀ layer q n, IsDirectory proc dirs w path layer q → w.tree.lookup q = some n →
    proc.may n.mode .read = true
  search : ∀ q n, IsDirectory proc dirs w path .upper q → w.tree.lookup q = some n →
    proc.may n.mode .search = true

/-- What the test of `readdir` finds is what it should find.  At the root it misses the links
    that lead nowhere.  Below the root it is about the name of the directory and of the entry
    in one word, next to the directory. -/
structure ShadowsSeen (path : FusePath) : Prop where
  atRoot : path.names = [] → ∀ de u, InLayer proc dirs w path .lower de →
    InLayer proc dirs w path .upper u → u.name = de.name → u.isLink = true →
    Leads proc w.tree (dirs.of .upper ++ '/' :: de.name)
  below : ∀ p d, path.names = p ++ [d] → ∀ de, InLayer proc dirs w path .lower de →
    (Leads proc w.tree (dirs.of .upper ++ absolute (p ++ [d ++ de.name])) ↔
      ∃ u, InLayer proc dirs w path .upper u ∧ u.name = de.name)

/-- The entries a directory stream of the layer gives; none, if it cannot be opened. -/
def stream (path : FusePath) (layer : Layer) : List Dirent :=
  match opendir proc w (setFpath dirs path.string layer) with
  | .error _ => []
  | .ok (_, q, w) => dirents w.tree q

/-- Whether the test of `readdir` finds nothing of this name in the upper layer. -/
def unseen (path : FusePath) (de : Dirent) : Bool :=
  !found proc w (setFpath dirs path.string .upper ++ de.name)

end Layers

variable {Links : Prop} {proc : Process} {dirs : Dirs} {w : WorldOf Links} {path : FusePath}
  {layer : Layer}

/-- `filler` gets all of an entry. -/
theorem handed_injective {a b : Dirent} (h : handed a = handed b) : a = b := by
  obtain ⟨hname, hino, htype⟩ := Filled.mk.inj h
  have htype' : a.type = b.type := by
    rw [Nat.shiftLeft_eq, Nat.shiftLeft_eq] at htype
    exact Nat.eq_of_mul_eq_mul_right (by decide) htype
  cases a
  cases b
  simp only at hname hino htype'
  rw [hname, hino, htype']

theorem found_congr {w' : WorldOf Links} (h : w'.tree = w.tree) (s : List Char) :
    found proc w' s = found proc w s := by
  rw [Bool.eq_iff_iff, found_iff, found_iff, h]

/-- One entry: kept or not, and the loop goes on unless `filler` is full. -/
theorem fill_cons (filler : List Filled → Filled → Bool) (keep : Dirent → Bool)
    (passed : List Filled) (de : Dirent) (des : List Dirent) :
    fill filler keep passed (de :: des) =
      if keep de then
        if filler passed (handed de) then passed ++ [handed de]
        else fill filler keep (passed ++ [handed de]) des
      else fill filler keep passed des :=
  rfl

/-- A filler that never stops gets every entry that is kept. -/
theorem fill_all (keep : Dirent → Bool) (passed : List Filled) (des : List Dirent) :
    fill (fun _ _ => false) keep passed des = passed ++ (des.filter keep).map handed := by
  induction des generalizing passed with
  | nil => exact (List.append_nil passed).symm
  | cons de des ih =>
      rw [fill_cons, List.filter_cons]
      split
      · rw [if_neg Bool.false_ne_true, ih, List.append_assoc]
        rfl
      · exact ih passed

theorem mem_fill {filler : List Filled → Filled → Bool} {keep : Dirent → Bool}
    {passed : List Filled} {des : List Dirent} {f : Filled}
    (h : f ∈ fill filler keep passed des) : f ∈ passed ∨ ∃ de ∈ des, f = handed de := by
  induction des generalizing passed with
  | nil => exact .inl h
  | cons de des ih =>
      have hstep : f ∈ passed ++ [handed de] → f ∈ passed ∨ ∃ d ∈ de :: des, f = handed d := by
        intro hf
        rcases List.mem_append.mp hf with hf | hf
        · exact .inl hf
        · exact .inr ⟨de, List.mem_cons_self, List.mem_singleton.mp hf⟩
      have hrest : (∃ d ∈ des, f = handed d) → ∃ d ∈ de :: des, f = handed d := by
        rintro ⟨d, hd, hf⟩
        exact ⟨d, List.mem_cons_of_mem de hd, hf⟩
      rw [fill_cons] at h
      split at h
      · split at h
        · exact hstep h
        · rcases ih h with hf | hf
          · exact hstep hf
          · exact .inr (hrest hf)
      · exact (ih h).imp_right hrest

/-- **WHAT `readdir` HANDS OVER**: from the lower stream what its test does not find in the
    upper layer, and then the upper stream. -/
theorem readdir_eq (path : FusePath) (filler : List Filled → Filled → Bool) :
    (myfsReaddir proc dirs w path filler).2.1 =
      fill filler (fun _ => true)
        (fill filler (unseen proc dirs w path) [] (stream proc dirs w path .lower))
        (stream proc dirs (readLower proc dirs w path filler).2 path .upper) := by
  have hlower : (readLower proc dirs w path filler).1 =
      fill filler (unseen proc dirs w path) [] (stream proc dirs w path .lower) := by
    rw [readLower, stream]
    cases h : opendir proc w (setFpath dirs path.string .lower) with
    | error e => rfl
    | ok r =>
        have hkeep : (fun de : Dirent =>
            !found proc r.2.2 (setFpath dirs path.string .upper ++ de.name)) =
            unseen proc dirs w path := by
          ext de
          rw [unseen, found_congr (opendir_ok h)]
        show fill filler _ [] _ = _
        rw [hkeep]
  rw [← hlower]
  show (readUpper proc dirs _ path filler _).1 = _
  rw [readUpper, stream]
  cases opendir proc (readLower proc dirs w path filler).2 (setFpath dirs path.string .upper) with
  | error e => rfl
  | ok r => rfl

/-! ## The streams of the layers -/

/-- What a stream gives is in the directory that was opened. -/
theorem inLayer_of_mem_stream {de : Dirent} (h : de ∈ stream proc dirs w path layer) :
    InLayer proc dirs w path layer de := by
  rw [stream] at h
  cases hopen : opendir proc w (setFpath dirs path.string layer) with
  | error e =>
      rw [hopen] at h
      cases h
  | ok r =>
      obtain ⟨fd, q, w'⟩ := r
      obtain ⟨hq, hdir, -, rfl⟩ := opendir_spec hopen
      rw [hopen] at h
      exact ⟨q, ⟨hq, hdir⟩, h⟩

/-- **A STREAM GIVES THE DIRECTORY** when the process may list it and a descriptor is free. -/
theorem mem_stream (hlist : Listable proc dirs w path) {fd : Nat} (hfd : w.fds.lowest = some fd)
    {de : Dirent} : de ∈ stream proc dirs w path layer ↔ InLayer proc dirs w path layer de := by
  refine ⟨inLayer_of_mem_stream, ?_⟩
  rintro ⟨q, hq, hde⟩
  obtain ⟨n, hn, hkind⟩ := isDir_iff.mp hq.2
  rw [stream, opendir_eq hq.1 hn hkind (hlist.read layer q n hq hn) hfd]
  exact hde

/-- A layer lists no name twice. -/
theorem nodup_stream (ht : ProperNames w.tree) :
    ((stream proc dirs w path layer).map Dirent.name).Nodup := by
  rw [stream]
  cases hopen : opendir proc w (setFpath dirs path.string layer) with
  | error e => exact List.nodup_nil
  | ok r =>
      obtain ⟨fd, q, w'⟩ := r
      obtain ⟨-, -, -, rfl⟩ := opendir_spec hopen
      exact nodup_names ht q

/-! ## The test for upper entries -/

/-- The names of entries are `.`, `..`, and proper ones. -/
theorem InLayer.name (ht : ProperNames w.tree) {de : Dirent}
    (h : InLayer proc dirs w path layer de) :
    de.name = ['.'] ∨ de.name = ['.', '.'] ∨ Proper de.name := by
  obtain ⟨q, -, hde⟩ := h
  exact name_of_mem_dirents ht hde

/-- At the root the test is about an entry of the upper directory. -/
theorem setFpath_at_root (hroot : path.names = []) (c : Name) :
    setFpath dirs path.string .upper ++ c = dirs.of .upper ++ '/' :: c := by
  rw [setFpath, FusePath.string, hroot, List.append_assoc]
  rfl

/-- Below the root it is about a file next to the upper directory. -/
theorem setFpath_below_root {p : Path} {d : Name} (hnames : path.names = p ++ [d]) (c : Name) :
    setFpath dirs path.string .upper ++ c = dirs.of .upper ++ absolute (p ++ [d ++ c]) := by
  simp [setFpath, FusePath.string, hnames, absolute]

/-- What the test finds at the root is an upper entry. -/
theorem inLayer_of_leads (hroot : path.names = []) {c : Name}
    (hc : c = ['.'] ∨ c = ['.', '.'] ∨ Proper c)
    (h : Leads proc w.tree (dirs.of .upper ++ '/' :: c)) :
    ∃ u, InLayer proc dirs w path .upper u ∧ u.name = c := by
  obtain ⟨hne, hslash⟩ := ne_nil_and_no_slash hc
  obtain ⟨d, hd, hdir, hsome⟩ := h.entry hne hslash
  obtain ⟨n, hn⟩ := Option.isSome_iff_exists.mp hsome
  have hd' : resolve proc w.tree (setFpath dirs path.string .upper) = .ok d := by
    rw [setFpath, FusePath.string, hroot]
    exact hd
  exact ⟨direntOf c n, ⟨d, ⟨hd', hdir⟩, mem_dirents_of_lookup hc hn⟩, rfl⟩

/-- An upper entry that is not a link is found at the root. -/
theorem leads_of_inLayer (ht : ProperNames w.tree) (hlist : Listable proc dirs w path)
    (hroot : path.names = []) {u : Dirent} (hu : InLayer proc dirs w path .upper u)
    (hlink : ¬ u.isLink = true) : Leads proc w.tree (dirs.of .upper ++ '/' :: u.name) := by
  obtain ⟨hne, hslash⟩ := ne_nil_and_no_slash (hu.name ht)
  obtain ⟨d, hd, hmem⟩ := hu
  obtain ⟨n, hn, hkind⟩ := isDir_iff.mp hd.2
  obtain ⟨m, hm, hdirent⟩ := lookup_of_mem_dirents ht hmem
  have hd' : resolve proc w.tree (dirs.of .upper ++ ['/']) = .ok d := by
    have h := hd.1
    rw [setFpath, FusePath.string, hroot] at h
    exact h
  refine leads_entry hne hslash hd' hn hkind (hlist.search d n hd hn) hm fun text h hm' => hlink ?_
  rw [hdirent]
  exact (isLink_direntOf _ m).mpr ⟨text, h, hm'⟩

/-- At the root the test finds the upper entries, but for links that lead nowhere. -/
theorem found_at_root_iff (ht : ProperNames w.tree) (hlist : Listable proc dirs w path)
    (hroot : path.names = []) {c : Name} (hc : c = ['.'] ∨ c = ['.', '.'] ∨ Proper c) :
    (Leads proc w.tree (dirs.of .upper ++ '/' :: c) ↔
      ∃ u, InLayer proc dirs w path .upper u ∧ u.name = c) ↔
    ∀ u, InLayer proc dirs w path .upper u → u.name = c → u.isLink = true →
      Leads proc w.tree (dirs.of .upper ++ '/' :: c) := by
  constructor
  · intro h u hu huc _
    exact h.mpr ⟨u, hu, huc⟩
  · intro h
    refine ⟨inLayer_of_leads hroot hc, ?_⟩
    rintro ⟨u, hu, rfl⟩
    by_cases hlink : u.isLink = true
    · exact h u hu rfl hlink
    · exact leads_of_inLayer ht hlist hroot hu hlink

/-- **WHEN THE TEST IS RIGHT.** -/
theorem shadowsSeen_iff (ht : ProperNames w.tree) (hlist : Listable proc dirs w path) :
    ShadowsSeen proc dirs w path ↔ ∀ de, InLayer proc dirs w path .lower de →
      (found proc w (setFpath dirs path.string .upper ++ de.name) = true ↔
        ∃ u, InLayer proc dirs w path .upper u ∧ u.name = de.name) := by
  constructor
  · intro h de hde
    rw [found_iff]
    rcases List.eq_nil_or_concat' path.names with hroot | ⟨p, d, hnames⟩
    · rw [setFpath_at_root hroot]
      refine (found_at_root_iff ht hlist hroot (hde.name ht)).mpr fun u hu huc hlink => ?_
      exact h.atRoot hroot de u hde hu huc hlink
    · rw [setFpath_below_root hnames]
      exact h.below p d hnames de hde
  · intro h
    constructor
    · intro hroot de u hde hu huc hlink
      have hde' := h de hde
      rw [found_iff, setFpath_at_root hroot] at hde'
      exact (found_at_root_iff ht hlist hroot (hde.name ht)).mp hde' u hu huc hlink
    · intro p d hnames de hde
      rw [← setFpath_below_root hnames, ← found_iff]
      exact h de hde

/-! ## The condition as a test -/

section Decide

variable (proc dirs w path layer)

/-- The entries of the directory in the layer; none, if it is not a directory there. -/
def entriesIn : List Dirent :=
  match resolve proc w.tree (setFpath dirs path.string layer) with
  | .error _ => []
  | .ok q => if isDir (w.tree.lookup q) then dirents w.tree q else []

variable {proc dirs w path layer}

/-- The entries as a list. -/
theorem mem_entriesIn {de : Dirent} :
    de ∈ entriesIn proc dirs w path layer ↔ InLayer proc dirs w path layer de := by
  rw [entriesIn, InLayer]
  simp only [IsDirectory]
  cases resolve proc w.tree (setFpath dirs path.string layer) with
  | error e => simp
  | ok q =>
      by_cases hdir : isDir (w.tree.lookup q) = true
      · simp [hdir]
      · simp [hdir]

instance (s : List Char) : Decidable (Leads proc w.tree s) :=
  decidable_of_iff _ found_iff

theorem shadowsSeen_iff_entriesIn :
    ShadowsSeen proc dirs w path ↔ ∀ de ∈ entriesIn proc dirs w path .lower,
      (path.names = [] → ∀ u ∈ entriesIn proc dirs w path .upper, u.name = de.name →
        u.isLink = true → Leads proc w.tree (dirs.of .upper ++ '/' :: de.name)) ∧
      ∀ d ∈ path.names.getLast?,
        (Leads proc w.tree (dirs.of .upper ++ absolute (path.names.dropLast ++ [d ++ de.name])) ↔
          ∃ u ∈ entriesIn proc dirs w path .upper, u.name = de.name) := by
  simp only [mem_entriesIn]
  constructor
  · intro h de hde
    refine ⟨fun hroot u hu => h.atRoot hroot de u hde hu, fun d hd => ?_⟩
    obtain ⟨p, hnames⟩ := List.getLast?_eq_some_iff.mp hd
    rw [hnames, List.dropLast_concat]
    exact h.below p d hnames de hde
  · intro h
    refine ⟨fun hroot de u hde => (h de hde).1 hroot u, fun p d hnames de hde => ?_⟩
    have hbelow := (h de hde).2 d (by rw [hnames]; exact List.getLast?_concat)
    rw [hnames, List.dropLast_concat] at hbelow
    exact hbelow

instance : Decidable (ShadowsSeen proc dirs w path) :=
  decidable_of_iff' _ shadowsSeen_iff_entriesIn

end Decide

/-! ## The listing -/

/-- A descriptor is left for the upper stream. -/
theorem readLower_room (hroom : w.fds.TwoFree) (filler : List Filled → Filled → Bool) :
    ∃ fd, (readLower proc dirs w path filler).2.fds.lowest = some fd := by
  obtain ⟨k, hk, hnext⟩ := hroom.lowest
  rw [readLower]
  cases hopen : opendir proc w (setFpath dirs path.string .lower) with
  | error e => exact ⟨k, hk⟩
  | ok r =>
      obtain ⟨fd, q, w'⟩ := r
      obtain ⟨-, -, hfd, rfl⟩ := opendir_spec hopen
      obtain rfl : k = fd := Option.some.inj (hk.symm.trans hfd)
      exact hnext _

theorem mergedListing_map_iff (des : List Dirent) :
    MergedListing proc dirs w path (des.map handed) ↔
      (des.map Dirent.name).Nodup ∧ ∀ de, de ∈ des ↔ InLayer proc dirs w path .upper de ∨
        (InLayer proc dirs w path .lower de ∧
          ∀ u, InLayer proc dirs w path .upper u → u.name ≠ de.name) := by
  have hnames : (des.map handed).map Filled.name = des.map Dirent.name := List.map_map
  have hmem (de : Dirent) : handed de ∈ des.map handed ↔ de ∈ des := by
    rw [List.mem_map]
    constructor
    · rintro ⟨d, hd, heq⟩
      exact handed_injective heq ▸ hd
    · intro h
      exact ⟨de, h, rfl⟩
  constructor
  · rintro ⟨hnodup, hentries⟩
    refine ⟨hnames ▸ hnodup, fun de => ?_⟩
    rw [← hmem, hentries]
    constructor
    · rintro ⟨d, heq, hd⟩
      exact handed_injective heq ▸ hd
    · intro hd
      exact ⟨de, rfl, hd⟩
  · rintro ⟨hnodup, hentries⟩
    refine ⟨hnames ▸ hnodup, fun f => ?_⟩
    rw [List.mem_map]
    constructor
    · rintro ⟨de, hde, rfl⟩
      exact ⟨de, rfl, (hentries de).mp hde⟩
    · rintro ⟨de, rfl, hde⟩
      exact ⟨de, (hentries de).mpr hde, rfl⟩

/-- What is handed over is the merged directory just when the test is right. -/
theorem mergedListing_iff (ht : ProperNames w.tree) (hlist : Listable proc dirs w path)
    (hroom : w.fds.TwoFree) :
    MergedListing proc dirs w path (myfsReaddir proc dirs w path fun _ _ => false).2.1 ↔
      ShadowsSeen proc dirs w path := by
  obtain ⟨k, hk, -⟩ := hroom.lowest
  obtain ⟨fd, hfd⟩ : ∃ fd, (readLower proc dirs w path fun _ _ => false).2.fds.lowest = some fd :=
    readLower_room hroom _
  have htree : (readLower proc dirs w path fun _ _ => false).2.tree = w.tree :=
    readLower_tree path _
  rw [readdir_eq, fill_all, fill_all, List.nil_append, List.filter_true, ← List.map_append,
    mergedListing_map_iff]
  generalize (readLower proc dirs w path fun _ _ => false).2 = w₁ at hfd htree
  obtain ⟨t, fds⟩ := w₁
  obtain rfl : t = w.tree := htree
  have hls (de : Dirent) : InLayer proc dirs w path .lower de ↔
      de ∈ stream proc dirs w path .lower := (mem_stream hlist hk).symm
  have hus (de : Dirent) : InLayer proc dirs w path .upper de ↔
      de ∈ stream proc dirs ⟨w.tree, fds⟩ path .upper := by
    have hlist₁ : Listable proc dirs ⟨w.tree, fds⟩ path := ⟨hlist.read, hlist.search⟩
    exact (mem_stream hlist₁ hfd).symm
  have honce : ((stream proc dirs ⟨w.tree, fds⟩ path .upper).map Dirent.name).Nodup :=
    nodup_stream ht
  have hseen (de : Dirent) : unseen proc dirs w path de = false ↔
      found proc w (setFpath dirs path.string .upper ++ de.name) = true := by
    rw [unseen, Bool.not_eq_false']
  rw [shadowsSeen_iff ht hlist]
  simp only [hls, hus]
  rw [merge_iff (nodup_stream ht) honce]
  simp only [hseen]

/-- **THE MERGED DIRECTORY.**  With a filler that always accepts, `readdir` lists the merged
    directory just when its test is right: at the root, when no upper link that leads nowhere
    has the name of a lower entry; and below it, when the upper layer has the names of the
    directory and a lower entry in one word just where the upper directory has the entry. -/
theorem readdir_merged_iff (Links : Prop) (proc : Process) (dirs : Dirs) (w : WorldOf Links)
    (path : FusePath) (ht : ProperNames w.tree) (hlist : Listable proc dirs w path)
    (hroom : w.fds.TwoFree) :
    MergedListing proc dirs w path (myfsReaddir proc dirs w path fun _ _ => false).2.1 ↔
      ShadowsSeen proc dirs w path :=
  mergedListing_iff ht hlist hroom

/-- The layers `/l` and `/u`, each with a directory `d` that has a file `f`. -/
def twoCopies : World where
  tree := ((TreeOf.bare 0o755).set [['l']] (some ⟨1, 0o755, .dir⟩)
    |>.set [['u']] (some ⟨2, 0o755, .dir⟩)
    |>.set [['l'], ['d']] (some ⟨3, 0o755, .dir⟩)
    |>.set [['u'], ['d']] (some ⟨4, 0o755, .dir⟩)
    |>.set [['l'], ['d'], ['f']] (some ⟨5, 0o644, .file [1]⟩)
    |>.set [['u'], ['d'], ['f']] (some ⟨6, 0o644, .file [2]⟩))
  fds := ⟨16, fun _ => none⟩

theorem proper_d : Proper ['d'] := by decide

theorem proper_f : Proper ['f'] := by decide

theorem proper_g : Proper ['g'] := by decide

/-- The paths in the runs on `oneFile`. -/
def directory : FusePath := pathOf 'd' proper_d

def lowerFile : FusePath := pathOf 'f' proper_f

def missingFile : FusePath := pathOf 'g' proper_g

/-- The root of the mount. -/
def rootPath : FusePath := ⟨[], nofun⟩

/-- The layers `/l` and `/u`, each with an entry `s`: below a file, and above a link with this
    text. -/
def withLink (text : List Char) : WorldOf True where
  tree := ((TreeOf.bare 0o755).set [['l']] (some ⟨1, 0o755, .dir⟩)
    |>.set [['u']] (some ⟨2, 0o755, .dir⟩)
    |>.set [['l'], ['s']] (some ⟨3, 0o644, .file [1]⟩)
    |>.set [['u'], ['s']] (some ⟨4, 0o777, .link text trivial⟩)
    |>.set [['u'], ['f']] (some ⟨5, 0o644, .file [2]⟩))
  fds := ⟨16, fun _ => none⟩

/-- The root of a mount whose upper layer has a link `s` to a file: `.`, `..` and `s` are in
    both layers, and listed once. -/
theorem readdir_merged_at_root :
    MergedListing anyone twoDirs (withLink ['f']) rootPath
      (myfsReaddir anyone twoDirs (withLink ['f']) rootPath fun _ _ => false).2.1 ∧
    (myfsReaddir anyone twoDirs (withLink ['f']) rootPath fun _ _ => false).2.1 =
      [⟨['.'], 2, 0x4000⟩, ⟨['.', '.'], 0, 0x4000⟩, ⟨['f'], 5, 0x8000⟩, ⟨['s'], 4, 0xa000⟩] :=
  ⟨(readdir_merged_iff True anyone twoDirs (withLink ['f']) rootPath (by decide +kernel)
    ⟨fun _ _ _ _ _ => rfl, fun _ _ _ _ => rfl⟩ (by decide +kernel)).mpr (by decide +kernel),
    by decide +kernel⟩

/-- A listing with a name that is there twice. -/
theorem not_merged {filled : List Filled} (h : ¬ (filled.map Filled.name).Nodup) :
    ¬ MergedListing proc dirs w path filled :=
  fun hmerged => h hmerged.once

/-- **LISTED TWICE**: below the root the names that both layers have are listed from both, and
    at the root a link that leads nowhere is listed beside the lower file of its name. -/
theorem readdir_lists_twice :
    (IsDirectory anyone twoDirs twoCopies directory .lower [['l'], ['d']] ∧
      IsDirectory anyone twoDirs twoCopies directory .upper [['u'], ['d']]) ∧
    (myfsReaddir anyone twoDirs twoCopies directory fun _ _ => false).2.1 =
      [⟨['.'], 3, 0x4000⟩, ⟨['.', '.'], 1, 0x4000⟩, ⟨['f'], 5, 0x8000⟩,
        ⟨['.'], 4, 0x4000⟩, ⟨['.', '.'], 2, 0x4000⟩, ⟨['f'], 6, 0x8000⟩] ∧
    ¬ MergedListing anyone twoDirs twoCopies directory
      (myfsReaddir anyone twoDirs twoCopies directory fun _ _ => false).2.1 ∧
    (myfsReaddir anyone twoDirs (withLink ['x']) rootPath fun _ _ => false).2.1 =
      [⟨['s'], 3, 0x8000⟩, ⟨['.'], 2, 0x4000⟩, ⟨['.', '.'], 0, 0x4000⟩, ⟨['f'], 5, 0x8000⟩,
        ⟨['s'], 4, 0xa000⟩] ∧
    ¬ MergedListing anyone twoDirs (withLink ['x']) rootPath
      (myfsReaddir anyone twoDirs (withLink ['x']) rootPath fun _ _ => false).2.1 := by
  refine ⟨⟨⟨by decide +kernel, by decide +kernel⟩, ⟨by decide +kernel, by decide +kernel⟩⟩,
    by decide +kernel, not_merged (by decide +kernel), by decide +kernel,
    not_merged (by decide +kernel)⟩

end Overlay
