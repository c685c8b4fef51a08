import Mathlib.Data.List.AList
import Mathlib.Data.List.Induction

/-! # File trees — names, nodes and the resolution of path strings

    A tree maps paths (lists of names from the root `[]`) to files and
    directories.  The structure carries its well-formedness: the root is a
    directory, and so is whatever has something in it.  `Tree.set` is the only
    way to change a tree; a change that would break this is not made.

    A path string is cut at its slashes and walked from the root or the current
    directory, through directories that exist and may be searched; `.` and `..`
    are the directory itself and its parent.  A symbolic link on the way is
    replaced by what its text leads to, and at most `maxLinks` are followed.

    Kinds, nodes and trees have a parameter that says whether there are symbolic
    links.  Without them (`Tree`) the place a walk ends at (`place`) is fixed by
    the string alone. -/

namespace FileTree

abbrev Name := List Char

abbrev Path := List Name

inductive KindOf (Links : Prop) where
  | dir
  | file (bytes : List UInt8)
  | link (text : List Char) (allowed : Links)
deriving DecidableEq

/-- A file, a directory or a symbolic link: its serial number, its permission bits and its
    contents. -/
structure NodeOf (Links : Prop) where
  ino : Nat
  mode : Nat
  kind : KindOf Links
deriving DecidableEq

/-- What there is without symbolic links. -/
abbrev Kind := KindOf False

abbrev Node := NodeOf False

@[elab_as_elim]
theorem Kind.cases {motive : Kind → Prop} (kind : Kind) (dir : motive .dir)
    (file : ∀ bytes, motive (.file bytes)) : motive kind := by
  cases kind with
  | dir => exact dir
  | file bytes => exact file bytes
  | link text allowed => contradiction

variable {Links : Prop}

def isDir : Option (NodeOf Links) → Bool
  | some ⟨_, _, .dir⟩ => true
  | _ => false

theorem isDir_iff {o : Option (NodeOf Links)} :
    isDir o = true ↔ ∃ n, o = some n ∧ n.kind = .dir := by
  constructor
  · intro h
    match o, h with
    | some ⟨ino, mode, .dir⟩, _ => exact ⟨_, rfl, rfl⟩
  · rintro ⟨⟨ino, mode, kind⟩, rfl, rfl⟩
    rfl

/-! ## Trees -/

structure TreeOf (Links : Prop) where
  nodes : AList fun _ : Path => NodeOf Links
  root : isDir (nodes.lookup []) = true
  closed : ∀ p c n, nodes.lookup (p ++ [c]) = some n → isDir (nodes.lookup p) = true

abbrev Tree := TreeOf False

namespace TreeOf

def lookup (t : TreeOf Links) (p : Path) : Option (NodeOf Links) := t.nodes.lookup p

/-- Whether `p` may become `new`: a directory stays one, and anything else stands in a
    directory. -/
def permits (t : TreeOf Links) (p : Path) : Option (NodeOf Links) → Bool
  | none => !isDir (t.lookup p)
  | some n => if isDir (t.lookup p) then isDir (some n) else isDir (t.lookup p.dropLast)

private def setNodes (t : TreeOf Links) (p : Path) (new : Option (NodeOf Links)) :
    AList fun _ : Path => NodeOf Links :=
  match new with
  | some n => t.nodes.insert p n
  | none => t.nodes.erase p

private theorem lookup_setNodes (t : TreeOf Links) (p q : Path) (new : Option (NodeOf Links)) :
    (t.setNodes p new).lookup q = if q = p then new else t.lookup q := by
  cases new with
  | some n =>
      show (t.nodes.insert p n).lookup q = _
      by_cases hq : q = p
      · rw [hq, if_pos rfl, AList.lookup_insert]
      · rw [if_neg hq, AList.lookup_insert_ne hq, lookup]
  | none =>
      show (t.nodes.erase p).lookup q = _
      by_cases hq : q = p
      · rw [hq, if_pos rfl, AList.lookup_erase]
      · rw [if_neg hq, AList.lookup_erase_ne hq, lookup]

/-- What stands above something is a directory. -/
theorem dir_above (t : TreeOf Links) {p : Path} {c : Name}
    (h : (t.lookup (p ++ [c])).isSome = true) : isDir (t.lookup p) = true := by
  obtain ⟨n, hn⟩ := Option.isSome_iff_exists.mp h
  exact t.closed p c n hn

/-- What stands further above something exists as well. -/
theorem exists_above (t : TreeOf Links) {p : Path} (q : Path)
    (h : (t.lookup (p ++ q)).isSome = true) : (t.lookup p).isSome = true := by
  induction q using List.reverseRecOn with
  | nil => exact List.append_nil p ▸ h
  | append_singleton q c ih =>
      rw [← List.append_assoc] at h
      obtain ⟨n, hn, -⟩ := isDir_iff.mp (t.dir_above h)
      exact ih (Option.isSome_of_eq_some hn)

/-- What `permits` allows leaves every node in a directory. -/
private theorem closed_setNodes {t : TreeOf Links} {p : Path} {new : Option (NodeOf Links)}
    (hok : t.permits p new = true) (q : Path) (c : Name) (n : NodeOf Links)
    (h : (t.setNodes p new).lookup (q ++ [c]) = some n) :
    isDir ((t.setNodes p new).lookup q) = true := by
  rw [lookup_setNodes] at h ⊢
  by_cases hp : q ++ [c] = p
  · -- the changed node itself: its directory is another node
    have hne : q ≠ p := by
      rintro rfl
      simp at hp
    rw [if_pos hp] at h
    rw [if_neg hne]
    rw [h, permits] at hok
    split at hok
    · next hdir =>
        rw [← hp] at hdir
        obtain ⟨m, hm, -⟩ := isDir_iff.mp hdir
        exact t.closed q c m hm
    · rw [← hp, List.dropLast_concat] at hok
      exact hok
  · rw [if_neg hp] at h
    have hdir : isDir (t.lookup q) = true := t.closed q c n h
    by_cases hq : q = p
    · -- something stands in the changed node: it was a directory and stays one
      rw [if_pos hq]
      rw [hq] at hdir
      cases new with
      | none => rw [permits, hdir] at hok; exact nomatch hok
      | some m => rw [permits, if_pos hdir] at hok; exact hok
    · rw [if_neg hq]
      exact hdir

private theorem root_setNodes {t : TreeOf Links} {p : Path} {new : Option (NodeOf Links)}
    (hok : t.permits p new = true) : isDir ((t.setNodes p new).lookup []) = true := by
  rw [lookup_setNodes]
  by_cases hp : [] = p
  · rw [if_pos hp]
    have hroot : isDir (t.lookup p) = true := hp ▸ t.root
    cases new with
    | none => rw [permits, hroot] at hok; exact nomatch hok
    | some n => rw [permits, if_pos hroot] at hok; exact hok
  · rw [if_neg hp]
    exact t.root

/-- Put `new` at `p`, if that leaves a tree. -/
def set (t : TreeOf Links) (p : Path) (new : Option (NodeOf Links)) : TreeOf Links :=
  if hok : t.permits p new = true then
    ⟨t.setNodes p new, root_setNodes hok, closed_setNodes hok⟩
  else t

/-- A permitted change is seen at its own place only. -/
theorem lookup_set {t : TreeOf Links} {p : Path} {new : Option (NodeOf Links)}
    (hok : t.permits p new = true) (q : Path) :
    (t.set p new).lookup q = if q = p then new else t.lookup q := by
  rw [set, dif_pos hok]
  exact lookup_setNodes t p q new

/-- **FRAME**: a change at `p` is seen at `p` only. -/
theorem lookup_set_ne (t : TreeOf Links) {p q : Path} (new : Option (NodeOf Links)) (h : q ≠ p) :
    (t.set p new).lookup q = t.lookup q := by
  by_cases hok : t.permits p new = true
  · rw [lookup_set hok, if_neg h]
  · rw [set, dif_neg hok]

/-- The tree with nothing but its root. -/
def bare (mode : Nat) : TreeOf Links where
  nodes := AList.singleton [] ⟨0, mode, .dir⟩
  root := rfl
  closed := by
    intro p c n h
    have hne : p ++ [c] ∉ AList.singleton (β := fun _ => NodeOf Links) [] ⟨0, mode, .dir⟩ := by
      rw [AList.mem_keys, AList.keys_singleton, List.mem_singleton]
      simp
    rw [AList.lookup_eq_none.mpr hne] at h
    exact nomatch h

end TreeOf

/-! ## Path strings -/

/-- The name read so far, if there is one. -/
private def flush (name : Name) : List Name := if name = [] then [] else [name]

/-- The names of a path string after `name`. -/
private def cut (name : Name) : List Char → List Name
  | [] => flush name
  | c :: s => if c = '/' then flush name ++ cut [] s else cut (name ++ [c]) s

/-- The names between the slashes of a path string. -/
def components (s : List Char) : List Name := cut [] s

private theorem cut_append_slash (name : Name) (s s' : List Char) :
    cut name (s ++ '/' :: s') = cut name s ++ cut [] s' := by
  induction s generalizing name with
  | nil => rfl
  | cons c s ih =>
      rw [List.cons_append, cut, cut]
      split
      · rw [ih, List.append_assoc]
      · exact ih _

private theorem cut_plain {s : List Char} (name : Name) (h : '/' ∉ s) :
    cut name s = flush (name ++ s) := by
  induction s generalizing name with
  | nil => rw [List.append_nil, cut]
  | cons c s ih =>
      have hc : c ≠ '/' := fun hc => h (hc ▸ List.mem_cons_self ..)
      rw [cut, if_neg hc, ih _ fun hs => h (List.mem_cons_of_mem _ hs), List.append_assoc,
        List.singleton_append]

/-- A slash ends a name. -/
theorem components_append_slash (s s' : List Char) :
    components (s ++ '/' :: s') = components s ++ components s' :=
  cut_append_slash [] s s'

/-- A slash at the end adds no component. -/
theorem components_slash (s : List Char) : components (s ++ ['/']) = components s :=
  (components_append_slash s []).trans (List.append_nil _)

/-- A name of an entry of a directory: not empty, without slashes, not `.` or `..`. -/
def Proper (c : Name) : Prop := c ≠ [] ∧ '/' ∉ c ∧ c ≠ ['.'] ∧ c ≠ ['.', '.']

instance (c : Name) : Decidable (Proper c) :=
  inferInstanceAs (Decidable (_ ∧ _ ∧ _ ∧ _))

theorem components_name {c : Name} (hne : c ≠ []) (hslash : '/' ∉ c) : components c = [c] := by
  rw [components, cut_plain [] hslash, List.nil_append, flush, if_neg hne]

theorem components_proper {c : Name} (h : Proper c) : components c = [c] :=
  components_name h.1 h.2.1

/-- Where the name `c` leads from the directory `dir`. -/
def child (dir : Path) (c : Name) : Path :=
  if c = ['.'] then dir else if c = ['.', '.'] then dir.dropLast else dir ++ [c]

/-- A proper name is neither `.` nor `..`, and leads one level down. -/
theorem child_proper {dir : Path} {c : Name} (h : Proper c) : child dir c = dir ++ [c] := by
  rw [child, if_neg h.2.2.1, if_neg h.2.2.2]

/-- Proper names lead straight down. -/
theorem foldl_child_proper {dir p : Path} (h : ∀ c ∈ p, Proper c) :
    p.foldl child dir = dir ++ p := by
  induction p generalizing dir with
  | nil => exact (List.append_nil dir).symm
  | cons c p ih =>
      rw [List.foldl_cons, child_proper (h c (List.mem_cons_self ..)),
        ih fun d hd => h d (List.mem_cons_of_mem c hd), List.append_assoc,
        List.singleton_append]

/-! ## Walks -/

inductive Errno where
  | ENOENT | EACCES | EEXIST | ENOTDIR | EISDIR | EINVAL | EMFILE | EFAULT | EBADF | ELOOP
deriving DecidableEq, Repr

inductive Perm where
  | read | write | search
deriving DecidableEq

/-- What the calls of a process depend on: its current directory, its file mode creation
    mask, and what it may do with a node of a given mode. -/
structure Process where
  cwd : Path
  umask : Nat
  may : Nat → Perm → Bool

variable (proc : Process)

/-- From the directory `dir` to its entry `c`. -/
def enter (t : TreeOf Links) (dir : Path) (c : Name) : Except Errno Path :=
  match t.lookup dir with
  | none => .error .ENOENT
  | some ⟨_, mode, .dir⟩ =>
      if proc.may mode .search then .ok (child dir c) else .error .EACCES
  | some _ => .error .ENOTDIR

/-- The most links that are followed for one path string. -/
def maxLinks : Nat := 40

/-- How far a walk has come: its place, and how many links it may still follow. -/
structure Position where
  place : Path
  links : Nat

/-- From a directory to what stands at `q` in it, and on from there if that is a link. -/
def arrive (follow : Position → List Char → Except Errno Position) (t : TreeOf Links)
    (here : Position) (q : Path) : Except Errno Position :=
  match t.lookup q with
  | some ⟨_, _, .link text _⟩ => follow here text
  | _ => .ok { here with place := q }

def descend (follow : Position → List Char → Except Errno Position) (t : TreeOf Links)
    (here : Position) (c : Name) : Except Errno Position := do
  let q ← enter proc t here.place c
  arrive follow t here q

/-- Where a path string starts that is met in the directory `dir`. -/
def start (dir : Path) (s : List Char) : Path := if s.head? = some '/' then [] else dir

/-- A file, which no slash may follow. -/
def isFile (o : Option (NodeOf Links)) : Bool := o.isSome && !isDir o

/-- The walk of a path string. -/
def locate (follow : Position → List Char → Except Errno Position) (t : TreeOf Links)
    (here : Position) (s : List Char) : Except Errno Position :=
  if s = [] then .error .ENOENT else do
    let there ← (components s).foldlM (descend proc follow t)
      { here with place := start here.place s }
    if isFile (t.lookup there.place) ∧ s.getLast? = some '/' then .error .ENOTDIR
    else .ok there

/-- The text of a link is a path string of the directory that the link is in.  The first
    argument bounds how deep links lead to links; there are never more than may be followed. -/
def follow (t : TreeOf Links) : Nat → Position → List Char → Except Errno Position
  | n + 1, ⟨dir, links + 1⟩, text => locate proc (follow t n) t ⟨dir, links⟩ text
  | _, _, _ => .error .ELOOP

/-- Where the walk of a process ends. -/
def finish (t : TreeOf Links) (s : List Char) : Except Errno Position :=
  locate proc (follow proc t maxLinks) t ⟨proc.cwd, maxLinks⟩ s

/-- The place of a path string whose walk succeeds. -/
def resolve (t : TreeOf Links) (s : List Char) : Except Errno Path :=
  (finish proc t s).map Position.place

/-- Something stands where the path string leads, links followed. -/
def Leads (t : TreeOf Links) (s : List Char) : Prop :=
  ∃ q, resolve proc t s = .ok q ∧ (t.lookup q).isSome = true

/-- Where the walk of a path string starts. -/
def origin (s : List Char) : Path := start proc.cwd s

/-- The place a path string names. -/
def place (s : List Char) : Path := (components s).foldl child (origin proc s)

/-- The walk where there are no links. -/
def walk (t : Tree) (dir : Path) : List Name → Except Errno Path
  | [] => .ok dir
  | c :: cs => do
      let dir' ← enter proc t dir c
      walk t dir' cs

section Links

variable {proc} {t : TreeOf Links}

/-- A name enters a directory that may be searched. -/
theorem enter_eq_ok {dir q : Path} {c : Name} :
    enter proc t dir c = .ok q ↔
      (∃ n, t.lookup dir = some n ∧ n.kind = .dir ∧ proc.may n.mode .search = true) ∧
        q = child dir c := by
  constructor
  · intro h
    rw [enter] at h
    split at h
    · cases h
    · next hn =>
        split at h
        · next hmay => exact ⟨⟨_, hn, rfl, hmay⟩, (Except.ok.inj h).symm⟩
        · cases h
    · cases h
  · rintro ⟨⟨⟨ino, mode, kind⟩, hn, rfl, hmay⟩, rfl⟩
    simp only [enter, hn]
    exact if_pos hmay

/-- No way leads on from a file. -/
theorem enter_of_isFile {dir : Path} (c : Name) (h : isFile (t.lookup dir) = true) :
    enter proc t dir c = .error .ENOTDIR := by
  cases hn : t.lookup dir with
  | none =>
      rw [hn] at h
      cases h
  | some n =>
      obtain ⟨ino, mode, kind⟩ := n
      cases kind with
      | dir =>
          rw [hn] at h
          cases h
      | file bytes => simp only [enter, hn]
      | link text allowed => simp only [enter, hn]

/-- Where a walk starts depends on the front of the string only. -/
theorem start_append (dir : Path) (s s' : List Char) :
    start dir (s ++ '/' :: s') = start dir (s ++ ['/']) := by
  simp only [start, List.head?_append, List.head?_cons]

/-- **AN ENTRY OF A DIRECTORY**: the string of a directory, a slash and a name. -/
theorem locate_entry (follow : Position → List Char → Except Errno Position) (here : Position)
    (s : List Char) {c : Name} (hne : c ≠ []) (hslash : '/' ∉ c) :
    locate proc follow t here (s ++ '/' :: c) =
      locate proc follow t here (s ++ ['/']) >>= fun there => descend proc follow t there c := by
  have hlast : (s ++ '/' :: c).getLast? ≠ some '/' := by
    intro h
    rw [List.getLast?_append_of_ne_nil _ (List.cons_ne_nil _ _),
      List.getLast?_cons_of_ne_nil hne] at h
    exact hslash (List.mem_of_getLast? h)
  rw [locate, locate, if_neg (by simp), if_neg (by simp), start_append, components_slash,
    components_append_slash, components_name hne hslash, List.foldlM_append, bind_assoc,
    bind_assoc]
  congr 1
  funext there
  simp only [List.foldlM_cons, List.foldlM_nil, bind_pure]
  -- a file in front of the slash is found out by the one walk as by the other
  by_cases hfile : isFile (t.lookup there.place) = true
  · rw [if_pos ⟨hfile, List.getLast?_concat⟩, descend, enter_of_isFile c hfile]
    rfl
  · rw [if_neg fun h => hfile h.1]
    show descend proc follow t there c >>= _ = descend proc follow t there c
    cases descend proc follow t there c with
    | error e => rfl
    | ok r => exact if_neg fun h => hlast h.2

/-- The path that is resolved to is the place of the last position. -/
theorem resolve_eq_ok_iff {s : List Char} {q : Path} :
    resolve proc t s = .ok q ↔ ∃ there, finish proc t s = .ok there ∧ there.place = q := by
  rw [resolve]
  cases finish proc t s with
  | error e => exact ⟨by rintro ⟨⟩, by rintro ⟨there, ⟨⟩, -⟩⟩
  | ok there =>
      constructor
      · intro h
        exact ⟨there, rfl, Except.ok.inj h⟩
      · rintro ⟨there', h, rfl⟩
        rw [Except.ok.inj h]
        rfl

/-- A walk that goes on to an entry of the directory `d`. -/
theorem finish_entry {s : List Char} {c : Name} {there : Position} (hne : c ≠ [])
    (hslash : '/' ∉ c) :
    finish proc t (s ++ '/' :: c) = .ok there ↔
      ∃ d, finish proc t (s ++ ['/']) = .ok d ∧
        (∃ n, t.lookup d.place = some n ∧ n.kind = .dir ∧ proc.may n.mode .search = true) ∧
        arrive (follow proc t maxLinks) t d (child d.place c) = .ok there := by
  rw [finish, locate_entry _ _ s hne hslash, ← finish]
  cases finish proc t (s ++ ['/']) with
  | error e => exact ⟨by rintro ⟨⟩, by rintro ⟨d, ⟨⟩, -⟩⟩
  | ok d =>
      show enter proc t d.place c >>= _ = _ ↔ _
      constructor
      · intro h
        cases henter : enter proc t d.place c with
        | error e =>
            rw [henter] at h
            cases h
        | ok q =>
            obtain ⟨hdir, rfl⟩ := enter_eq_ok.mp henter
            rw [henter] at h
            exact ⟨d, rfl, hdir, h⟩
      · rintro ⟨d', hd, hdir, h⟩
        obtain rfl := Except.ok.inj hd
        rw [enter_eq_ok.mpr ⟨hdir, rfl⟩]
        exact h

/-- What leads somewhere passes through a directory that has an entry of the last name. -/
theorem Leads.entry {s : List Char} {c : Name} (hne : c ≠ []) (hslash : '/' ∉ c)
    (h : Leads proc t (s ++ '/' :: c)) :
    ∃ d, resolve proc t (s ++ ['/']) = .ok d ∧ isDir (t.lookup d) = true ∧
      (t.lookup (child d c)).isSome = true := by
  obtain ⟨q, hq, hsome⟩ := h
  obtain ⟨there, hfinish, rfl⟩ := resolve_eq_ok_iff.mp hq
  obtain ⟨d, hd, ⟨n, hn, hkind, -⟩, harrive⟩ := (finish_entry hne hslash).mp hfinish
  refine ⟨d.place, resolve_eq_ok_iff.mpr ⟨d, hd, rfl⟩, isDir_iff.mpr ⟨n, hn, hkind⟩, ?_⟩
  cases hc : t.lookup (child d.place c) with
  | some m => rfl
  | none =>
      -- there is no link, so the walk ends where nothing is
      rw [arrive, hc] at harrive
      rw [← Except.ok.inj harrive, hc] at hsome
      exact hsome

/-- An entry that is not a link can be reached. -/
theorem leads_entry {s : List Char} {c : Name} {d : Path} {n m : NodeOf Links} (hne : c ≠ [])
    (hslash : '/' ∉ c) (hd : resolve proc t (s ++ ['/']) = .ok d) (hn : t.lookup d = some n)
    (hdir : n.kind = .dir) (hmay : proc.may n.mode .search = true)
    (hm : t.lookup (child d c) = some m) (hlink : ∀ text h, m.kind ≠ .link text h) :
    Leads proc t (s ++ '/' :: c) := by
  obtain ⟨there, hfinish, rfl⟩ := resolve_eq_ok_iff.mp hd
  have harrive : arrive (follow proc t maxLinks) t there (child there.place c) =
      .ok { there with place := child there.place c } := by
    rw [arrive, hm]
    split
    · next heq =>
        obtain rfl := Option.some.inj heq
        exact absurd rfl (hlink _ _)
    · rfl
  refine ⟨child there.place c, resolve_eq_ok_iff.mpr ⟨_, (finish_entry hne hslash).mpr
    ⟨there, hfinish, ⟨n, hn, hdir, hmay⟩, harrive⟩, rfl⟩, ?_⟩
  rw [hm]
  rfl

end Links

variable {proc} {t : Tree}

/-- Without links a walk follows none. -/
theorem foldlM_descend (follow : Position → List Char → Except Errno Position) (here : Position)
    (cs : List Name) :
    cs.foldlM (descend proc follow t) here =
      (walk proc t here.place cs).map fun q => { here with place := q } := by
  induction cs generalizing here with
  | nil => rfl
  | cons c cs ih =>
      rw [List.foldlM_cons, walk, descend]
      cases enter proc t here.place c with
      | error e => rfl
      | ok q =>
          have hstep : arrive follow t here q = .ok { here with place := q } := by
            rw [arrive]
            split
            · contradiction
            · rfl
          show arrive follow t here q >>= _ = _
          rw [hstep]
          exact ih { here with place := q }

/-- **WITHOUT LINKS** resolution is a walk over the components, and a check that a string with a
    slash at its end leads to no file. -/
theorem resolve_eq (proc : Process) (t : Tree) (s : List Char) :
    resolve proc t s = if s = [] then .error .ENOENT else
      walk proc t (origin proc s) (components s) >>= fun p =>
        if isFile (t.lookup p) ∧ s.getLast? = some '/' then .error .ENOTDIR else .ok p := by
  rw [resolve, finish, locate]
  split
  · rfl
  · rw [foldlM_descend]
    show Except.map _ ((walk proc t (origin proc s) (components s)).map _ >>= _) = _
    cases walk proc t (origin proc s) (components s) with
    | error e => rfl
    | ok p =>
        show Except.map _ (if _ then _ else _) = if _ then _ else _
        split <;> rfl

theorem enter_ok {dir q : Path} {c : Name} (h : enter proc t dir c = .ok q) :
    q = child dir c :=
  (enter_eq_ok.mp h).2

/-- Where a walk ends depends on the names only, not on the tree. -/
theorem walk_ok {dir q : Path} {cs : List Name} (h : walk proc t dir cs = .ok q) :
    q = cs.foldl child dir := by
  induction cs generalizing dir with
  | nil => exact (Except.ok.inj h).symm
  | cons c cs ih =>
      cases hc : enter proc t dir c with
      | error e => rw [walk, hc] at h; exact nomatch h
      | ok dir' =>
          rw [walk, hc] at h
          rw [List.foldl_cons, ← enter_ok hc]
          exact ih h

/-- A walk over two lists is two walks. -/
theorem walk_append (dir : Path) (cs ds : List Name) :
    walk proc t dir (cs ++ ds) = walk proc t dir cs >>= fun q => walk proc t q ds := by
  induction cs generalizing dir with
  | nil => rfl
  | cons c cs ih =>
      rw [List.cons_append, walk, walk, bind_assoc]
      congr 1
      ext1 q
      exact ih q

theorem walk_single (dir : Path) (c : Name) : walk proc t dir [c] = enter proc t dir c := by
  show (enter proc t dir c >>= fun d => .ok d) = _
  cases enter proc t dir c <;> rfl

/-- **WHAT EXISTS CAN BE WALKED TO**, if the directories on the way may be searched. -/
theorem walk_exists {dir p : Path} (hp : ∀ c ∈ p, Proper c)
    (h : (t.lookup (dir ++ p)).isSome = true)
    (hsearch : ∀ q n, q <+: p → q ≠ p → t.lookup (dir ++ q) = some n →
      proc.may n.mode .search = true) :
    walk proc t dir p = .ok (dir ++ p) := by
  induction p generalizing dir with
  | nil => rw [List.append_nil]; rfl
  | cons c p ih =>
      rw [List.append_cons] at h ⊢
      have hdir : isDir (t.lookup dir) = true := t.dir_above (t.exists_above p h)
      obtain ⟨⟨ino, mode, kind⟩, hn, rfl⟩ := isDir_iff.mp hdir
      have hmay := hsearch [] _ List.nil_prefix (List.cons_ne_nil c p).symm
        ((List.append_nil dir).symm ▸ hn)
      have henter : enter proc t dir c = .ok (dir ++ [c]) := by
        simp only [enter, hn]
        rw [if_pos hmay, child_proper (hp c (List.mem_cons_self ..))]
      rw [walk, henter]
      refine ih (fun d hd => hp d (List.mem_cons_of_mem c hd)) h fun q n hq hne hn => ?_
      rw [← List.append_cons] at hn
      exact hsearch (c :: q) n (List.prefix_cons_inj c |>.mpr hq)
        (fun heq => hne (List.cons.inj heq).2) hn

/-- What it takes for a path string to be resolved. -/
theorem resolve_eq_ok {s : List Char} {q : Path} :
    resolve proc t s = .ok q ↔
      s ≠ [] ∧ walk proc t (origin proc s) (components s) = .ok q ∧
        ¬ (isFile (t.lookup q) = true ∧ s.getLast? = some '/') := by
  rw [resolve_eq]
  by_cases hs : s = []
  · rw [if_pos hs]
    exact ⟨nofun, fun h => absurd hs h.1⟩
  rw [if_neg hs]
  cases walk proc t (origin proc s) (components s) with
  | error e => exact ⟨nofun, fun h => nomatch h.2.1⟩
  | ok p =>
      show (if isFile (t.lookup p) ∧ s.getLast? = some '/' then _ else _) = _ ↔ _
      by_cases hp : isFile (t.lookup p) = true ∧ s.getLast? = some '/'
      · rw [if_pos hp]
        refine ⟨nofun, ?_⟩
        rintro ⟨-, h, hn⟩
        exact absurd (Except.ok.inj h ▸ hp) hn
      · rw [if_neg hp]
        constructor
        · intro h
          exact ⟨hs, h, Except.ok.inj h ▸ hp⟩
        · exact fun h => h.2.1

/-- A string that is resolved is resolved to its place. -/
theorem resolve_ok {s : List Char} {q : Path} (h : resolve proc t s = .ok q) :
    q = place proc s :=
  walk_ok (resolve_eq_ok.mp h).2.1

/-! ## Paths below a directory -/

/-- A path from the root of a tree as a string. -/
def absolute (p : Path) : List Char :=
  if p = [] then ['/'] else p.flatMap ('/' :: ·)

/-- Names with a slash in front of each are read as these names. -/
theorem components_flatMap {p : Path} (s : List Char) (hp : ∀ c ∈ p, Proper c) :
    components (s ++ p.flatMap ('/' :: ·)) = components s ++ p := by
  induction p generalizing s with
  | nil => rw [List.flatMap_nil, List.append_nil, List.append_nil]
  | cons c p ih =>
      have hc := components_proper (hp c (List.mem_cons_self ..))
      have htail := ih c fun d hd => hp d (List.mem_cons_of_mem c hd)
      rw [List.flatMap_cons, List.cons_append, components_append_slash, htail, hc,
        List.singleton_append]

/-- The same for an absolute path, that of the root included. -/
theorem components_absolute {p : Path} (s : List Char) (hp : ∀ c ∈ p, Proper c) :
    components (s ++ absolute p) = components s ++ p := by
  rw [absolute]
  split
  · next hnil =>
      subst hnil
      exact components_append_slash s []
  · exact components_flatMap s hp

theorem head?_absolute (p : Path) : (absolute p).head? = some '/' := by
  rw [absolute]
  split
  · rfl
  · cases p with
    | nil => contradiction
    | cons c p => rfl

theorem append_absolute_ne_nil (s : List Char) (p : Path) : s ++ absolute p ≠ [] := by
  intro hnil
  have hhead := head?_absolute p
  rw [(List.append_eq_nil_iff.mp hnil).2] at hhead
  cases hhead

theorem origin_absolute (s : List Char) (p : Path) :
    origin proc (s ++ absolute p) = origin proc (s ++ ['/']) := by
  simp only [origin, start, List.head?_append, head?_absolute, List.head?_cons]

/-- **BELOW A DIRECTORY**: the string of a directory followed by a path names the place of
    the directory followed by the path. -/
theorem place_absolute {p : Path} (s : List Char) (hp : ∀ c ∈ p, Proper c) :
    place proc (s ++ absolute p) = place proc (s ++ ['/']) ++ p := by
  rw [place, components_absolute s hp, List.foldl_append, foldl_child_proper hp,
    origin_absolute, place, components_slash]

/-- An absolute path other than the root does not end in a slash. -/
theorem getLast?_absolute {p : Path} (s : List Char) (hp : ∀ c ∈ p, Proper c) (hne : p ≠ []) :
    (s ++ absolute p).getLast? ≠ some '/' := by
  obtain ⟨q, c, rfl⟩ : ∃ q c, p = q ++ [c] :=
    ⟨p.dropLast, p.getLast hne, (List.dropLast_append_getLast hne).symm⟩
  have hc := hp c (List.mem_append_right q (List.mem_singleton.mpr rfl))
  have hlast : (s ++ absolute (q ++ [c])).getLast? = c.getLast? := by
    have hd := List.getLast?_eq_some_getLast hc.1
    simp [absolute, List.getLast?_append, List.getLast?_cons, hd]
  rw [hlast]
  intro h
  exact hc.2.1 (List.mem_of_getLast? h)

/-- A string with a path at its end names something only if the directory in front can be
    reached, and then it names the place below that directory. -/
theorem reached_of_resolve {s : List Char} {p q : Path} (hp : ∀ c ∈ p, Proper c)
    (h : resolve proc t (s ++ absolute p) = .ok q) (hq : (t.lookup q).isSome = true) :
    resolve proc t (s ++ ['/']) = .ok (place proc (s ++ ['/'])) ∧
      q = place proc (s ++ ['/']) ++ p := by
  have heq : q = place proc (s ++ ['/']) ++ p := (resolve_ok h).trans (place_absolute s hp)
  refine ⟨?_, heq⟩
  by_cases hne : p = []
  · subst hne
    rw [heq, List.append_nil] at h
    exact h
  obtain ⟨-, hwalk, -⟩ := resolve_eq_ok.mp h
  rw [origin_absolute, components_absolute s hp, walk_append] at hwalk
  cases hw : walk proc t (origin proc (s ++ ['/'])) (components s) with
  | error e => rw [hw] at hwalk; exact nomatch hwalk
  | ok d =>
      have hplace : d = place proc (s ++ ['/']) := by
        rw [place, components_slash]
        exact walk_ok hw
      -- something stands below the place, so that it is a directory
      obtain ⟨c, p', rfl⟩ := List.exists_cons_of_ne_nil hne
      have hisDir : isDir (t.lookup d) = true := by
        rw [heq, ← hplace, List.append_cons] at hq
        exact t.dir_above (t.exists_above p' hq)
      rw [← hplace]
      refine resolve_eq_ok.mpr ⟨by simp, by rw [components_slash, hw], fun hfile => ?_⟩
      rw [isFile, hisDir] at hfile
      simp at hfile

/-- What is there is resolved, if all directories on the way may be searched. -/
theorem resolve_of_reached {s : List Char} {p : Path} (hp : ∀ c ∈ p, Proper c)
    (hdir : resolve proc t (s ++ ['/']) = .ok (place proc (s ++ ['/'])))
    (hq : (t.lookup (place proc (s ++ ['/']) ++ p)).isSome = true)
    (hsearch : ∀ q n, q <+: p → q ≠ p → t.lookup (place proc (s ++ ['/']) ++ q) = some n →
      proc.may n.mode .search = true) :
    resolve proc t (s ++ absolute p) = .ok (place proc (s ++ ['/']) ++ p) := by
  by_cases hne : p = []
  · subst hne
    rw [List.append_nil]
    exact hdir
  obtain ⟨-, hwalk, -⟩ := resolve_eq_ok.mp hdir
  rw [components_slash] at hwalk
  refine resolve_eq_ok.mpr ⟨append_absolute_ne_nil s p, ?_, fun hfile =>
    getLast?_absolute s hp hne hfile.2⟩
  rw [origin_absolute, components_absolute s hp, walk_append, hwalk]
  exact walk_exists hp hq hsearch

/-- From a directory to an entry of it. -/
theorem resolve_concat {s : List Char} {p q : Path} {c : Name} (hp : ∀ x ∈ p ++ [c], Proper x)
    (h : resolve proc t (s ++ absolute p) = .ok q) :
    resolve proc t (s ++ absolute (p ++ [c])) = enter proc t q c := by
  have hne : p ++ [c] ≠ [] := List.append_ne_nil_of_right_ne_nil p (List.cons_ne_nil c [])
  have hlast := getLast?_absolute s hp hne
  obtain ⟨-, hwalk, -⟩ := resolve_eq_ok.mp h
  rw [origin_absolute, components_absolute s fun x hx => hp x (List.mem_append_left [c] hx)]
    at hwalk
  rw [resolve_eq, if_neg (append_absolute_ne_nil s _), origin_absolute, components_absolute s hp,
    ← List.append_assoc, walk_append, hwalk]
  show (walk proc t q [c] >>= _) = _
  rw [walk_single]
  cases enter proc t q c with
  | error e => rfl
  | ok r => exact if_neg fun hfile => hlast hfile.2

/-! ## Two trees -/

/-- A walk that meets no file is the same in a tree with the same directories. -/
theorem walk_of_dirs {t' : Tree}
    (hdirs : ∀ r, isFile (t.lookup r) = false → t'.lookup r = t.lookup r)
    {dir : Path} {cs : List Name} (h : walk proc t dir cs ≠ .error .ENOTDIR) :
    walk proc t' dir cs = walk proc t dir cs := by
  induction cs generalizing dir with
  | nil => rfl
  | cons c cs ih =>
      have hdir : isFile (t.lookup dir) = false := by
        cases hn : t.lookup dir with
        | none => rfl
        | some n =>
            obtain ⟨ino, mode, kind⟩ := n
            cases kind using Kind.cases with
            | dir => rfl
            | file bytes =>
                rw [walk, enter, hn] at h
                exact absurd rfl h
      have henter : enter proc t' dir c = enter proc t dir c := by
        rw [enter, enter, hdirs dir hdir]
      rw [walk, walk, henter]
      cases hd : enter proc t dir c with
      | error e => rfl
      | ok dir' =>
          rw [walk, hd] at h
          exact ih h

/-- A walk sees the tree below its start only. -/
theorem walk_below {t' : Tree} {dir p : Path} (hp : ∀ c ∈ p, Proper c)
    (hbelow : ∀ r, t'.lookup (dir ++ r) = t.lookup (dir ++ r)) :
    walk proc t' dir p = walk proc t dir p := by
  induction p generalizing dir with
  | nil => rfl
  | cons c p ih =>
      have hdir : t'.lookup dir = t.lookup dir := by
        have h := hbelow []
        rw [List.append_nil] at h
        exact h
      have henter : enter proc t' dir c = enter proc t dir c := by rw [enter, enter, hdir]
      rw [walk, walk, henter]
      cases hd : enter proc t dir c with
      | error e => rfl
      | ok dir' =>
          rw [enter_ok hd, child_proper (hp c List.mem_cons_self)]
          refine ih (fun d hd => hp d (List.mem_cons_of_mem c hd)) fun r => ?_
          rw [List.append_assoc]
          exact hbelow (c :: r)

/-- **THE SAME BELOW A DIRECTORY**: trees that differ in files only, and not below a directory
    to which no file stands in the way, resolve the paths below it alike. -/
theorem resolve_below {t' : Tree} {s : List Char} {p : Path} (hp : ∀ c ∈ p, Proper c)
    (hdirs : ∀ r, isFile (t.lookup r) = false → t'.lookup r = t.lookup r)
    (hbelow : ∀ r, t'.lookup (place proc (s ++ ['/']) ++ r) =
      t.lookup (place proc (s ++ ['/']) ++ r))
    (hs : resolve proc t (s ++ ['/']) ≠ .error .ENOTDIR) :
    resolve proc t' (s ++ absolute p) = resolve proc t (s ++ absolute p) := by
  have hwalk : walk proc t (origin proc (s ++ ['/'])) (components s) ≠ .error .ENOTDIR := by
    intro h
    rw [resolve_eq, if_neg (by simp), components_slash, h] at hs
    exact hs rfl
  rw [resolve_eq, resolve_eq, if_neg (append_absolute_ne_nil s p),
    if_neg (append_absolute_ne_nil s p),
    origin_absolute, components_absolute s hp, walk_append, walk_append, walk_of_dirs hdirs hwalk]
  cases hdir : walk proc t (origin proc (s ++ ['/'])) (components s) with
  | error e => rfl
  | ok d =>
      obtain rfl : d = place proc (s ++ ['/']) := by
        rw [place, components_slash]
        exact walk_ok hdir
      show (walk proc t' _ p >>= _) = (walk proc t _ p >>= _)
      rw [walk_below hp hbelow]
      cases h : walk proc t (place proc (s ++ ['/'])) p with
      | error e => rfl
      | ok q =>
          show (if isFile (t'.lookup q) ∧ _ then _ else _) =
            (if isFile (t.lookup q) ∧ _ then _ else _)
          rw [walk_ok h, foldl_child_proper hp, hbelow]

end FileTree
