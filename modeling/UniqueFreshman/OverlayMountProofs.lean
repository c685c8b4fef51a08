import UniqueFreshman.OverlayListingProofs

/-! # The overlay file system — the mount as one plain file system

    Whoever uses the mount sees a single file system.  Here is that file system:
    a function from paths to files and directories, in which a request does
    something to what is at its own path and leaves the rest alone.  A listing of
    a directory is compared as the types that it gives to each name.  The error
    codes are not told apart, and descriptors and serial numbers are not seen.

    `view` is what the two layers show: the upper copy of a path, or else the
    lower one.  A mount whose process may do everything answers as the plain file
    system over its view does, as long as every request is `Seamless`: nothing is
    created where only the lower layer has something, nothing is removed that the
    lower layer has, a path that neither layer has meets no stray `ret`, and the
    directory that is listed has no entry that the test of `readdir` mistakes. -/

namespace Overlay

open FileTree FileCalls DescriptorTable
open CallSequence

/-! ## The plain file system -/

/-- A file or a directory, without its serial number. -/
structure Item where
  mode : Nat
  kind : Kind
deriving DecidableEq

abbrev Files := Path → Option Item

/-- What FUSE sees of an answer; of a listing, the types with which each name is listed. -/
inductive Answer where
  | failed
  | done
  | stat (mode size : Nat)
  | data (bytes : List UInt8)
  | moved (n : Nat)
  | listing (types : Name → List Nat)

/-- The attributes `stat` shows. -/
def Item.stat : Item → Answer
  | ⟨mode, .dir⟩ => .stat (fileType (.dir : Kind) <<< 12 ||| mode) 0
  | ⟨mode, .file bytes⟩ => .stat (fileType (.file bytes : Kind) <<< 12 ||| mode) bytes.length

def Item.isDir : Option Item → Bool
  | some ⟨_, .dir⟩ => true
  | _ => false

/-- What `open` makes of something that exists. -/
def Item.reopened (flags : Flags) : Item → Option Item
  | ⟨mode, .dir⟩ =>
      if flags.creat || flags.trunc || flags.acc != .rdonly then none else some ⟨mode, .dir⟩
  | ⟨mode, .file bytes⟩ =>
      if flags.creat && flags.excl || flags.directory then none
      else some ⟨mode, .file (if flags.trunc then [] else bytes)⟩

/-- A new file or directory, under the file mode creation mask. -/
def Item.fresh (umask mode : Nat) (kind : Kind) : Item := ⟨mode ^^^ (mode &&& umask), kind⟩

/-- What is around a path: whether it stands in a directory, and what stands in it. -/
structure Around where
  inDir : Bool
  types : Name → List Nat

/-- `.` and `..`. -/
def IsDots (c : Name) : Prop := c = ['.'] ∨ c = ['.', '.']

instance (c : Name) : Decidable (IsDots c) := inferInstanceAs (Decidable (_ ∨ _))

/-- The types with which a name is listed in a directory: one, or none. -/
def listing (files : Files) (p : Path) (c : Name) : List Nat :=
  if IsDots c then [fileType (.dir : Kind) <<< 12]
  else ((files (p ++ [c])).map fun i => fileType i.kind <<< 12).toList

def around (files : Files) (p : Path) : Around :=
  ⟨Item.isDir (files p.dropLast), listing files p⟩

/-- What a request makes of what is at its path, and its answer; `none` when it fails. -/
def act (umask : Nat) (around : Around) (item : Option Item) :
    Op → Option (Option Item × Answer)
  | .getattr _ => item.map fun i => (item, i.stat)
  | .access _ mask _ => if 7 < mask then none else item.map fun _ => (item, .done)
  | .readdir .. => if Item.isDir item then some (item, .listing around.types) else none
  | .create _ mode flags =>
      match item with
      | some i => (i.reopened flags).map fun i' => (some i', .done)
      | none =>
          if flags.creat && !flags.directory && around.inDir then
            some (some (.fresh umask mode (.file [])), .done)
          else none
  | .open _ flags _ => item.bind fun i => (i.reopened flags).map fun i' => (some i', .done)
  | .read _ size offset _ =>
      match item with
      | some ⟨_, .file bytes⟩ =>
          if offset < 0 then none
          else some (item, .data ((bytes.drop offset.toNat).take (min size maxTransfer)))
      | _ => none
  | .write _ data offset =>
      match item with
      | some ⟨mode, .file bytes⟩ =>
          let moved := data.take maxTransfer
          if offset < 0 then none
          else some (some ⟨mode, .file
            (if moved = [] then bytes else overwrite bytes offset.toNat moved)⟩,
              .moved moved.length)
      | _ => none
  | .unlink _ =>
      match item with
      | some ⟨_, .file _⟩ => some (none, .done)
      | _ => none
  | .mkdir _ mode =>
      if item.isNone && around.inDir then some (some (.fresh umask mode .dir), .done) else none
  | .truncate _ size _ =>
      match item with
      | some ⟨mode, .file bytes⟩ =>
          if size < 0 then none else some (some ⟨mode, .file (resize bytes size.toNat)⟩, .done)
      | _ => none

/-- A request to the plain file system. -/
def plain (umask : Nat) (files : Files) (op : Op) : Files × Answer :=
  match act umask (around files op.path.names) (files op.path.names) op with
  | none => (files, .failed)
  | some (item, answer) => (Function.update files op.path.names item, answer)

/-! ## The mount -/

/-- A negative return value is an error. -/
def outcome (ret : Int) (answer : Answer) : Answer := if ret < 0 then .failed else answer

theorem outcome_neg {ret : Int} (h : ret < 0) (a : Answer) : outcome ret a = .failed := if_pos h

theorem outcome_code (e : Errno) (a : Answer) : outcome (-code e) a = .failed :=
  outcome_neg (neg_code e) a

/-- The types with which a name was handed to `filler`. -/
def listed (filled : List Filled) (c : Name) : List Nat :=
  (filled.filter fun f => f.name = c).map Filled.mode

def answer (proc : Process) (dirs : Dirs) (w : World) : Op → Answer
  | .getattr path =>
      let (ret, st) := myfsGetattr proc dirs w path
      outcome ret (.stat st.mode st.size)
  | .access path mask ret₀ => outcome (myfsAccess proc dirs w path mask ret₀) .done
  | .readdir path filler =>
      let (ret, filled, _) := myfsReaddir proc dirs w path filler
      outcome ret (.listing (listed filled))
  | .create path mode flags => outcome (myfsCreate proc dirs w path mode flags).1 .done
  | .open path flags ret₀ => outcome (myfsOpen proc dirs w path flags ret₀).1 .done
  | .read path size offset fiNull =>
      let (ret, bytes, _) := myfsRead proc dirs w path size offset fiNull
      outcome ret (.data bytes)
  | .write path data offset =>
      let (ret, _) := myfsWrite proc dirs w path data offset
      outcome ret (.moved ret.toNat)
  | .unlink path => outcome (myfsUnlink proc dirs w path).1 .done
  | .mkdir path mode => outcome (myfsMkdir proc dirs w path mode).1 .done
  | .truncate path size ret₀ => outcome (myfsTruncate proc dirs w path size ret₀).1 .done

/-- A request to the mount. -/
def serve (proc : Process) (dirs : Dirs) (w : World) (op : Op) : World × Answer :=
  (apply proc dirs w op, answer proc dirs w op)

/-- `mkdir` is the plain call in the upper layer. -/
theorem serve_mkdir (proc : Process) (dirs : Dirs) (w : World) (path : FusePath) (mode : Nat) :
    serve proc dirs w (.mkdir path mode) =
      let r := reply w (mkdir proc w (setFpath dirs path.string .upper) mode)
      (r.2, outcome r.1 .done) := by
  simp only [serve, apply, answer, myfsMkdir]

/-- A node without its serial number. -/
def itemOf (n : Node) : Item := ⟨n.mode, n.kind⟩

def itemAt (w : World) (q : Path) : Option Item := (w.tree.lookup q).map itemOf

/-- What the mount shows: the upper copy of a path, or else the lower one. -/
def view (proc : Process) (dirs : Dirs) (w : World) : Files := fun p =>
  (itemAt w (layerPlace proc dirs .upper ++ p)).or (itemAt w (layerPlace proc dirs .lower ++ p))

/-- Both layers are directories that can be reached. -/
structure Mounted (proc : Process) (dirs : Dirs) (w : World) : Prop where
  reached : ∀ layer, resolve proc w.tree (dirs.of layer ++ ['/']) =
    .ok (layerPlace proc dirs layer)
  isDir : ∀ layer, FileTree.isDir (w.tree.lookup (layerPlace proc dirs layer)) = true

/-- The process may do everything. -/
def Privileged (proc : Process) : Prop := ∀ mode perm, proc.may mode perm = true

/-- Only the lower layer has something at `p`. -/
def OnlyLower (proc : Process) (dirs : Dirs) (w : World) (p : Path) : Prop :=
  itemAt w (layerPlace proc dirs .upper ++ p) = none ∧
    itemAt w (layerPlace proc dirs .lower ++ p) ≠ none

instance (proc : Process) (dirs : Dirs) (w : World) (p : Path) :
    Decidable (OnlyLower proc dirs w p) :=
  inferInstanceAs (Decidable (_ ∧ _))

/-- A descriptor is free. -/
def HasFree (w : World) : Prop := w.fds.lowest.isSome = true

instance (w : World) : Decidable (HasFree w) := inferInstanceAs (Decidable (_ = _))

/-- A directory whose listing does not show that there are two layers: the test of `readdir`
    finds the upper entries, two descriptors are free, and `filler` takes all that it is
    handed. -/
@[mk_iff] structure ListedWell (proc : Process) (dirs : Dirs) (w : World) (path : FusePath)
    (filler : List Filled → Filled → Bool) : Prop where
  isDir : Item.isDir (view proc dirs w path.names) = true
  names : ProperNames w.tree
  room : w.fds.TwoFree
  all : (myfsReaddir proc dirs w path filler).2.1 =
    (myfsReaddir proc dirs w path fun _ _ => false).2.1
  seen : ShadowsSeen proc dirs w path

instance (proc : Process) (dirs : Dirs) (w : World) (path : FusePath)
    (filler : List Filled → Filled → Bool) : Decidable (ListedWell proc dirs w path filler) :=
  decidable_of_iff' _ (listedWell_iff proc dirs w path filler)

/-- The requests at which it does not show that there are two layers. -/
def Seamless (proc : Process) (dirs : Dirs) (w : World) : Op → Prop
  | .getattr _ => True
  | .readdir path filler => ListedWell proc dirs w path filler
  | .access path _ ret₀ | .truncate path _ ret₀ =>
      view proc dirs w path.names = none → ret₀ = -1
  | .open path _ ret₀ => HasFree w ∧ (view proc dirs w path.names = none → ret₀ = -1)
  | .read .. | .write .. => HasFree w
  | .unlink path => itemAt w (layerPlace proc dirs .lower ++ path.names) = none
  | .create path _ _ => HasFree w ∧
      found proc w (cutLast (setFpath dirs path.string .upper)) = true ∧
        ¬ OnlyLower proc dirs w path.names ∧ ¬ OnlyLower proc dirs w path.names.dropLast
  | .mkdir path _ =>
      ¬ OnlyLower proc dirs w path.names ∧ ¬ OnlyLower proc dirs w path.names.dropLast

instance (proc : Process) (dirs : Dirs) (w : World) (op : Op) :
    Decidable (Seamless proc dirs w op) :=
  match op with
  | .getattr _ => inferInstanceAs (Decidable True)
  | .readdir path filler => inferInstanceAs (Decidable (ListedWell proc dirs w path filler))
  | .access .. | .truncate .. => inferInstanceAs (Decidable (_ → _))
  | .open .. => inferInstanceAs (Decidable (_ ∧ (_ → _)))
  | .read .. | .write .. => inferInstanceAs (Decidable (HasFree w))
  | .unlink _ => inferInstanceAs (Decidable (_ = none))
  | .create .. => inferInstanceAs (Decidable (_ ∧ _ = true ∧ ¬ _ ∧ ¬ _))
  | .mkdir .. => inferInstanceAs (Decidable (¬ _ ∧ ¬ _))

variable {proc : Process} {dirs : Dirs} {w w' : World} {path : FusePath} {layer : Layer}

/-! ## One place changes -/

/-- The tree has `item` at `q`; a directory there stays as it was, and so does everything
    else. -/
structure Turns (q : Path) (item : Option Item) (t t' : Tree) : Prop where
  elsewhere : OnlyAt q t t'
  there : (t'.lookup q).map itemOf = item
  kept : FileTree.isDir (t.lookup q) = true → t'.lookup q = t.lookup q

theorem turns_same {t : Tree} {q : Path} {n : Node} (hn : t.lookup q = some n) :
    Turns q (some (itemOf n)) t t :=
  ⟨.refl q t, by rw [hn]; rfl, fun _ => rfl⟩

/-- A node is put in a directory, over a file or over nothing. -/
theorem turns_set {t : Tree} {q : Path} (n : Node) (hn : FileTree.isDir (t.lookup q) = false)
    (hin : FileTree.isDir (t.lookup q.dropLast) = true) :
    Turns q (some (itemOf n)) t (t.set q (some n)) := by
  have hpermits : t.permits q (some n) = true := by
    rw [TreeOf.permits, hn, if_neg Bool.false_ne_true]
    exact hin
  refine ⟨onlyAt_set t q _, ?_, fun h => ?_⟩
  · rw [TreeOf.lookup_set hpermits, if_pos rfl]
    rfl
  · rw [hn] at h
    cases h

/-- A file becomes another one. -/
theorem turns_file {t : Tree} {q : Path} {ino mode : Nat} {bytes : List UInt8}
    (hn : t.lookup q = some ⟨ino, mode, .file bytes⟩) (bytes' : List UInt8) :
    Turns q (some ⟨mode, .file bytes'⟩) t (t.set q (some ⟨ino, mode, .file bytes'⟩)) := by
  obtain ⟨ino', mode', hdir⟩ := dir_of_file hn
  refine turns_set ⟨ino, mode, .file bytes'⟩ ?_ ?_
  · rw [hn]
    rfl
  · rw [hdir]
    rfl

/-- A file is taken away. -/
theorem turns_unlinked {t : Tree} {q : Path} (hn : FileTree.isDir (t.lookup q) = false) :
    Turns q none t (t.set q none) := by
  have hpermits : t.permits q none = true := by
    rw [TreeOf.permits, hn]
    rfl
  refine ⟨onlyAt_set t q _, ?_, fun h => ?_⟩
  · rw [TreeOf.lookup_set hpermits, if_pos rfl]
    rfl
  · rw [hn] at h
    cases h

/-- A request that turns what is at `q`, or fails and leaves the tree alone. -/
def Does (w : World) (q : Path) (x : Option (Option Item × Answer)) (r : World × Answer) : Prop :=
  match x with
  | none => r.2 = .failed ∧ r.1.tree = w.tree
  | some (item, a) => r.2 = a ∧ Turns q item w.tree r.1.tree

/-- Directories that stay what they are can still be walked through. -/
theorem walk_kept {t t' : Tree} (hkept : ∀ r, FileTree.isDir (t.lookup r) = true →
    t'.lookup r = t.lookup r) {dir q : Path} {cs : List Name}
    (h : walk proc t dir cs = .ok q) : walk proc t' dir cs = .ok q := by
  induction cs generalizing dir with
  | nil => exact h
  | cons c cs ih =>
      obtain ⟨dir', hdir', h⟩ := bind_eq_ok.mp h
      obtain ⟨⟨n, hn, hkind, hmay⟩, hchild⟩ := enter_eq_ok.mp hdir'
      have hn' : t'.lookup dir = some n := by
        rw [hkept dir (isDir_iff.mpr ⟨n, hn, hkind⟩), hn]
      exact bind_eq_ok.mpr ⟨dir', enter_eq_ok.mpr ⟨⟨n, hn', hkind, hmay⟩, hchild⟩, ih h⟩

/-- A change that keeps the directories keeps the mount. -/
theorem Mounted.kept (h : Mounted proc dirs w)
    (hkept : ∀ r, FileTree.isDir (w.tree.lookup r) = true → w'.tree.lookup r = w.tree.lookup r) :
    Mounted proc dirs w' := by
  have hisDir (layer : Layer) :
      FileTree.isDir (w'.tree.lookup (layerPlace proc dirs layer)) = true := by
    rw [hkept _ (h.isDir layer)]
    exact h.isDir layer
  refine ⟨fun layer => ?_, hisDir⟩
  obtain ⟨hne, hwalk, -⟩ := resolve_eq_ok.mp (h.reached layer)
  refine resolve_eq_ok.mpr ⟨hne, walk_kept hkept hwalk, ?_⟩
  rintro ⟨hfile, -⟩
  rw [isFile, hisDir] at hfile
  simp at hfile

/-- What a request does to the view, when it changes one copy of its path. -/
theorem view_of_onlyAt (hdirs : Apart proc dirs) {p : Path}
    (h : OnlyAt (layerPlace proc dirs layer ++ p) w.tree w'.tree) {q : Path} (hq : q ≠ p) :
    view proc dirs w' q = view proc dirs w q := by
  have hsame (layer' : Layer) : itemAt w' (layerPlace proc dirs layer' ++ q) =
      itemAt w (layerPlace proc dirs layer' ++ q) := by
    rw [itemAt, itemAt, h]
    intro heq
    cases layer <;> cases layer'
    · exact hq (List.append_cancel_left heq)
    · exact hdirs.ne p q heq.symm
    · exact hdirs.ne q p heq
    · exact hq (List.append_cancel_left heq)
  rw [view, view, hsame, hsame]

/-- The mount and the plain file system agree on a request. -/
structure Agrees (proc : Process) (dirs : Dirs) (w : World) (op : Op) : Prop where
  answers : (serve proc dirs w op).2 = (plain proc.umask (view proc dirs w) op).2
  views : view proc dirs (serve proc dirs w op).1 = (plain proc.umask (view proc dirs w) op).1
  mounted : Mounted proc dirs (serve proc dirs w op).1

/-- What a request does to what is at its path, in the plain file system over the view. -/
def viewed (proc : Process) (dirs : Dirs) (w : World) (op : Op) : Option (Option Item × Answer) :=
  act proc.umask (around (view proc dirs w) op.path.names) (view proc dirs w op.path.names) op

/-- Only `unlink` removes something. -/
theorem act_removes {umask : Nat} {around : Around} {item : Option Item} {op : Op} {a : Answer}
    (h : act umask around item op = some (none, a)) : item = none ∨ ∃ path, op = .unlink path := by
  cases item with
  | none => exact .inl rfl
  | some i =>
      obtain ⟨mode, kind⟩ := i
      cases op with
      | unlink path => exact .inr ⟨path, rfl⟩
      | create path mode flags | «open» path flags ret₀ => simp [act] at h
      | getattr path | readdir path filler | mkdir path mode => simp [act] at h
      | access path mask ret₀ => simp [act] at h
      | read | write | truncate => cases kind <;> simp [act] at h

/-- What is not shown is in neither layer. -/
theorem lower_of_view_none {p : Path} (h : view proc dirs w p = none) :
    itemAt w (layerPlace proc dirs .lower ++ p) = none :=
  (Option.or_eq_none_iff.mp h).2

/-- A seamless request that removes something leaves nothing of it in the lower layer. -/
theorem Seamless.removed {op : Op} (hseam : Seamless proc dirs w op) {a : Answer}
    (h : viewed proc dirs w op = some (none, a)) :
    itemAt w (layerPlace proc dirs .lower ++ op.path.names) = none := by
  rcases act_removes h with hview | ⟨path, rfl⟩
  · exact lower_of_view_none hview
  · exact hseam

/-- **ONE COPY IS ENOUGH**: a request that does to one copy of its path what the plain file
    system does there agrees with it, if that copy is what the mount shows. -/
theorem agrees_of_does (layer : Layer) (hdirs : Apart proc dirs) (hm : Mounted proc dirs w)
    {op : Op} (hseam : Seamless proc dirs w op)
    (h : Does w (layerPlace proc dirs layer ++ op.path.names) (viewed proc dirs w op)
      (serve proc dirs w op))
    (hlower : layer = .lower → itemAt w (layerPlace proc dirs .upper ++ op.path.names) = none) :
    Agrees proc dirs w op := by
  have hplain : plain proc.umask (view proc dirs w) op =
      match viewed proc dirs w op with
      | none => (view proc dirs w, .failed)
      | some (item, a) => (Function.update (view proc dirs w) op.path.names item, a) := rfl
  cases hv : viewed proc dirs w op with
  | none =>
      simp only [hv] at h hplain
      obtain ⟨hfailed, htree⟩ := h
      refine ⟨by rw [hplain, hfailed], ?_, hm.kept fun r _ => by rw [htree]⟩
      rw [hplain]
      funext p
      simp only [view, itemAt, htree]
  | some r =>
      obtain ⟨item, a⟩ := r
      simp only [hv] at h hplain
      obtain ⟨ha, hturns⟩ := h
      refine ⟨by rw [hplain, ha], ?_, hm.kept fun r hr => ?_⟩
      · rw [hplain]
        funext p
        show _ = Function.update (view proc dirs w) op.path.names item p
        by_cases hp : p = op.path.names
        · rw [hp, Function.update_self]
          have hthere : itemAt (serve proc dirs w op).1
              (layerPlace proc dirs layer ++ op.path.names) = item := hturns.there
          cases layer with
          | lower =>
              -- the upper layer still has nothing there
              have hne := (hdirs.ne op.path.names op.path.names).symm
              have hup : itemAt (serve proc dirs w op).1
                  (layerPlace proc dirs .upper ++ op.path.names) = none := by
                rw [itemAt, hturns.elsewhere _ hne]
                exact hlower rfl
              rw [view, hup, hthere, Option.none_or]
          | upper =>
              rw [view, hthere]
              cases item with
              | some i => rfl
              | none =>
                  rw [Option.none_or, itemAt,
                    hturns.elsewhere _ (hdirs.ne op.path.names op.path.names)]
                  exact hseam.removed hv
        · rw [Function.update_of_ne hp]
          exact view_of_onlyAt hdirs hturns.elsewhere hp
      · by_cases hq : r = layerPlace proc dirs layer ++ op.path.names
        · rw [hq] at hr ⊢
          exact hturns.kept hr
        · exact hturns.elsewhere r hq

/-! ## What the calls do at a place -/

section Calls

variable {q : Path} {n : Node}

/-- `open` of something that exists. -/
theorem openNode_reopened (hpriv : Privileged proc) {t : Tree} (hn : t.lookup q = some n)
    (slash : Bool) (flags : Flags) (mode : Nat) :
    match (itemOf n).reopened flags with
    | none => ∃ e, openNode proc t q slash flags mode = .error e
    | some i => ∃ t', openNode proc t q slash flags mode = .ok t' ∧ Turns q (some i) t t' := by
  have hsame : Turns q (some (itemOf n)) t t := turns_same hn
  obtain ⟨ino, m, kind⟩ := n
  cases kind using Kind.cases with
  | dir =>
      simp only [itemOf, Item.reopened, openNode, hn, hpriv m .read, Bool.not_true,
        Bool.false_eq_true, if_false]
      by_cases hexcl : (flags.creat && flags.excl) = true
      · rw [if_pos hexcl]
        rw [Bool.and_eq_true] at hexcl
        rw [hexcl.1, Bool.true_or, Bool.true_or, if_pos rfl]
        exact ⟨_, rfl⟩
      · rw [if_neg hexcl]
        by_cases hwrites : (flags.creat || flags.trunc || flags.acc != .rdonly) = true
        · rw [if_pos hwrites, if_pos hwrites]
          exact ⟨_, rfl⟩
        · rw [if_neg hwrites, if_neg hwrites]
          exact ⟨t, rfl, hsame⟩
  | file bytes =>
      have hmay : (!mayOpen proc m flags) = false := by
        simp [mayOpen, hpriv m .read, hpriv m .write]
      simp only [itemOf, Item.reopened, openNode, hn, hmay, Bool.false_eq_true, if_false]
      by_cases hexcl : (flags.creat && flags.excl) = true
      · rw [if_pos hexcl, hexcl, Bool.true_or, if_pos rfl]
        exact ⟨_, rfl⟩
      · rw [if_neg hexcl, Bool.eq_false_iff.mpr hexcl, Bool.false_or]
        by_cases hdirectory : flags.directory = true
        · rw [if_pos hdirectory, if_pos hdirectory]
          exact ⟨_, rfl⟩
        · rw [if_neg hdirectory, if_neg hdirectory]
          by_cases htrunc : flags.trunc = true
          · rw [if_pos htrunc, if_pos htrunc]
            exact ⟨_, rfl, turns_file hn []⟩
          · rw [if_neg htrunc, if_neg htrunc]
            exact ⟨t, rfl, hsame⟩

/-- The same for the whole call, with its answer. -/
theorem openFile_does (hpriv : Privileged proc) (hfree : HasFree w) {s : List Char}
    (hs : resolve proc w.tree s = .ok q) (hn : w.tree.lookup q = some n) (flags : Flags)
    (mode : Nat) :
    Does w q (((itemOf n).reopened flags).map fun i => (some i, .done))
      ((replyOpen w (openFile proc w (some s) flags mode)).2.2,
        outcome (replyOpen w (openFile proc w (some s) flags mode)).1 .done) := by
  obtain ⟨fd, hfd⟩ := Option.isSome_iff_exists.mp hfree
  have hnode := openNode_reopened hpriv hn (s.getLast? == some '/') flags mode
  cases hi : (itemOf n).reopened flags with
  | none =>
      rw [hi] at hnode
      obtain ⟨e, he⟩ := hnode
      simp only [openFile, hs, openAt, hfd, he]
      exact ⟨outcome_code e _, rfl⟩
  | some i =>
      rw [hi] at hnode
      obtain ⟨t', ht', hturns⟩ := hnode
      simp only [openFile, hs, openAt, hfd, ht']
      exact ⟨rfl, hturns⟩

/-- An `open` that changes nothing. -/
theorem openAt_same (hpriv : Privileged proc) {fd : Nat} (hfd : w.fds.lowest = some fd)
    {ino mode : Nat} {bytes : List UInt8}
    (hn : w.tree.lookup q = some ⟨ino, mode, .file bytes⟩) (acc : AccMode) :
    openAt proc w q false { acc := acc } 0 = .ok (fd, ⟨w.tree, w.fds.put fd ⟨q, acc⟩⟩) := by
  have hmay : (!mayOpen proc mode { acc := acc }) = false := by
    simp [mayOpen, hpriv mode .read, hpriv mode .write]
  simp only [openAt, hfd, openNode, hn, hmay, Bool.and_self, Bool.false_eq_true, if_false]
  rfl

/-- `read` at a place, on an open file. -/
theorem read_does (hpriv : Privileged proc) (hfree : HasFree w) (hn : w.tree.lookup q = some n)
    (umask : Nat) (around : Around) (path : FusePath) (size : Nat) (offset : Int) (fiNull : Bool) :
    Does w q (act umask around (some (itemOf n)) (.read path size offset fiNull))
      (let r := readOpened w size offset fiNull (openAt proc w q false rdonly 0)
      (r.2.2, outcome r.1 (.data r.2.1))) := by
  obtain ⟨fd, hfd⟩ := Option.isSome_iff_exists.mp hfree
  have hslot (f : OpenFile) : (w.fds.put fd f).slots fd = some f := by
    rw [Table.put_slots, if_pos rfl]
  have htree (f : OpenFile) : (if fiNull = true then closeFile ⟨w.tree, w.fds.put fd f⟩ fd
      else ⟨w.tree, w.fds.put fd f⟩).tree = w.tree := by
    split <;> rfl
  obtain ⟨ino, mode, kind⟩ := n
  cases kind using Kind.cases with
  | dir =>
      -- the directory is opened, but cannot be read
      have hopen : openAt proc w q false rdonly 0 =
          .ok (fd, ⟨w.tree, w.fds.put fd ⟨q, .rdonly⟩⟩) := by
        simp only [openAt, hfd, openNode, hn, rdonly, hpriv mode .read, Bool.not_true,
          Bool.false_eq_true, if_false, Bool.and_self, Bool.or_self, bne_self_eq_false]
        rfl
      obtain ⟨e, he⟩ : ∃ e, pread ⟨w.tree, w.fds.put fd ⟨q, .rdonly⟩⟩ fd size offset =
          .error e := by
        simp only [pread, hslot, hn]
        split
        · exact ⟨_, rfl⟩
        · split <;> exact ⟨_, rfl⟩
      simp only [hopen, readOpened, he]
      exact ⟨outcome_code e _, htree _⟩
  | file bytes =>
      simp only [rdonly, openAt_same hpriv hfd hn, readOpened, pread, hslot, hn, reduceCtorEq,
        if_false, act, itemOf]
      by_cases hoff : offset < 0
      · rw [if_pos hoff, if_pos hoff]
        exact ⟨rfl, htree _⟩
      · rw [if_neg hoff, if_neg hoff]
        refine ⟨rfl, ?_⟩
        rw [htree]
        exact turns_same hn

/-- `write` at a place; a hole before the offset is filled with zeros. -/
theorem write_does (hpriv : Privileged proc) (hfree : HasFree w) (hn : w.tree.lookup q = some n)
    (umask : Nat) (around : Around) (path : FusePath) (data : List UInt8) (offset : Int) :
    Does w q (act umask around (some (itemOf n)) (.write path data offset))
      (let r := writeOpened w data offset (openAt proc w q false wronly 0)
      (r.2, outcome r.1 (.moved r.1.toNat))) := by
  obtain ⟨fd, hfd⟩ := Option.isSome_iff_exists.mp hfree
  have hslot (f : OpenFile) : (w.fds.put fd f).slots fd = some f := by
    rw [Table.put_slots, if_pos rfl]
  obtain ⟨ino, mode, kind⟩ := n
  cases kind using Kind.cases with
  | dir =>
      have hopen : openAt proc w q false wronly 0 = .error .EISDIR := by
        simp only [openAt, hfd, openNode, hn, wronly]
        rfl
      simp only [hopen, writeOpened]
      exact ⟨rfl, rfl⟩
  | file bytes =>
      simp only [wronly, openAt_same hpriv hfd hn, writeOpened, pwrite, hslot, hn, reduceCtorEq,
        if_false, act, itemOf]
      by_cases hoff : offset < 0
      · rw [if_pos hoff, if_pos hoff]
        exact ⟨rfl, rfl⟩
      · rw [if_neg hoff, if_neg hoff]
        by_cases hmoved : data.take maxTransfer = []
        · rw [if_pos hmoved, if_pos hmoved, hmoved]
          exact ⟨rfl, turns_same hn⟩
        · rw [if_neg hmoved, if_neg hmoved]
          exact ⟨rfl, turns_file hn _⟩

/-- `truncate` at a place, to any length that is not negative. -/
theorem truncate_does (hpriv : Privileged proc) (hn : w.tree.lookup q = some n)
    (umask : Nat) (around : Around) (path : FusePath) (size ret₀ : Int) :
    Does w q (act umask around (some (itemOf n)) (.truncate path size ret₀))
      (let r := reply w (if size < 0 then .error .EINVAL else truncateAt proc w q size)
      (r.2, outcome r.1 .done)) := by
  obtain ⟨ino, mode, kind⟩ := n
  cases kind using Kind.cases with
  | dir =>
      have hat : truncateAt proc w q size = .error .EISDIR := by simp only [truncateAt, hn]
      by_cases hsize : size < 0
      · rw [if_pos hsize]
        exact ⟨rfl, rfl⟩
      · rw [if_neg hsize, hat]
        exact ⟨rfl, rfl⟩
  | file bytes =>
      simp only [truncateAt, hn, hpriv mode .write, Bool.not_true, Bool.false_eq_true, if_false,
        act, itemOf]
      by_cases hsize : size < 0
      · rw [if_pos hsize, if_pos hsize]
        exact ⟨rfl, rfl⟩
      · rw [if_neg hsize, if_neg hsize]
        exact ⟨rfl, turns_file hn _⟩

/-- Something new in a directory. -/
theorem addAt_turns (hpriv : Privileged proc) {t : Tree} (hn : t.lookup q = none)
    (hin : FileTree.isDir (t.lookup q.dropLast) = true) (mode : Nat) (kind : Kind) :
    ∃ t', addAt proc t q mode kind = .ok t' ∧
      Turns q (some (.fresh proc.umask mode kind)) t t' := by
  obtain ⟨⟨ino, dirMode, dirKind⟩, hdir, rfl⟩ := isDir_iff.mp hin
  refine ⟨_, ?_, turns_set ⟨freshIno t, mode ^^^ (mode &&& proc.umask), kind⟩ ?_ hin⟩
  · simp only [addAt, hdir, hpriv dirMode .write, if_true]
  · rw [hn]
    rfl

/-- A string whose last name is not there leads to its place, if that is in a directory. -/
theorem resolve_missing (layer : Layer) (hpriv : Privileged proc) (hm : Mounted proc dirs w)
    {p : Path} {c : Name} (hpath : path.names = p ++ [c]) :
    if FileTree.isDir (w.tree.lookup (layerPlace proc dirs layer ++ p)) then
      resolve proc w.tree (setFpath dirs path.string layer) =
        .ok (layerPlace proc dirs layer ++ path.names)
    else ∃ e, resolve proc w.tree (setFpath dirs path.string layer) = .error e := by
  have hproper : ∀ x ∈ p ++ [c], Proper x := hpath ▸ path.proper
  have hp : ∀ x ∈ p, Proper x := fun x hx => hproper x (List.mem_append_left [c] hx)
  have hc : Proper c := hproper c (List.mem_append_right p (List.mem_singleton.mpr rfl))
  rw [setFpath, FusePath.string, hpath]
  split
  · next hdir =>
      obtain ⟨n, hn, hkind⟩ := isDir_iff.mp hdir
      have hdirs : HasAt proc dirs w layer p := ⟨hm.reached layer, Option.isSome_of_eq_some hn⟩
      have hparent := hdirs.resolve hp fun q m _ _ _ _ => hpriv m.mode .search
      rw [resolve_concat hproper hparent, ← List.append_assoc]
      exact enter_eq_ok.mpr ⟨⟨n, hn, hkind, hpriv n.mode .search⟩, (child_proper hc).symm⟩
  · next hdir =>
      cases h : resolve proc w.tree (dirs.of layer ++ absolute (p ++ [c])) with
      | error e => exact ⟨e, rfl⟩
      | ok q =>
          -- the walk has entered a directory at `p`
          obtain ⟨-, hwalk, -⟩ := resolve_eq_ok.mp h
          rw [origin_absolute, components_absolute _ hproper, ← List.append_assoc, walk_append]
            at hwalk
          obtain ⟨d, hd, hlast⟩ := bind_eq_ok.mp hwalk
          obtain ⟨⟨n, hn, hkind, -⟩, -⟩ := enter_eq_ok.mp ((walk_single d c).symm.trans hlast)
          have hplace : d = layerPlace proc dirs layer ++ p := by
            rw [walk_ok hd, List.foldl_append, foldl_child_proper hp, layerPlace, place,
              components_slash]
          rw [hplace] at hn
          exact absurd (isDir_iff.mpr ⟨n, hn, hkind⟩) hdir

end Calls

/-! ## Requests -/

/-- A process with all permissions may search every directory. -/
theorem Privileged.passable (hpriv : Privileged proc) : Passable proc dirs w path :=
  fun _ _ n _ _ _ _ => hpriv n.mode .search

/-- In a mount a layer has what is at the place of the path. -/
theorem Mounted.has_iff (hm : Mounted proc dirs w) :
    Has proc dirs w layer path ↔
      (w.tree.lookup (layerPlace proc dirs layer ++ path.names)).isSome = true :=
  and_iff_right (hm.reached layer)

/-- A path is shown by one of its copies, or is in neither layer. -/
theorem shown_cases (hpriv : Privileged proc) (hm : Mounted proc dirs w) (path : FusePath) :
    (∃ layer n, IsCopy proc dirs w path layer ∧
      w.tree.lookup (layerPlace proc dirs layer ++ path.names) = some n ∧
      view proc dirs w path.names = some (itemOf n) ∧
      (layer = .lower → itemAt w (layerPlace proc dirs .upper ++ path.names) = none)) ∨
    (view proc dirs w path.names = none ∧
      found proc w (setFpath dirs path.string .upper) = false ∧
      found proc w (setFpath dirs path.string .lower) = false) := by
  have hhas (layer : Layer) {n : Node}
      (h : w.tree.lookup (layerPlace proc dirs layer ++ path.names) = some n) :
      Has proc dirs w layer path := hm.has_iff.mpr (Option.isSome_of_eq_some h)
  have hnot (layer : Layer) (h : w.tree.lookup (layerPlace proc dirs layer ++ path.names) = none) :
      ¬ Has proc dirs w layer path := by
    rw [hm.has_iff, h]
    exact Bool.false_ne_true
  cases hu : w.tree.lookup (layerPlace proc dirs .upper ++ path.names) with
  | some n =>
      refine .inl ⟨.upper, n, hhas .upper hu, hu, ?_, nofun⟩
      simp only [view, itemAt, hu, Option.map_some, Option.some_or]
  | none =>
      have hup : itemAt w (layerPlace proc dirs .upper ++ path.names) = none := by
        rw [itemAt, hu]
        rfl
      cases hl : w.tree.lookup (layerPlace proc dirs .lower ++ path.names) with
      | some n =>
          refine .inl ⟨.lower, n, ⟨hnot .upper hu, hhas .lower hl⟩, hl, ?_, fun _ => hup⟩
          simp only [view, itemAt, hu, hl, Option.map_none, Option.none_or, Option.map_some]
      | none =>
          have hfound (layer : Layer) (h : ¬ Has proc dirs w layer path) :
              found proc w (setFpath dirs path.string layer) = false := by
            rw [← found_iff_has hpriv.passable, Bool.not_eq_true] at h
            exact h
          refine .inr ⟨?_, hfound _ (hnot _ hu), hfound _ (hnot _ hl)⟩
          simp only [view, itemAt, hu, hl, Option.map_none, Option.none_or]

/-! ## Listings -/

theorem isDir_itemAt (q : Path) : Item.isDir (itemAt w q) = FileTree.isDir (w.tree.lookup q) := by
  rw [itemAt]
  cases w.tree.lookup q with
  | none => rfl
  | some n =>
      obtain ⟨ino, mode, kind⟩ := n
      cases kind <;> rfl

section Listings

variable (hpriv : Privileged proc) (hm : Mounted proc dirs w)

theorem Privileged.listable (hpriv : Privileged proc) : Listable proc dirs w path :=
  ⟨fun _ _ n _ _ => hpriv n.mode .read, fun _ n _ _ => hpriv n.mode .search⟩

include hpriv hm in
/-- The directory of a layer is at the place of the path. -/
theorem inLayer_iff {de : Dirent} :
    InLayer proc dirs w path layer de ↔
      FileTree.isDir (w.tree.lookup (layerPlace proc dirs layer ++ path.names)) = true ∧
        de ∈ dirents w.tree (layerPlace proc dirs layer ++ path.names) := by
  constructor
  · rintro ⟨q, ⟨hq, hdir⟩, hde⟩
    rw [resolve_ok hq, place_setFpath] at hdir hde
    exact ⟨hdir, hde⟩
  · rintro ⟨hdir, hde⟩
    obtain ⟨n, hn, -⟩ := isDir_iff.mp hdir
    have hhas : Has proc dirs w layer path := hm.has_iff.mpr (Option.isSome_of_eq_some hn)
    exact ⟨_, ⟨hhas.resolve hpriv.passable, hdir⟩, hde⟩

/-- A directory stands in a directory. -/
theorem isDir_child_dots {t : Tree} {q : Path} {c : Name} (hc : IsDots c)
    (h : FileTree.isDir (t.lookup q) = true) :
    FileTree.isDir (t.lookup (child q c)) = true := by
  rcases hc with rfl | rfl
  · exact h
  · show FileTree.isDir (t.lookup q.dropLast) = true
    rcases List.eq_nil_or_concat' q with rfl | ⟨p, d, rfl⟩
    · exact h
    · obtain ⟨n, hn, -⟩ := isDir_iff.mp h
      rw [List.dropLast_concat]
      exact t.dir_above (Option.isSome_of_eq_some hn)

include hpriv hm in
/-- `.` and `..` are directories. -/
theorem InLayer.type_dots (ht : ProperNames w.tree) {de : Dirent}
    (h : InLayer proc dirs w path layer de) (hc : IsDots de.name) :
    de.type = fileType (.dir : Kind) := by
  obtain ⟨hdir, hde⟩ := (inLayer_iff hpriv hm).mp h
  obtain ⟨n, hn, heq⟩ := lookup_of_mem_dirents ht hde
  obtain ⟨m, hm, hkind⟩ := isDir_iff.mp (isDir_child_dots hc hdir)
  obtain rfl := Option.some.inj (hn.symm.trans hm)
  rw [heq, direntOf, hkind]

include hpriv hm in
/-- A directory has `.` and `..`. -/
theorem exists_dots {c : Name} (hc : IsDots c)
    (hdir : FileTree.isDir (w.tree.lookup (layerPlace proc dirs layer ++ path.names)) = true) :
    ∃ de, InLayer proc dirs w path layer de ∧ de.name = c := by
  obtain ⟨n, hn, -⟩ := isDir_iff.mp (isDir_child_dots hc hdir)
  have hmem := mem_dirents_of_lookup (hc.imp_right .inl) hn
  exact ⟨direntOf c n, (inLayer_iff hpriv hm).mpr ⟨hdir, hmem⟩, rfl⟩

include hpriv hm in
/-- An entry with another name is something that stands in the directory. -/
theorem InLayer.lookup (ht : ProperNames w.tree) {de : Dirent}
    (h : InLayer proc dirs w path layer de) (hc : ¬ IsDots de.name) :
    ∃ n, w.tree.lookup (layerPlace proc dirs layer ++ (path.names ++ [de.name])) = some n ∧
      de.type = fileType n.kind := by
  have hproper : Proper de.name := by
    rcases h.name ht with hdot | hdots | hproper
    · exact absurd (.inl hdot) hc
    · exact absurd (.inr hdots) hc
    · exact hproper
  obtain ⟨n, hn, heq⟩ := lookup_of_mem_dirents ht ((inLayer_iff hpriv hm).mp h).2
  rw [child_proper hproper, List.append_assoc] at hn
  exact ⟨n, hn, congrArg Dirent.type heq⟩

include hpriv hm in
/-- What is in the directory is listed. -/
theorem inLayer_of_lookup (ht : ProperNames w.tree) {c : Name} {n : Node}
    (hn : w.tree.lookup (layerPlace proc dirs layer ++ (path.names ++ [c])) = some n) :
    InLayer proc dirs w path layer (direntOf c n) := by
  rw [← List.append_assoc] at hn
  have hproper : Proper c := ht _ c n hn
  refine (inLayer_iff hpriv hm).mpr ⟨w.tree.closed _ c n hn, ?_⟩
  exact mem_dirents_of_lookup (.inr (.inr hproper)) (child_proper hproper ▸ hn)

variable (proc dirs w path) in
/-- An entry of the merged directory: one of the upper layer, or one of the lower layer
    that no upper one covers. -/
def InMerged (de : Dirent) : Prop :=
  InLayer proc dirs w path .upper de ∨ (InLayer proc dirs w path .lower de ∧
    ∀ u, InLayer proc dirs w path .upper u → u.name ≠ de.name)

include hpriv hm in
/-- The merged directory has `.` and `..`, as directories. -/
theorem inMerged_dots (ht : ProperNames w.tree)
    (hdir : Item.isDir (view proc dirs w path.names) = true) {c : Name} (hc : IsDots c)
    {m : Nat} :
    (∃ de, InMerged proc dirs w path de ∧ de.name = c ∧ de.type <<< 12 = m) ↔
      m = fileType (.dir : Kind) <<< 12 := by
  constructor
  · rintro ⟨de, hde | ⟨hde, -⟩, rfl, rfl⟩
    · rw [hde.type_dots hpriv hm ht hc]
    · rw [hde.type_dots hpriv hm ht hc]
  · rintro rfl
    cases hu : itemAt w (layerPlace proc dirs .upper ++ path.names) with
    | some i =>
        rw [view, hu, Option.some_or, ← hu, isDir_itemAt] at hdir
        obtain ⟨de, hde, rfl⟩ := exists_dots hpriv hm hc hdir
        exact ⟨de, .inl hde, rfl, by rw [hde.type_dots hpriv hm ht hc]⟩
    | none =>
        -- there is no upper directory, and the lower one has both
        have hnone (u : Dirent) : ¬ InLayer proc dirs w path .upper u := by
          intro h
          have hisDir := ((inLayer_iff hpriv hm).mp h).1
          rw [← isDir_itemAt, hu] at hisDir
          cases hisDir
        rw [view, hu, Option.none_or, isDir_itemAt] at hdir
        obtain ⟨de, hde, rfl⟩ := exists_dots hpriv hm hc hdir
        exact ⟨de, .inr ⟨hde, fun u hu => absurd hu (hnone u)⟩, rfl,
          by rw [hde.type_dots hpriv hm ht hc]⟩

include hpriv hm in
/-- Any other name stands in the merged directory for what the view has there. -/
theorem inMerged_iff_view (ht : ProperNames w.tree) {c : Name} (hc : ¬ IsDots c) {m : Nat} :
    (∃ de, InMerged proc dirs w path de ∧ de.name = c ∧ de.type <<< 12 = m) ↔
      ∃ i, view proc dirs w (path.names ++ [c]) = some i ∧ fileType i.kind <<< 12 = m := by
  have hsome {layer : Layer} {n : Node}
      (hn : w.tree.lookup (layerPlace proc dirs layer ++ (path.names ++ [c])) = some n) :
      itemAt w (layerPlace proc dirs layer ++ (path.names ++ [c])) = some (itemOf n) := by
    rw [itemAt, hn, Option.map_some]
  constructor
  · rintro ⟨de, hde | ⟨hde, hno⟩, rfl, rfl⟩
    · obtain ⟨n, hn, htype⟩ := hde.lookup hpriv hm ht hc
      refine ⟨itemOf n, ?_, by rw [htype]; rfl⟩
      rw [view, hsome hn, Option.some_or]
    · obtain ⟨n, hn, htype⟩ := hde.lookup hpriv hm ht hc
      refine ⟨itemOf n, ?_, by rw [htype]; rfl⟩
      cases hu : w.tree.lookup (layerPlace proc dirs .upper ++ (path.names ++ [de.name])) with
      | some n' => exact absurd rfl (hno (direntOf de.name n') (inLayer_of_lookup hpriv hm ht hu))
      | none =>
          rw [view, itemAt, hu, Option.map_none, Option.none_or]
          exact hsome hn
  · rintro ⟨i, hi, rfl⟩
    cases hu : w.tree.lookup (layerPlace proc dirs .upper ++ (path.names ++ [c])) with
    | some n =>
        rw [view, hsome hu, Option.some_or] at hi
        obtain rfl := Option.some.inj hi
        exact ⟨direntOf c n, .inl (inLayer_of_lookup hpriv hm ht hu), rfl, rfl⟩
    | none =>
        rw [view, itemAt, hu, Option.map_none, Option.none_or, itemAt] at hi
        obtain ⟨n, hn, rfl⟩ := Option.map_eq_some_iff.mp hi
        refine ⟨direntOf c n, .inr ⟨inLayer_of_lookup hpriv hm ht hn, fun u hu' huc => ?_⟩,
          rfl, rfl⟩
        obtain rfl : u.name = c := huc
        obtain ⟨n', hn', -⟩ := hu'.lookup hpriv hm ht hc
        rw [hu] at hn'
        cases hn'

include hpriv hm in
/-- **WHAT THE MERGED DIRECTORY HAS** is what the view has in it. -/
theorem merged_iff_listing (ht : ProperNames w.tree)
    (hdir : Item.isDir (view proc dirs w path.names) = true) {c : Name} {m : Nat} :
    (∃ de, InMerged proc dirs w path de ∧ de.name = c ∧ de.type <<< 12 = m) ↔
      m ∈ listing (view proc dirs w) path.names c := by
  rw [listing]
  by_cases hc : IsDots c
  · rw [if_pos hc, List.mem_singleton]
    exact inMerged_dots hpriv hm ht hdir hc
  · rw [if_neg hc, Option.mem_toList, Option.map_eq_some_iff]
    exact inMerged_iff_view hpriv hm ht hc

/-- A name that is handed over once is listed once. -/
theorem length_listed_le {filled : List Filled} (h : (filled.map Filled.name).Nodup) (c : Name) :
    (listed filled c).length ≤ 1 := by
  have hnames : (filled.filter fun f => f.name = c).map Filled.name =
      List.replicate (listed filled c).length c := by
    refine List.eq_replicate_iff.mpr ⟨by rw [listed, List.length_map, List.length_map], ?_⟩
    intro d hd
    obtain ⟨f, hf, rfl⟩ := List.mem_map.mp hd
    exact of_decide_eq_true (List.mem_filter.mp hf).2
  have hnodup := h.sublist (List.filter_sublist (p := fun f => f.name = c).map Filled.name)
  rw [hnames] at hnodup
  exact List.nodup_replicate.mp hnodup

/-- The plain file system lists a name once. -/
theorem length_listing_le (files : Files) (p : Path) (c : Name) :
    (listing files p c).length ≤ 1 := by
  rw [listing]
  split
  · exact Nat.le_refl 1
  · cases files (p ++ [c]) with
    | none => exact Nat.zero_le 1
    | some i => exact Nat.le_refl 1

theorem eq_of_mem_iff {l l' : List Nat} (hl : l.length ≤ 1) (hl' : l'.length ≤ 1)
    (h : ∀ m, m ∈ l ↔ m ∈ l') : l = l' := by
  match l, l', hl, hl' with
  | [], [], _, _ => rfl
  | [], m :: _, _, _ => exact absurd ((h m).mpr List.mem_cons_self) List.not_mem_nil
  | m :: _, [], _, _ => exact absurd ((h m).mp List.mem_cons_self) List.not_mem_nil
  | [m], [m'], _, _ => rw [List.mem_singleton.mp ((h m).mp List.mem_cons_self)]

include hpriv hm in
/-- **THE LISTING** of a directory that is listed well is the one of the view. -/
theorem listed_readdir {filler : List Filled → Filled → Bool}
    (h : ListedWell proc dirs w path filler) :
    listed (myfsReaddir proc dirs w path filler).2.1 =
      listing (view proc dirs w) path.names := by
  have hmerged : MergedListing proc dirs w path (myfsReaddir proc dirs w path filler).2.1 := by
    rw [h.all]
    exact (mergedListing_iff h.names hpriv.listable h.room).mpr h.seen
  funext c
  refine eq_of_mem_iff (length_listed_le hmerged.once c) (length_listing_le _ _ c) fun m => ?_
  rw [← merged_iff_listing hpriv hm h.names h.isDir, listed, List.mem_map]
  constructor
  · rintro ⟨f, hf, rfl⟩
    obtain ⟨hf, hname⟩ := List.mem_filter.mp hf
    obtain ⟨de, rfl, hde⟩ := (hmerged.entries f).mp hf
    exact ⟨de, hde, of_decide_eq_true hname, rfl⟩
  · rintro ⟨de, hde, rfl, rfl⟩
    exact ⟨handed de, List.mem_filter.mpr ⟨(hmerged.entries _).mpr ⟨de, rfl, hde⟩,
      decide_eq_true rfl⟩, rfl⟩

end Listings

section Requests

variable (hpriv : Privileged proc) (hdirs : Apart proc dirs) (hm : Mounted proc dirs w)
include hpriv hdirs hm

/-- A request that acts on the copy that is shown, and fails if there is none. -/
theorem agrees_by_copy (path : FusePath) {op : Op} (hop : op.path = path)
    (hseam : Seamless proc dirs w op)
    (hshown : ∀ layer n around, IsCopy proc dirs w path layer →
      w.tree.lookup (layerPlace proc dirs layer ++ path.names) = some n →
      Does w (layerPlace proc dirs layer ++ path.names)
        (act proc.umask around (some (itemOf n)) op) (serve proc dirs w op))
    (hhidden : view proc dirs w path.names = none →
      found proc w (setFpath dirs path.string .upper) = false →
      found proc w (setFpath dirs path.string .lower) = false → ∀ around,
        Does w (layerPlace proc dirs .upper ++ path.names)
          (act proc.umask around none op) (serve proc dirs w op)) :
    Agrees proc dirs w op := by
  subst hop
  rcases shown_cases hpriv hm op.path with ⟨layer, n, hcopy, hn, hview, hlower⟩ | ⟨hview, hu, hl⟩
  · refine agrees_of_does layer hdirs hm hseam ?_ hlower
    rw [viewed, hview]
    exact hshown layer n _ hcopy hn
  · refine agrees_of_does .upper hdirs hm hseam ?_ nofun
    rw [viewed, hview]
    exact hhidden hview hu hl _

/-- `getattr` tells the mode and the size, from the copy that is shown. -/
theorem agrees_getattr (path : FusePath) : Agrees proc dirs w (.getattr path) := by
  refine agrees_by_copy hpriv hdirs hm path rfl trivial ?_ ?_
  · intro layer n around hcopy hn
    obtain ⟨st, hst, hgetattr⟩ := hcopy.getattr hpriv.passable
    refine ⟨?_, turns_same hn⟩
    simp only [serve, answer, hgetattr]
    obtain ⟨ino, mode, kind⟩ := n
    rw [lstatAt, hn] at hst
    cases kind using Kind.cases with
    | dir =>
        obtain rfl := Except.ok.inj hst
        rfl
    | file bytes =>
        obtain rfl := Except.ok.inj hst
        rfl
  · intro _ hu hl around
    exact ⟨outcome_neg (getattr_neg hu hl) _, rfl⟩

/-- `access` tells whether anything is shown. -/
theorem agrees_access (path : FusePath) (mask : Nat) (ret₀ : Int)
    (hseam : Seamless proc dirs w (.access path mask ret₀)) :
    Agrees proc dirs w (.access path mask ret₀) := by
  refine agrees_by_copy hpriv hdirs hm path rfl hseam ?_ ?_
  · intro layer n around hcopy hn
    have hret : myfsAccess proc dirs w path mask ret₀ =
        status (access proc w (setFpath dirs path.string layer) mask) :=
      hcopy.choice hpriv.passable (fun s => status (access proc w s mask)) _
    have hat : accessAt proc w (layerPlace proc dirs layer ++ path.names) mask = .ok () := by
      simp only [accessAt, hn, hpriv n.mode .read, hpriv n.mode .write, hpriv n.mode .search,
        implies_true, and_self, if_true]
    simp only [serve, answer, hret, act, access, hcopy.has.resolve hpriv.passable]
    by_cases hmask : 7 < mask
    · rw [if_pos hmask, if_pos hmask]
      exact ⟨rfl, rfl⟩
    · rw [if_neg hmask, if_neg hmask, ok_bind, hat]
      exact ⟨rfl, turns_same hn⟩
  · intro hview hu hl around
    have hret : myfsAccess proc dirs w path mask ret₀ = unset proc dirs w path ret₀ :=
      choice_neither hu hl (fun s => status (access proc w s mask)) _
    have hnone : act proc.umask around none (.access path mask ret₀) = none := by
      rw [act]
      split <;> rfl
    rw [hnone]
    refine ⟨?_, rfl⟩
    simp only [serve, answer, hret]
    exact outcome_neg ((unset_neg_iff hl).mpr (hseam hview)) _

/-- `open` succeeds on what is shown. -/
theorem agrees_open (path : FusePath) (flags : Flags) (ret₀ : Int)
    (hseam : Seamless proc dirs w (.open path flags ret₀)) :
    Agrees proc dirs w (.open path flags ret₀) := by
  refine agrees_by_copy hpriv hdirs hm path rfl hseam ?_ ?_
  · intro layer n around hcopy hn
    have hret : myfsOpen proc dirs w path flags ret₀ =
        replyOpen w (openFile proc w (some (setFpath dirs path.string layer)) flags 0) :=
      hcopy.choice hpriv.passable (fun s => replyOpen w (openFile proc w (some s) flags 0)) _
    simp only [serve, apply, answer, hret]
    exact openFile_does hpriv hseam.1 (hcopy.has.resolve hpriv.passable) hn flags 0
  · intro hview hu hl around
    have hret : myfsOpen proc dirs w path flags ret₀ =
        (unset proc dirs w path ret₀, if ret₀ = -1 then none else some ret₀, w) :=
      choice_neither hu hl (fun s => replyOpen w (openFile proc w (some s) flags 0)) _
    simp only [serve, apply, answer, hret]
    exact ⟨outcome_neg ((unset_neg_iff hl).mpr (hseam.2 hview)) _, rfl⟩

/-- `read` returns the bytes that are shown. -/
theorem agrees_read (path : FusePath) (size : Nat) (offset : Int) (fiNull : Bool)
    (hseam : Seamless proc dirs w (.read path size offset fiNull)) :
    Agrees proc dirs w (.read path size offset fiNull) := by
  refine agrees_by_copy hpriv hdirs hm path rfl hseam ?_ ?_
  · intro layer n around hcopy hn
    have hread := (hcopy.actsOn hpriv.passable 0 0 0).read size offset fiNull
    simp only [serve, apply, answer, hread]
    exact read_does hpriv hseam hn _ _ path size offset fiNull
  · intro _ hu hl around
    refine ⟨?_, read_tree ..⟩
    exact outcome_neg (((fails_iff hu hl (-1) (-1) (-1)).mpr ⟨rfl, rfl, rfl⟩).read ..) _

/-- `write` changes the copy that is shown. -/
theorem agrees_write (path : FusePath) (data : List UInt8) (offset : Int)
    (hseam : Seamless proc dirs w (.write path data offset)) :
    Agrees proc dirs w (.write path data offset) := by
  refine agrees_by_copy hpriv hdirs hm path rfl hseam ?_ ?_
  · intro layer n around hcopy hn
    have hwrite := (hcopy.actsOn hpriv.passable 0 0 0).write data offset
    simp only [serve, apply, answer, hwrite]
    exact write_does hpriv hseam hn _ _ path data offset
  · intro _ hu hl around
    have hfile : file proc dirs w path = none := choice_neither hu hl some none
    have hwrite : myfsWrite proc dirs w path data offset = (-code .EFAULT, w) := by
      rw [myfsWrite, hfile]
      rfl
    simp only [serve, apply, answer, hwrite]
    exact ⟨rfl, rfl⟩

theorem agrees_truncate (path : FusePath) (size ret₀ : Int)
    (hseam : Seamless proc dirs w (.truncate path size ret₀)) :
    Agrees proc dirs w (.truncate path size ret₀) := by
  refine agrees_by_copy hpriv hdirs hm path rfl hseam ?_ ?_
  · intro layer n around hcopy hn
    have htruncate := (hcopy.actsOn hpriv.passable 0 0 ret₀).truncate size
    simp only [serve, apply, answer, htruncate]
    exact truncate_does hpriv hn _ _ path size ret₀
  · intro hview hu hl around
    have hret : myfsTruncate proc dirs w path size ret₀ = (unset proc dirs w path ret₀, w) :=
      choice_neither hu hl (fun s => reply w (truncate proc w s size)) _
    simp only [serve, apply, answer, hret]
    exact ⟨outcome_neg ((unset_neg_iff hl).mpr (hseam hview)) _, rfl⟩

omit hdirs in
/-- The upper copy is what `unlink`, `mkdir` and `create` act on. -/
theorem resolve_upper {n : Node}
    (hn : w.tree.lookup (layerPlace proc dirs .upper ++ path.names) = some n) :
    resolve proc w.tree (setFpath dirs path.string .upper) =
      .ok (layerPlace proc dirs .upper ++ path.names) :=
  (hm.has_iff.mpr (Option.isSome_of_eq_some hn)).resolve hpriv.passable

/-- `unlink` works in the upper layer, and the lower one has no copy that would show through. -/
theorem agrees_unlink (path : FusePath) (hseam : Seamless proc dirs w (.unlink path)) :
    Agrees proc dirs w (.unlink path) := by
  have hview : view proc dirs w path.names =
      itemAt w (layerPlace proc dirs .upper ++ path.names) := by
    have hlower : itemAt w (layerPlace proc dirs .lower ++ path.names) = none := hseam
    rw [view, hlower, Option.or_none]
  refine agrees_of_does .upper hdirs hm hseam ?_ nofun
  simp only [viewed, Op.path, hview, serve, apply, answer, myfsUnlink]
  cases hn : w.tree.lookup (layerPlace proc dirs .upper ++ path.names) with
  | none =>
      rw [itemAt, hn]
      cases hunlink : unlink proc w (setFpath dirs path.string .upper) with
      | error e => exact ⟨outcome_code e _, rfl⟩
      | ok w' =>
          have hfile := (unlink_spec hunlink).1
          rw [place_setFpath, hn] at hfile
          cases hfile
  | some n =>
      rw [itemAt, hn, unlink, resolve_upper hpriv hm hn, ok_bind]
      obtain ⟨ino, mode, kind⟩ := n
      cases kind using Kind.cases with
      | dir =>
          simp only [unlinkAt, hn]
          exact ⟨rfl, rfl⟩
      | file bytes =>
          obtain ⟨ino', mode', hdir⟩ := dir_of_file hn
          simp only [unlinkAt, hn, hdir, hpriv mode' .write, if_true]
          refine ⟨rfl, turns_unlinked ?_⟩
          rw [hn]
          rfl

omit hpriv hdirs hm in
/-- What the upper layer has, or neither has, is seen there. -/
theorem view_of_not_onlyLower {p : Path} (h : ¬ OnlyLower proc dirs w p) :
    view proc dirs w p = itemAt w (layerPlace proc dirs .upper ++ p) := by
  rw [view]
  cases hu : itemAt w (layerPlace proc dirs .upper ++ p) with
  | some i => rfl
  | none =>
      rw [Option.none_or]
      by_contra hl
      exact h ⟨hu, hl⟩

/-- A request that puts something new into the upper layer. -/
theorem agrees_by_upper (path : FusePath) {op : Op} (hop : op.path = path)
    (hseam : Seamless proc dirs w op)
    (honly : ¬ OnlyLower proc dirs w path.names)
    (hparent : ¬ OnlyLower proc dirs w path.names.dropLast)
    (hthere : ∀ n around, w.tree.lookup (layerPlace proc dirs .upper ++ path.names) = some n →
      resolve proc w.tree (setFpath dirs path.string .upper) =
        .ok (layerPlace proc dirs .upper ++ path.names) →
      Does w (layerPlace proc dirs .upper ++ path.names)
        (act proc.umask around (some (itemOf n)) op) (serve proc dirs w op))
    (hnew : path.names ≠ [] →
      w.tree.lookup (layerPlace proc dirs .upper ++ path.names) = none →
      FileTree.isDir
        (w.tree.lookup (layerPlace proc dirs .upper ++ path.names).dropLast) = true →
      resolve proc w.tree (setFpath dirs path.string .upper) =
        .ok (layerPlace proc dirs .upper ++ path.names) →
      ∀ types, Does w (layerPlace proc dirs .upper ++ path.names)
        (act proc.umask ⟨true, types⟩ none op) (serve proc dirs w op))
    (hnowhere : ∀ e, resolve proc w.tree (setFpath dirs path.string .upper) = .error e →
      ∀ types, Does w (layerPlace proc dirs .upper ++ path.names)
        (act proc.umask ⟨false, types⟩ none op) (serve proc dirs w op)) :
    Agrees proc dirs w op := by
  subst hop
  refine agrees_of_does .upper hdirs hm hseam ?_ nofun
  rw [viewed, view_of_not_onlyLower honly, around, view_of_not_onlyLower hparent, isDir_itemAt]
  cases hn : w.tree.lookup (layerPlace proc dirs .upper ++ op.path.names) with
  | some n =>
      rw [itemAt, hn]
      exact hthere n _ hn (resolve_upper hpriv hm hn)
  | none =>
      rw [itemAt, hn, Option.map_none]
      rcases List.eq_nil_or_concat' op.path.names with hnil | ⟨p, c, hpath⟩
      · -- the root of the mount is always there
        have hroot := hm.isDir .upper
        rw [hnil, List.append_nil] at hn
        rw [hn] at hroot
        cases hroot
      · have hdrop : (layerPlace proc dirs .upper ++ op.path.names).dropLast =
            layerPlace proc dirs .upper ++ op.path.names.dropLast := by
          rw [hpath, ← List.append_assoc, List.dropLast_concat, List.dropLast_concat]
        have hres := resolve_missing .upper hpriv hm hpath
        have hp : op.path.names.dropLast = p := by rw [hpath, List.dropLast_concat]
        rw [← hp] at hres
        split at hres
        · next hdir =>
            rw [hdir]
            refine hnew ?_ hn (hdrop ▸ hdir) hres _
            rw [hpath]
            exact List.append_ne_nil_of_right_ne_nil p (List.cons_ne_nil c [])
        · next hdir =>
            obtain ⟨e, he⟩ := hres
            rw [Bool.eq_false_iff.mpr hdir]
            exact hnowhere e he _

/-- `mkdir` works in the upper layer, which has the parent directory. -/
theorem agrees_mkdir (path : FusePath) (mode : Nat)
    (hseam : Seamless proc dirs w (.mkdir path mode)) :
    Agrees proc dirs w (.mkdir path mode) := by
  refine agrees_by_upper hpriv hdirs hm path rfl hseam hseam.1 hseam.2 ?_ ?_ ?_
  · intro n around hn hres
    simp only [serve_mkdir, mkdir, hres, ok_bind, mkdirAt, hn]
    exact ⟨rfl, rfl⟩
  · intro _ hn hin hres types
    obtain ⟨t', ht', hturns⟩ := addAt_turns hpriv hn hin mode .dir
    simp only [serve_mkdir, mkdir, hres, ok_bind, mkdirAt, hn, ht']
    exact ⟨rfl, hturns⟩
  · intro e hres types
    have hmkdir : mkdir proc w (setFpath dirs path.string .upper) mode = .error e := by
      rw [mkdir, hres]
      rfl
    simp only [serve_mkdir, hmkdir]
    exact ⟨outcome_code e _, rfl⟩

/-- So does `create`, which may also open a file that is there. -/
theorem agrees_create (path : FusePath) (mode : Nat) (flags : Flags)
    (hseam : Seamless proc dirs w (.create path mode flags)) :
    Agrees proc dirs w (.create path mode flags) := by
  obtain ⟨hfree, hfound, honly, hparent⟩ := hseam
  refine agrees_by_upper hpriv hdirs hm path rfl ⟨hfree, hfound, honly, hparent⟩ honly hparent
    ?_ ?_ ?_
  all_goals simp only [serve, apply, answer, myfsCreate, hfound, if_true]
  · intro n around hn hres
    exact openFile_does hpriv hfree hres hn flags mode
  · intro hne hn hin hres types
    obtain ⟨fd, hfd⟩ := Option.isSome_iff_exists.mp hfree
    obtain ⟨t', ht', hturns⟩ := addAt_turns hpriv hn hin mode (.file [])
    have hslash : ((setFpath dirs path.string .upper).getLast? == some '/') = false :=
      beq_eq_false_iff_ne.mpr (getLast?_absolute _ path.proper hne)
    simp only [openFile, hres, openAt, hfd, openNode, hn, hslash, ht', act, Bool.and_true]
    cases flags.creat with
    | false => exact ⟨rfl, rfl⟩
    | true =>
        cases flags.directory with
        | true => exact ⟨rfl, rfl⟩
        | false => exact ⟨rfl, hturns⟩
  · intro e hres types
    have hnone : act proc.umask ⟨false, types⟩ none (.create path mode flags) = none := by
      rw [act, Bool.and_false]
      rfl
    rw [hnone, openFile, hres]
    exact ⟨outcome_code _ _, rfl⟩

/-- `readdir` lists what is shown, each name with its type. -/
theorem agrees_readdir (path : FusePath) (filler : List Filled → Filled → Bool)
    (hseam : Seamless proc dirs w (.readdir path filler)) :
    Agrees proc dirs w (.readdir path filler) := by
  rcases shown_cases hpriv hm path with ⟨layer, n, -, hn, hview, hlower⟩ | ⟨hview, -, -⟩
  · refine agrees_of_does layer hdirs hm hseam ?_ hlower
    have hact : viewed proc dirs w (.readdir path filler) =
        some (some (itemOf n), .listing (listing (view proc dirs w) path.names)) := by
      have hdir := hseam.isDir
      rw [hview] at hdir
      rw [viewed, Op.path, hview, act, if_pos hdir]
      rfl
    rw [hact]
    refine ⟨congrArg Answer.listing (listed_readdir hpriv hm hseam), ?_⟩
    show Turns _ _ w.tree (myfsReaddir proc dirs w path filler).2.2.tree
    rw [readdir_tree]
    exact turns_same hn
  · have hdir := hseam.isDir
    rw [hview] at hdir
    cases hdir

/-- **ONE REQUEST** agrees with the plain file system. -/
theorem agrees (op : Op) (hseam : Seamless proc dirs w op) : Agrees proc dirs w op := by
  cases op with
  | getattr path => exact agrees_getattr hpriv hdirs hm path
  | access path mask ret₀ => exact agrees_access hpriv hdirs hm path mask ret₀ hseam
  | readdir path filler => exact agrees_readdir hpriv hdirs hm path filler hseam
  | create path mode flags => exact agrees_create hpriv hdirs hm path mode flags hseam
  | «open» path flags ret₀ => exact agrees_open hpriv hdirs hm path flags ret₀ hseam
  | read path size offset fiNull => exact agrees_read hpriv hdirs hm path size offset fiNull hseam
  | write path data offset => exact agrees_write hpriv hdirs hm path data offset hseam
  | unlink path => exact agrees_unlink hpriv hdirs hm path hseam
  | mkdir path mode => exact agrees_mkdir hpriv hdirs hm path mode hseam
  | truncate path size ret₀ => exact agrees_truncate hpriv hdirs hm path size ret₀ hseam

/-- **EVERY SEQUENCE OF REQUESTS** gets the answers of the plain file system, and leaves a
    mount that shows what the plain file system holds. -/
theorem agrees_throughout {ops : List Op}
    (hseam : Throughout (serve proc dirs) (Seamless proc dirs) w ops) :
    (specRun (serve proc dirs) w ops).2 =
        (specRun (plain proc.umask) (view proc dirs w) ops).2 ∧
      Mounted proc dirs (specRun (serve proc dirs) w ops).1 ∧
      view proc dirs (specRun (serve proc dirs) w ops).1 =
        (specRun (plain proc.umask) (view proc dirs w) ops).1 := by
  refine specRun_refines (I := fun w files => Mounted proc dirs w ∧ view proc dirs w = files)
    (fun w files op ⟨hm, hview⟩ hop => ?_) ⟨hm, rfl⟩ hseam
  obtain ⟨hanswer, hviews, hmounted⟩ := agrees hpriv hdirs hm op hop
  rw [hview] at hanswer hviews
  exact ⟨hanswer, hmounted, hviews⟩

end Requests

theorem mounted_oneFile : Mounted anyone twoDirs oneFile :=
  ⟨fun layer => by cases layer <;> decide +kernel, fun layer => by cases layer <;> decide +kernel⟩

theorem proper_in_d : ∀ c ∈ [['d'], ['g']], Proper c := by decide

/-- `/d/g` -/
def innerFile : FusePath := ⟨[['d'], ['g']], proper_in_d⟩

/-- The lower file is written to, a directory and a file in it are made, written, cut and
    read, the root and the directory are listed, and the file is removed. -/
def session : List Op :=
  [.write lowerFile [7, 8] 1, .mkdir directory 0o755,
    .create innerFile 0o644 { acc := .rdwr, creat := true }, .write innerFile [1, 2, 3] 0,
    .truncate innerFile 2 0, .read innerFile 9 0 false, .readdir rootPath fun _ _ => false,
    .readdir directory fun _ _ => false, .unlink innerFile, .getattr innerFile,
    .read lowerFile 2 1 false]

/-- The bytes of an answer, and the types with which it lists `f` and `g`. -/
def Answer.shows : Answer → List UInt8 × List Nat × List Nat
  | .data bytes => (bytes, [], [])
  | .listing types => ([], types ['f'], types ['g'])
  | _ => ([], [], [])

/-- A request leaves other paths alone. -/
theorem plain_elsewhere (umask : Nat) (files : Files) {op : Op} {p : Path}
    (hp : p ≠ op.path.names) : (plain umask files op).1 p = files p := by
  rw [plain]
  split
  · rfl
  · exact Function.update_of_ne hp _ _

theorem specRun_elsewhere (umask : Nat) (files : Files) {ops : List Op} {p : Path}
    (hops : ∀ op ∈ ops, op.path.names ≠ p) :
    (specRun (plain umask) files ops).1 p = files p := by
  induction ops generalizing files with
  | nil => rfl
  | cons op ops ih =>
      have hrest := ih (plain umask files op).1 fun op' hop' =>
        hops op' (List.mem_cons_of_mem op hop')
      exact hrest.trans (plain_elsewhere umask files (hops op List.mem_cons_self).symm)

/-- The bytes written stand where they were written. -/
theorem take_drop_overwrite (bytes data : List UInt8) (offset : Nat) :
    ((overwrite bytes offset data).drop offset).take data.length = data := by
  have hlength : (bytes.take offset ++ List.replicate (offset - bytes.length) (0 : UInt8)).length =
      offset := by
    rw [List.length_append, List.length_take, List.length_replicate]
    omega
  rw [overwrite, List.append_assoc (_ ++ _) data, List.drop_left' hlength, List.take_left]

/-- What a successful write leaves at its path. -/
theorem written {umask : Nat} {files : Files} {path : FusePath} {data : List UInt8} {offset : Int}
    {n : Nat} (h : (plain umask files (.write path data offset)).2 = .moved n) :
    0 ≤ offset ∧ n = (data.take maxTransfer).length ∧ ∃ mode bytes,
      (plain umask files (.write path data offset)).1 path.names = some ⟨mode, .file bytes⟩ ∧
      (bytes.drop offset.toNat).take n = data.take n := by
  simp only [plain, Op.path, act] at h ⊢
  cases hitem : files path.names with
  | none =>
      simp only [hitem] at h
      cases h
  | some i =>
      obtain ⟨mode, kind⟩ := i
      cases kind using Kind.cases with
      | dir =>
          simp only [hitem] at h
          cases h
      | file bytes =>
          simp only [hitem] at h ⊢
          by_cases hoff : offset < 0
          · rw [if_pos hoff] at h
            cases h
          · rw [if_neg hoff] at h ⊢
            obtain rfl := Answer.moved.inj h
            refine ⟨Int.not_lt.mp hoff, rfl, mode, _, Function.update_self .., ?_⟩
            have htake : data.take (data.take maxTransfer).length = data.take maxTransfer := by
              rw [List.length_take, ← List.take_take, List.take_length]
            rw [htake]
            by_cases hmoved : data.take maxTransfer = []
            · rw [hmoved, List.length_nil, List.take_zero]
            · rw [if_neg hmoved]
              exact take_drop_overwrite bytes _ _

/-- What `read` returns of a file. -/
theorem plain_read {umask : Nat} {files : Files} {path : FusePath} {mode size : Nat}
    {bytes : List UInt8} {offset : Int} {fiNull : Bool}
    (h : files path.names = some ⟨mode, .file bytes⟩) (hoffset : 0 ≤ offset) :
    (plain umask files (.read path size offset fiNull)).2 =
      .data ((bytes.drop offset.toNat).take (min size maxTransfer)) := by
  simp only [plain, Op.path, h, act, if_neg (Int.not_lt.mpr hoffset)]

/-- A `read` returns the number of bytes it stores. -/
theorem read_length {path : FusePath} {size : Nat} {offset : Int} {fiNull : Bool}
    (h : 0 ≤ (myfsRead proc dirs w path size offset fiNull).1) :
    (myfsRead proc dirs w path size offset fiNull).1 =
      (myfsRead proc dirs w path size offset fiNull).2.1.length := by
  have hneg (e : Errno) : ¬ 0 ≤ -code e := Int.not_le.mpr (neg_code e)
  simp only [myfsRead] at h ⊢
  cases hopen : openFile proc w (file proc dirs w path) rdonly 0 with
  | error e =>
      simp only [hopen, readOpened] at h
      exact absurd h (hneg e)
  | ok r =>
      simp only [hopen, readOpened] at h ⊢
      cases hread : pread r.2 r.1 size offset with
      | error e =>
          simp only [hread] at h
          exact absurd h (hneg e)
      | ok bytes => rfl

theorem outcome_eq_data {ret : Int} {bytes bytes' : List UInt8}
    (h : outcome ret (.data bytes) = .data bytes') : 0 ≤ ret ∧ bytes = bytes' := by
  rw [outcome] at h
  split at h
  · cases h
  · next hret => exact ⟨Int.not_lt.mp hret, Answer.data.inj h⟩

end Overlay
