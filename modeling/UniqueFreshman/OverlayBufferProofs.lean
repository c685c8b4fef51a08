import UniqueFreshman.CallSequenceProofs
import UniqueFreshman.CStringProofs
import UniqueFreshman.OverlayListingProofs

/-! # The overlay file system — the path buffers

    `set_fpath` copies the directory of a layer into the global `fpath` and then
    the path behind it, each time with `strncpy` and the bound `PATH_MAX`.  The
    second copy starts behind the directory and still writes `PATH_MAX` bytes, so
    that it ends behind the buffer by the length of the directory.

    The model has the bytes of the four buffers in a flat memory, in any places
    that do not overlap (`Layout`); `PATH_MAX` is a parameter, since the header's
    256 may be defined anew by the system's headers.  `calls` are the pieces of
    code that work on the buffers, in the order in which a request runs them. -/

namespace Overlay

open FileTree FileCalls CString CallSequence

inductive Buffer where
  | lowerDirPath | upperDirPath | fpath | filePath
deriving DecidableEq

def Layer.buffer : Layer → Buffer
  | .lower => .lowerDirPath
  | .upper => .upperDirPath

/-- Where the buffers are: `pathMax` bytes each, which do not overlap. -/
structure Layout where
  pathMax : Nat
  base : Buffer → Nat
  apart : ∀ b b' i j, b ≠ b' → i < pathMax → j < pathMax → base b + i ≠ base b' + j

section Calls

variable (L : Layout) (m : Memory)

/-- The string in a buffer. -/
def Layout.string (b : Buffer) : List Char := cstr m (L.base b) L.pathMax

/-- What `set_fpath` writes. -/
def setFpathWrites (path : List Char) (layer : Layer) : List (Write Buffer) :=
  let ws := strncpy .fpath 0 (L.string m layer.buffer) L.pathMax
  let m := store L.base m ws
  ws ++ strncpy .fpath (L.string m .fpath).length path L.pathMax

/-- The loop of `create` that ends `fpath`, which is `s`, at its last slash before `i`. -/
def cutWrites (s : List Char) : Nat → List (Write Buffer)
  | 0 => []
  | i + 1 => if s.getD i nul = '/' then [⟨.fpath, i, nul⟩] else cutWrites s i

/-- The pieces of code that work on the buffers: `set_fpath`; the strings `readdir` builds for
    an entry of the lower directory; and the string of the directory in `create`. -/
inductive Call where
  | setFpath (path : FusePath) (layer : Layer)
  | entryPath (path : FusePath) (name : Name)
  | parentPath (path : FusePath)

def Call.writes : Call → List (Write Buffer)
  | .setFpath path layer => setFpathWrites L m path.string layer
  | .entryPath path name =>
      let ws := setFpathWrites L m path.string .upper
      let m := store L.base m ws
      let ws' := strncpy .filePath 0 (L.string m .fpath) L.pathMax
      let m := store L.base m ws'
      ws ++ (ws' ++ strncpy .filePath (L.string m .filePath).length name (name.length + 1))
  | .parentPath path =>
      let ws := setFpathWrites L m path.string .upper
      let s := L.string (store L.base m ws) .fpath
      ws ++ cutWrites s s.length

def bufferCall (call : Call) : Memory × Unit := (store L.base m (call.writes L m), ())

end Calls

def Call.path : Call → FusePath
  | .setFpath path _ | .entryPath path _ | .parentPath path => path

/-- The buffers a call may write to; the last one has the string it builds. -/
def Call.buffers : Call → List Buffer
  | .setFpath .. | .parentPath _ => [.fpath]
  | .entryPath .. => [.fpath, .filePath]

def Call.buffer : Call → Buffer
  | .setFpath .. | .parentPath _ => .fpath
  | .entryPath .. => .filePath

/-- The string a call is to build. -/
def Call.string (dirs : Dirs) : Call → List Char
  | .setFpath path layer => Overlay.setFpath dirs path.string layer
  | .entryPath path name => Overlay.setFpath dirs path.string .upper ++ name
  | .parentPath path => cutLast (Overlay.setFpath dirs path.string .upper)

/-! ## The calls of a request -/

section Requests

variable (proc : Process) (dirs : Dirs) (w : World)

/-- Most operations look for the path in the upper layer and then in the lower one. -/
def lookups (path : FusePath) : List Call :=
  .setFpath path .upper ::
    if found proc w (setFpath dirs path.string .upper) then [] else [.setFpath path .lower]

/-- The entries `readdir` gets to before its filler asks to stop. -/
def visited (filler : List Filled → Filled → Bool) (keep : Dirent → Bool)
    (passed : List Filled) : List Dirent → List Dirent
  | [] => []
  | de :: des =>
      de :: if keep de then
          if filler passed (handed de) then []
          else visited filler keep (passed ++ [handed de]) des
        else visited filler keep passed des

def calls : Op → List Call
  | .getattr path | .access path .. | .open path .. | .read path .. | .write path ..
  | .truncate path .. => lookups proc dirs w path
  | .unlink path | .mkdir path _ => [.setFpath path .upper]
  | .create path .. =>
      .parentPath path ::
        if found proc w (cutLast (setFpath dirs path.string .upper)) then [.setFpath path .upper]
        else []
  | .readdir path filler =>
      let des := visited filler (unseen proc dirs w path) [] (stream proc dirs w path .lower)
      .setFpath path .lower ::
        (des.map fun de => .entryPath path de.name) ++ [.setFpath path .upper]

/-- The calls of a sequence of requests. -/
def trace (ops : List Op) : List Call :=
  (specRun (fun w op => (apply proc dirs w op, calls proc dirs w op)) w ops).2.flatten

end Requests

/-! ## Calls that stay in their buffers -/

/-- The call writes to its buffers only, builds its string, and leaves the directories of the
    layers alone. -/
structure StaysInBuffers (L : Layout) (dirs : Dirs) (m : Memory) (call : Call) : Prop where
  within : ∀ w ∈ call.writes L m, w.buffer ∈ call.buffers ∧ w.offset < L.pathMax
  string : L.string (bufferCall L m call).1 call.buffer = call.string dirs
  kept : ∀ (layer : Layer) i, i < L.pathMax →
    (bufferCall L m call).1 (L.base layer.buffer + i) = m (L.base layer.buffer + i)

/-- The directories of the layers are in their buffers. -/
def Configured (L : Layout) (dirs : Dirs) (m : Memory) : Prop :=
  ∀ layer, Holds m (L.base layer.buffer) (dirs.of layer)

/-- The strings are C strings, and the directories followed by the path fit. -/
structure Legal (L : Layout) (dirs : Dirs) (call : Call) : Prop where
  dir : ∀ layer, nul ∉ dirs.of layer
  path : nul ∉ call.path.string
  name : ∀ path name, call = .entryPath path name → nul ∉ name
  length : ∀ layer, (setFpath dirs call.path.string layer).length < L.pathMax

/-- There is room: nothing stands in front of the path, and behind it there is room for the
    name of an entry. -/
def Call.Fits (L : Layout) (dirs : Dirs) : Call → Prop
  | .setFpath _ layer => dirs.of layer = []
  | .entryPath path name => dirs.upper = [] ∧ path.string.length + name.length < L.pathMax
  | .parentPath _ => dirs.upper = []

instance (L : Layout) (dirs : Dirs) : (call : Call) → Decidable (call.Fits L dirs)
  | .setFpath _ layer => inferInstanceAs (Decidable (dirs.of layer = []))
  | .entryPath _ _ => inferInstanceAs (Decidable (_ ∧ _))
  | .parentPath _ => inferInstanceAs (Decidable (dirs.upper = []))

variable {L : Layout} {dirs : Dirs} {m : Memory} {call : Call} {path : FusePath} {layer : Layer}

/-- Writes to the path buffers leave the directories alone. -/
theorem kept_of_within {ws : List (Write Buffer)}
    (h : ∀ w ∈ ws, w.buffer ∈ [Buffer.fpath, .filePath] ∧ w.offset < L.pathMax) (layer : Layer)
    {i : Nat} (hi : i < L.pathMax) :
    store L.base m ws (L.base layer.buffer + i) = m (L.base layer.buffer + i) := by
  refine store_of_ne fun w hw => ?_
  obtain ⟨hbuffer, hoffset⟩ := h w hw
  refine L.apart w.buffer layer.buffer w.offset i ?_ hoffset hi
  intro heq
  rw [heq] at hbuffer
  cases layer with
  | lower => exact absurd hbuffer (by decide)
  | upper => exact absurd hbuffer (by decide)

/-- No call is meant to write to a buffer of a layer directory. -/
theorem Call.buffers_subset (call : Call) : call.buffers ⊆ [.fpath, .filePath] := by
  cases call with
  | setFpath path layer => exact List.cons_subset_cons _ (List.nil_subset _)
  | entryPath path name => exact List.Subset.refl _
  | parentPath path => exact List.cons_subset_cons _ (List.nil_subset _)

/-! ### `set_fpath` -/

section SetFpath

variable (hm : Configured L dirs m) (hdir : nul ∉ dirs.of layer)
  (hlen : (setFpath dirs path.string layer).length < L.pathMax)
include hm hdir hlen

/-- **WHAT `set_fpath` WRITES**: the directory from the start of `fpath`, and the path from the
    end of the directory, `PATH_MAX` bytes each. -/
theorem setFpathWrites_eq :
    setFpathWrites L m path.string layer =
      strncpy .fpath 0 (dirs.of layer) L.pathMax ++
        strncpy .fpath (dirs.of layer).length path.string L.pathMax := by
  have hdirLen : (dirs.of layer).length < L.pathMax := by
    rw [setFpath, List.length_append] at hlen
    omega
  have hsource : L.string m layer.buffer = dirs.of layer := cstr_of_holds (hm layer) hdir hdirLen
  have hcopy : L.string (store L.base m (strncpy .fpath 0 (dirs.of layer) L.pathMax)) .fpath =
      dirs.of layer := cstr_of_holds (holds_strncpy hdirLen) hdir hdirLen
  simp only [setFpathWrites, hsource, hcopy]

/-- The path is right, whatever else is overwritten. -/
theorem holds_setFpath :
    Holds (store L.base m (setFpathWrites L m path.string layer)) (L.base .fpath)
      (setFpath dirs path.string layer) := by
  rw [setFpathWrites_eq hm hdir hlen, store_append]
  rw [setFpath, List.length_append] at hlen
  exact holds_append (holds_strncpy (by omega)) (by omega)

/-- The second copy leaves the buffer by the length of the directory. -/
theorem setFpathWrites_within :
    (∀ w ∈ setFpathWrites L m path.string layer, w.offset < L.pathMax) ↔ dirs.of layer = [] := by
  have hpos : 0 < L.pathMax := by omega
  rw [setFpathWrites_eq hm hdir hlen]
  simp only [List.forall_mem_append, strncpy_within]
  rw [← List.length_eq_zero_iff]
  omega

/-- Behind the path the second copy writes zeros, in the buffer and behind it. -/
theorem setFpath_pads {i : Nat} (hpath : path.string.length ≤ i) (hi : i < L.pathMax) :
    (bufferCall L m (.setFpath path layer)).1
      (L.base .fpath + ((dirs.of layer).length + i)) = nul := by
  show store L.base m (setFpathWrites L m path.string layer) _ = nul
  rw [setFpathWrites_eq hm hdir hlen, store_append, store_strncpy hi]
  exact List.getD_eq_default _ _ hpath

end SetFpath

theorem setFpathWrites_buffer {s : List Char} {w : Write Buffer}
    (h : w ∈ setFpathWrites L m s layer) : w.buffer = .fpath := by
  rcases List.mem_append.mp h with h | h
  · obtain ⟨i, -, rfl⟩ := mem_strncpy.mp h
    rfl
  · obtain ⟨i, -, rfl⟩ := mem_strncpy.mp h
    rfl

/-! ### The directory in `create` -/

/-- The last slash is looked for from the end. -/
theorem cutLast_concat (s : List Char) (c : Char) :
    cutLast (s ++ [c]) = if c = '/' then s else if '/' ∈ s then cutLast s else s ++ [c] := by
  rw [cutLast]
  by_cases hc : c = '/'
  · subst hc
    rw [if_pos rfl, if_pos (by simp)]
    simp
  · have hmem : '/' ∈ s ++ [c] ↔ '/' ∈ s := by simp [Ne.symm hc]
    rw [if_neg hc]
    by_cases hs : '/' ∈ s
    · rw [if_pos (hmem.mpr hs), if_pos hs, cutLast, if_pos hs]
      simp [hc]
    · rw [if_neg (mt hmem.mp hs), if_neg hs]

/-- The string up to its last slash is the start of the string. -/
theorem prefix_cutLast (s : List Char) : cutLast s <+: s := by
  induction s using List.reverseRecOn with
  | nil => exact List.prefix_refl _
  | append_singleton s c ih =>
      rw [cutLast_concat]
      split
      · exact List.prefix_append s [c]
      · split
        · exact ih.trans (List.prefix_append s [c])
        · exact List.prefix_refl _

/-- **THE LOOP OF `create`** writes a terminator to where the string up to its last slash ends. -/
theorem cutWrites_append (s t : List Char) :
    cutWrites (s ++ t) s.length =
      if '/' ∈ s then [⟨.fpath, (cutLast s).length, nul⟩] else [] := by
  induction s using List.reverseRecOn generalizing t with
  | nil => rfl
  | append_singleton s c ih =>
      have hget : (s ++ [c] ++ t).getD s.length nul = c := by
        rw [List.append_assoc, List.getD_append_right _ _ _ _ (Nat.le_refl _), Nat.sub_self]
        rfl
      rw [List.length_append, List.length_singleton, cutWrites, hget, cutLast_concat]
      by_cases hc : c = '/'
      · rw [if_pos hc, if_pos hc, if_pos (by rw [hc]; simp)]
      · have hmem : '/' ∈ s ++ [c] ↔ '/' ∈ s := by simp [Ne.symm hc]
        rw [if_neg hc, if_neg hc, List.append_assoc, ih]
        by_cases hs : '/' ∈ s
        · rw [if_pos hs, if_pos (hmem.mpr hs), if_pos hs]
        · rw [if_neg hs, if_neg (mt hmem.mp hs)]

/-- One byte is written, over the last slash. -/
theorem cutWrites_eq (s : List Char) :
    cutWrites s s.length = if '/' ∈ s then [⟨.fpath, (cutLast s).length, nul⟩] else [] := by
  have h := cutWrites_append s []
  rw [List.append_nil] at h
  exact h

/-- What is left is the directory. -/
theorem holds_cut {s : List Char} (hs : Holds m (L.base .fpath) s) :
    Holds (store L.base m (cutWrites s s.length)) (L.base .fpath) (cutLast s) := by
  rw [cutWrites_eq]
  by_cases hslash : '/' ∈ s
  · have hstart := prefix_cutLast s
    rw [if_pos hslash]
    show Holds (Function.update m (L.base .fpath + (cutLast s).length) nul) _ _
    have h := holds_take hs hstart.length_le
    rw [← List.prefix_iff_eq_take.mp hstart] at h
    exact h
  · rw [if_neg hslash, cutLast, if_neg hslash]
    exact hs

/-- That byte is inside of the path. -/
theorem cutWrites_within {s : List Char} (hs : s.length < L.pathMax) :
    ∀ w ∈ cutWrites s s.length, w.buffer = .fpath ∧ w.offset < L.pathMax := by
  have hle := (prefix_cutLast s).length_le
  intro w hw
  rw [cutWrites_eq] at hw
  split at hw
  · rw [List.mem_singleton.mp hw]
    exact ⟨rfl, by simp only; omega⟩
  · cases hw

/-! ### One call -/

/-- A call stays in its buffers if its writes do and the path comes out right. -/
theorem staysInBuffers_of (hwithin : ∀ w ∈ call.writes L m,
      w.buffer ∈ call.buffers ∧ w.offset < L.pathMax)
    (hholds : Holds (bufferCall L m call).1 (L.base call.buffer) (call.string dirs))
    (hnul : nul ∉ call.string dirs) (hlen : (call.string dirs).length < L.pathMax) :
    StaysInBuffers L dirs m call where
  within := hwithin
  string := cstr_of_holds hholds hnul hlen
  kept layer _ hi := kept_of_within
    (fun w hw => ⟨call.buffers_subset (hwithin w hw).1, (hwithin w hw).2⟩) layer hi

theorem Legal.nul_not_mem (h : Legal L dirs call) (layer : Layer) :
    nul ∉ setFpath dirs call.path.string layer := by
  rw [setFpath, List.mem_append, not_or]
  exact ⟨h.dir layer, h.path⟩

/-- **`set_fpath` OVERRUNS** by the length of the layer directory. -/
theorem setFpath_stays_iff (hm : Configured L dirs m)
    (hlegal : Legal L dirs (.setFpath path layer)) :
    StaysInBuffers L dirs m (.setFpath path layer) ↔ dirs.of layer = [] := by
  have hwithin := setFpathWrites_within hm (hlegal.dir layer) (hlegal.length layer)
  constructor
  · intro h
    exact hwithin.mp fun w hw => (h.within w hw).2
  · intro hdir
    refine staysInBuffers_of (fun w hw => ?_)
      (holds_setFpath hm (hlegal.dir layer) (hlegal.length layer)) (hlegal.nul_not_mem layer)
      (hlegal.length layer)
    exact ⟨List.mem_singleton.mpr (setFpathWrites_buffer hw), hwithin.mpr hdir w hw⟩

/-- `create` adds nothing to that. -/
theorem parentPath_stays_iff (hm : Configured L dirs m)
    (hlegal : Legal L dirs (.parentPath path)) :
    StaysInBuffers L dirs m (.parentPath path) ↔ dirs.upper = [] := by
  have hlen : (setFpath dirs path.string .upper).length < L.pathMax := hlegal.length .upper
  have hnul : nul ∉ setFpath dirs path.string .upper := hlegal.nul_not_mem .upper
  have hwithin := setFpathWrites_within hm (hlegal.dir .upper) hlen
  have hholds := holds_setFpath hm (hlegal.dir .upper) hlen
  have hwrites : (Call.parentPath path).writes L m = setFpathWrites L m path.string .upper ++
      cutWrites (setFpath dirs path.string .upper) (setFpath dirs path.string .upper).length := by
    have hstring : L.string (store L.base m (setFpathWrites L m path.string .upper)) .fpath =
        setFpath dirs path.string .upper := cstr_of_holds hholds hnul hlen
    simp only [Call.writes, hstring]
  have hstart := prefix_cutLast (setFpath dirs path.string .upper)
  constructor
  · intro h
    refine hwithin.mp fun w hw => (h.within w ?_).2
    rw [hwrites]
    exact List.mem_append_left _ hw
  · intro hdir
    refine staysInBuffers_of (fun w hw => ?_) ?_ (fun hc => hnul (hstart.subset hc))
      (Nat.lt_of_le_of_lt hstart.length_le hlen)
    · rw [hwrites] at hw
      rcases List.mem_append.mp hw with hw | hw
      · exact ⟨List.mem_singleton.mpr (setFpathWrites_buffer hw), hwithin.mpr hdir w hw⟩
      · obtain ⟨hbuffer, hoffset⟩ := cutWrites_within hlen w hw
        exact ⟨List.mem_singleton.mpr hbuffer, hoffset⟩
    · rw [bufferCall, hwrites, store_append]
      exact holds_cut hholds

/-- `readdir` appends a name, and that has to fit as well. -/
theorem entryPath_stays_iff {name : Name} (hm : Configured L dirs m)
    (hlegal : Legal L dirs (.entryPath path name)) :
    StaysInBuffers L dirs m (.entryPath path name) ↔
      dirs.upper = [] ∧ path.string.length + name.length < L.pathMax := by
  have hlen : (setFpath dirs path.string .upper).length < L.pathMax := hlegal.length .upper
  have hnul : nul ∉ setFpath dirs path.string .upper := hlegal.nul_not_mem .upper
  have hname := hlegal.name path name rfl
  have hholds := holds_setFpath hm (hlegal.dir .upper) hlen
  have hwrites : (Call.entryPath path name).writes L m = setFpathWrites L m path.string .upper ++
      (strncpy .filePath 0 (setFpath dirs path.string .upper) L.pathMax ++
        strncpy .filePath (setFpath dirs path.string .upper).length name (name.length + 1)) := by
    have hstring : L.string (store L.base m (setFpathWrites L m path.string .upper)) .fpath =
        setFpath dirs path.string .upper := cstr_of_holds hholds hnul hlen
    have hcopy (m : Memory) : L.string (store L.base m (strncpy .filePath 0
        (setFpath dirs path.string .upper) L.pathMax)) .filePath =
        setFpath dirs path.string .upper := cstr_of_holds (holds_strncpy hlen) hnul hlen
    simp only [Call.writes, hstring, hcopy]
  have hwithin : (∀ w ∈ (Call.entryPath path name).writes L m, w.offset < L.pathMax) ↔
      dirs.upper = [] ∧ path.string.length + name.length < L.pathMax := by
    rw [hwrites]
    simp only [List.forall_mem_append, strncpy_within]
    rw [setFpathWrites_within hm (hlegal.dir .upper) hlen]
    refine and_congr_right fun hdir => ?_
    have hlen' : (setFpath dirs path.string .upper).length = path.string.length := by
      rw [setFpath, hdir, List.nil_append]
    omega
  constructor
  · intro h
    exact hwithin.mp fun w hw => (h.within w hw).2
  · intro hfits
    have hlen' : (setFpath dirs path.string .upper ++ name).length < L.pathMax := by
      rw [setFpath, Dirs.of, hfits.1, List.nil_append, List.length_append]
      exact hfits.2
    refine staysInBuffers_of (fun w hw => ⟨?_, hwithin.mpr hfits w hw⟩) ?_ ?_ hlen'
    · rw [hwrites] at hw
      rcases List.mem_append.mp hw with hw | hw
      · rw [setFpathWrites_buffer hw]
        exact List.mem_cons_self
      · rcases List.mem_append.mp hw with hw | hw
        · obtain ⟨i, -, rfl⟩ := mem_strncpy.mp hw
          exact List.mem_cons_of_mem _ (List.mem_singleton.mpr rfl)
        · obtain ⟨i, -, rfl⟩ := mem_strncpy.mp hw
          exact List.mem_cons_of_mem _ (List.mem_singleton.mpr rfl)
    · rw [bufferCall, hwrites, store_append, store_append]
      exact holds_append (holds_strncpy hlen) (Nat.lt_succ_self _)
    · rw [Call.string, List.mem_append, not_or]
      exact ⟨hnul, hname⟩

/-- **ONE CALL** stays in its buffers just when it fits. -/
theorem staysInBuffers_iff (hm : Configured L dirs m) (hlegal : Legal L dirs call) :
    StaysInBuffers L dirs m call ↔ call.Fits L dirs := by
  cases call with
  | setFpath path layer => exact setFpath_stays_iff hm hlegal
  | entryPath path name => exact entryPath_stays_iff hm hlegal
  | parentPath path => exact parentPath_stays_iff hm hlegal

/-! ### Sequences of calls -/

/-- The directories are still there after such a call. -/
theorem StaysInBuffers.configured (h : StaysInBuffers L dirs m call) (hm : Configured L dirs m)
    (hlegal : Legal L dirs call) : Configured L dirs (bufferCall L m call).1 := by
  intro layer i hi
  have hlen := hlegal.length layer
  rw [setFpath, List.length_append] at hlen
  rw [h.kept layer i (by omega)]
  exact hm layer i hi

/-- A sequence of calls, by induction: calls that stay in their buffers leave the directories as
    they are. -/
theorem stay_iff_fit {cs : List Call} (hm : Configured L dirs m)
    (hlegal : ∀ call ∈ cs, Legal L dirs call) :
    Throughout (bufferCall L) (StaysInBuffers L dirs) m cs ↔ ∀ call ∈ cs, call.Fits L dirs := by
  induction cs generalizing m with
  | nil => exact ⟨fun _ => nofun, fun _ => trivial⟩
  | cons call cs ih =>
      have hcall := hlegal call List.mem_cons_self
      have hrest : ∀ call ∈ cs, Legal L dirs call :=
        fun c hc => hlegal c (List.mem_cons_of_mem call hc)
      show StaysInBuffers L dirs m call ∧ Throughout _ _ (bufferCall L m call).1 cs ↔ _
      rw [List.forall_mem_cons, ← staysInBuffers_iff hm hcall]
      exact and_congr_right fun h => ih (h.configured hm hcall) hrest

/-! ## Sequences of requests -/

variable {proc : Process} {w : World}

/-- The calls of a request are about its path. -/
theorem path_of_mem_calls {op : Op} (h : call ∈ calls proc dirs w op) : call.path = op.path := by
  have hlookups {path : FusePath} (h : call ∈ lookups proc dirs w path) : call.path = path := by
    rcases List.mem_cons.mp h with rfl | h
    · rfl
    · split at h
      · cases h
      · rw [List.mem_singleton.mp h]
        rfl
  cases op with
  | getattr path => exact hlookups h
  | access path mask ret₀ => exact hlookups h
  | readdir path filler =>
      rcases List.mem_append.mp h with h | h
      · rcases List.mem_cons.mp h with rfl | h
        · rfl
        · obtain ⟨de, -, rfl⟩ := List.mem_map.mp h
          rfl
      · rw [List.mem_singleton.mp h]
        rfl
  | create path mode flags =>
      rcases List.mem_cons.mp h with rfl | h
      · rfl
      · split at h
        · rw [List.mem_singleton.mp h]
          rfl
        · cases h
  | «open» path flags ret₀ => exact hlookups h
  | read path size offset fiNull => exact hlookups h
  | write path data offset => exact hlookups h
  | unlink path =>
      rw [List.mem_singleton.mp h]
      rfl
  | mkdir path mode =>
      rw [List.mem_singleton.mp h]
      rfl
  | truncate path size ret₀ => exact hlookups h

/-- Every call of a sequence is about the path of one of its requests. -/
theorem path_of_mem_trace {ops : List Op} (h : call ∈ trace proc dirs w ops) :
    ∃ op ∈ ops, call.path = op.path := by
  induction ops generalizing w with
  | nil => cases h
  | cons op ops ih =>
      have htrace : trace proc dirs w (op :: ops) =
          calls proc dirs w op ++ trace proc dirs (apply proc dirs w op) ops := List.flatten_cons
      rw [htrace] at h
      rcases List.mem_append.mp h with h | h
      · exact ⟨op, List.mem_cons_self, path_of_mem_calls h⟩
      · obtain ⟨op', hop', hpath⟩ := ih h
        exact ⟨op', List.mem_cons_of_mem op hop', hpath⟩

/-- **THE PATH BUFFERS.**  Over a sequence of requests with C strings, whose paths fit behind
    the directories of the layers, every call stays in its buffers just when every directory a
    call copies is the empty string, and the name of every entry fits behind the path. -/
theorem buffers_kept_iff (L : Layout) (proc : Process) (dirs : Dirs) (w : World) (ops : List Op)
    (m : Memory) (hm : Configured L dirs m) (hdirs : ∀ layer, nul ∉ dirs.of layer)
    (hpaths : ∀ op ∈ ops, nul ∉ op.path.string ∧
      ∀ layer, (setFpath dirs op.path.string layer).length < L.pathMax)
    (hnames : ∀ path name, .entryPath path name ∈ trace proc dirs w ops → nul ∉ name) :
    Throughout (bufferCall L) (StaysInBuffers L dirs) m (trace proc dirs w ops) ↔
      ∀ call ∈ trace proc dirs w ops, call.Fits L dirs := by
  refine stay_iff_fit hm fun call hcall => ?_
  obtain ⟨op, hop, hpath⟩ := path_of_mem_trace hcall
  obtain ⟨hnul, hlen⟩ := hpaths op hop
  refine ⟨hdirs, hpath ▸ hnul, fun path name heq => ?_, hpath ▸ hlen⟩
  exact hnames path name (heq ▸ hcall)

/-- Four buffers of 256 bytes in a row, with `upper_dir_path` behind `fpath`. -/
def inARow : Layout where
  pathMax := 256
  base
    | .filePath => 0
    | .fpath => 256
    | .upperDirPath => 512
    | .lowerDirPath => 768
  apart b b' i j hne hi hj := by
    cases b <;> cases b' <;> first | exact absurd rfl hne | (simp only; omega)

/-- The root of the file system as both layers. -/
def noDirs : Dirs := ⟨[], []⟩

/-- A file is looked for, another one is to be made, and the root is listed. -/
def threeRequests : List Op :=
  [.getattr lowerFile, .create missingFile 0o644 { acc := .wronly, creat := true },
    .readdir rootPath fun _ _ => false]

/-- Three requests with empty layer directories, nine calls. -/
theorem buffers_kept_of_no_dirs :
    (trace anyone noDirs oneFile threeRequests).length = 9 ∧
      Throughout (bufferCall inARow) (StaysInBuffers inARow noDirs) (fun _ => nul)
        (trace anyone noDirs oneFile threeRequests) := by
  have hnames : ∀ call ∈ trace anyone noDirs oneFile threeRequests,
      (match call with | .entryPath _ name => !name.contains nul | _ => true) = true := by
    decide +kernel
  refine ⟨by decide +kernel, (buffers_kept_iff inARow anyone noDirs oneFile threeRequests _
    ?_ ?_ ?_ ?_).mpr (by decide +kernel)⟩
  · intro layer i hi
    cases layer <;> exact List.getD_nil.symm
  · intro layer
    cases layer <;> exact List.not_mem_nil
  · intro op hop
    refine ⟨?_, fun layer => ?_⟩
    · revert op
      decide
    · cases layer <;> revert op <;> decide
  · intro path name h
    simpa using hnames _ h

/-- The directories of `twoDirs` in their buffers. -/
def twoDirsMemory : Memory := fun a =>
  if a = 512 ∨ a = 768 then '/' else if a = 513 then 'u' else if a = 769 then 'l' else nul

theorem twoDirsMemory_configured : Configured inARow twoDirs twoDirsMemory := by
  intro layer
  cases layer <;> (rw [Holds]; decide)

/-- **BEHIND THE BUFFER**: `set_fpath` writes to what follows `fpath`.  Where that is
    `upper_dir_path`, the upper layer is the root of the file system from then on. -/
theorem set_fpath_empties_upper_dir :
    (Configured inARow twoDirs twoDirsMemory ∧
      ∀ layer, (setFpath twoDirs (pathOf 'f').string layer).length < inARow.pathMax) ∧
    .setFpath (pathOf 'f') .upper ∈ trace anyone twoDirs oneFile [.getattr (pathOf 'f')] ∧
    (∃ w ∈ (Call.setFpath (pathOf 'f') .upper).writes inARow twoDirsMemory,
      inARow.pathMax ≤ w.offset) ∧
    inARow.string twoDirsMemory .upperDirPath = ['/', 'u'] ∧
    inARow.string (bufferCall inARow twoDirsMemory (.setFpath (pathOf 'f') .upper)).1
      .upperDirPath = [] := by
  have hlen (layer : Layer) : (setFpath twoDirs (pathOf 'f').string layer).length <
      inARow.pathMax := by
    cases layer <;> decide
  have hdir : nul ∉ twoDirs.of .upper := by decide
  -- the second copy starts at offset 2, and its byte 254 is the first one behind the buffer
  have hbehind : inARow.base .upperDirPath =
      inARow.base .fpath + ((twoDirs.of .upper).length + 254) := rfl
  have hzero := setFpath_pads twoDirsMemory_configured hdir (hlen .upper)
    (show (pathOf 'f').string.length ≤ 254 by decide) (by decide)
  refine ⟨⟨twoDirsMemory_configured, hlen⟩, List.mem_cons_self, ?_, by decide, ?_⟩
  · have hout : ¬ ∀ w ∈ setFpathWrites inARow twoDirsMemory (pathOf 'f').string .upper,
        w.offset < inARow.pathMax := by
      rw [setFpathWrites_within twoDirsMemory_configured hdir (hlen .upper)]
      decide
    push Not at hout
    exact hout
  · exact cstr_of_nul ((congrArg _ hbehind).trans hzero)

end Overlay
