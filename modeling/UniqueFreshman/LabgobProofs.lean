import UniqueFreshman.GuardedRunProofs
import UniqueFreshman.MarkingProofs
import Mathlib

/-! # labgob — the checks in front of the encoder

    `labgob` wraps Go's encoder.  Before it encodes or decodes a value it complains
    about every struct field whose name is not capitalized, in the type of the value
    and in all types that one is made of, and before it decodes it warns of values
    that are not zero.  The set of checked types and the number of errors are shared
    by all goroutines, under a mutex.

    Types can be recursive; `checkType` marks a type before it looks into it.  What a
    goroutine has still to do is a stack of tasks here, so that the calls of many
    goroutines interleave: one step is one critical section with the code around it.
    A call with `nil`, or a value that reflection does not give out, is a panic, and
    nothing goes on after it.  `called` is what `checkValue` was called with so far, and
    is read by no step. -/

namespace Labgob

open GuardedRun Marking

abbrev Name := List Char

/-- What `checkType` sees of a type. -/
inductive Kind (T : Type) where
  | struct (fields : List (Name × T))
  | elem (type : T)
  | map (elem key : T)
  | other

/-- What `checkDefault1` sees of a value; a field has a name, and may be embedded. -/
inductive Value where
  | struct (fields : List (Name × Bool × Value))
  | nilPtr
  | ptr (value : Value)
  | basic (type : Name) (zero : Bool)
  | other

/-- Whether reflection gives a value out: not one of an unexported field, nor what is under
    it, but the exported fields under an embedded one. -/
inductive Access where
  | exported
  | embedRO
  | stickyRO
deriving DecidableEq

/-- Something that `checkDefault1` comes upon: a value that is not zero, with the name for
    it, or one that it may not look at. -/
inductive Finding where
  | nonZero (what : Name)
  | unexported

section Values

variable (isUpper : Char → Bool)

/-- `unicode.IsUpper(rune) == false`, of the first rune of a name. -/
def isLower : Name → Bool
  | [] => true
  | rune :: _ => !isUpper rune

def Access.field (access : Access) (name : Name) (embedded : Bool) : Access :=
  if access = .stickyRO then .stickyRO
  else if isLower isUpper name then if embedded then .embedRO else .stickyRO
  else .exported

/-- `name + "." + name1`, if there is a name. -/
def qualified (name name1 : Name) : Name := if name = [] then name1 else name ++ '.' :: name1

/-- What `checkDefault1` comes upon, in its order; `levels` is the number of calls in one
    another that are left. -/
def checkDefault1 : (levels : Nat) → Access → Name → Value → List Finding
  | 0, _, _, _ => []
  | levels + 1, access, name, .struct fields =>
      fields.flatMap fun f =>
        checkDefault1 levels (access.field isUpper f.1 f.2.1) (qualified name f.1) f.2.2
  | _, _, _, .nilPtr => []
  | levels + 1, access, name, .ptr value => checkDefault1 levels access name value
  | _, access, name, .basic type zero =>
      if access = .exported then
        if zero then [] else [.nonZero (if name = [] then type else name)]
      else [.unexported]
  | _, _, _, .other => []

def checkDefault (value : Value) : List Finding := checkDefault1 isUpper 3 .exported [] value

end Values

section Types

variable {T : Type} (kind : T → Kind T) (isUpper : Char → Bool)

/-- A step of `checkType`: the call for a type, or the round of its loop for a field; or
    something that `checkDefault1` comes upon. -/
inductive Task (T : Type) where
  | check (type : T)
  | field (struct : T) (name : Name) (type : T)
  | found (finding : Finding)

structure State (T : Type) where
  checked : Finset T
  errorCount : Nat
  complaints : List (T × Name)
  warnings : List Name
  crashed : Bool
  goroutines : List (List (Task T))
  called : List (T × List Finding)

def State.fresh : State T := ⟨∅, 0, [], [], false, [], []⟩

/-- What `checkType` does with a type it has not checked before. -/
def opened (t : T) : List (Task T) :=
  match kind t with
  | .struct fields => fields.map fun f => .field t f.1 f.2
  | .elem u => [.check u]
  | .map elem key => [.check elem, .check key]
  | .other => []

/-- One task: the state after it, and the tasks it leads to. -/
def doTask [DecidableEq T] (s : State T) : Task T → State T × List (Task T)
  | .check t =>
      if t ∈ s.checked then (s, [])
      else ({ s with checked := insert t s.checked }, opened kind t)
  | .field t name u =>
      if isLower isUpper name then
        ({ s with errorCount := s.errorCount + 1, complaints := s.complaints ++ [(t, name)] },
          [.check u])
      else (s, [.check u])
  | .found (.nonZero what) =>
      ({ s with
        errorCount := s.errorCount + 1
        warnings := if s.errorCount < 1 then s.warnings ++ [what] else s.warnings }, [])
  | .found .unexported => ({ s with crashed := true }, [])

/-- A call of `Encode`, `Register` or `Decode` begins, with a value or with `nil`, or a
    goroutine takes a step. -/
inductive Event (T : Type) where
  | encode (type : T)
  | decode (type : T) (value : Value)
  | callNil
  | work (i : Nat)

/-- A goroutine that checks a type and then what was found in a value. -/
def State.start (s : State T) (t : T) (found : List Finding) : State T :=
  { s with
    goroutines := s.goroutines ++ [.check t :: found.map .found]
    called := (t, found) :: s.called }

def labStep [DecidableEq T] (s : State T) (e : Event T) : Option (State T) :=
  if s.crashed then none
  else match e with
    | .encode t => some (s.start t [])
    | .decode t value => some (s.start t (checkDefault isUpper value))
    | .callNil => some { s with crashed := true }
    | .work i =>
        match s.goroutines[i]? with
        | some (task :: rest) =>
            let (s', tasks) := doTask kind isUpper s task
            some { s' with goroutines := s.goroutines.set i (tasks ++ rest) }
        | _ => none

/-- All calls have returned. -/
def State.Idle (s : State T) : Prop := s.crashed = false ∧ ∀ g ∈ s.goroutines, g = []

/-- The types a type is made of. -/
def parts (t : T) : List T :=
  match kind t with
  | .struct fields => fields.map Prod.snd
  | .elem u => [u]
  | .map elem key => [elem, key]
  | .other => []

/-- The fields of a type that are to be complained about. -/
def lowerFields (t : T) : List (T × Name) :=
  match kind t with
  | .struct fields => (fields.filter fun f => isLower isUpper f.1).map fun f => (t, f.1)
  | _ => []

/-! ## What is left to do -/

/-- The tasks of all goroutines. -/
def State.tasks (s : State T) : Multiset (Task T) := s.goroutines.flatten

/-- The type a task leads to. -/
def Task.target : Task T → Option T
  | .check t => some t
  | .field _ _ u => some u
  | .found _ => none

/-- The complaint a task is about to make. -/
def Task.complaint : Task T → Option (T × Name)
  | .field t name _ => if isLower isUpper name then some (t, name) else none
  | _ => none

/-- What a finding names, if it is to be counted. -/
def Finding.what : Finding → Option Name
  | .nonZero what => some what
  | .unexported => none

def Task.what : Task T → Option Name
  | .found finding => finding.what
  | _ => none

variable {kind isUpper}

/-- Opening a type leaves its parts to be checked, -/
theorem target_opened (t : T) : (opened kind t).filterMap Task.target = parts kind t := by
  rw [opened, parts]
  cases kind t with
  | struct fields => simp [Task.target, Function.comp_def]
  | elem u => rfl
  | map elem key => rfl
  | other => rfl

/-- and its lower-case fields to be complained about. -/
theorem complaint_opened (t : T) :
    (opened kind t).filterMap (Task.complaint isUpper) = lowerFields kind isUpper t := by
  rw [opened, lowerFields]
  cases kind t with
  | struct fields =>
      induction fields with
      | nil => rfl
      | cons f fields ih =>
          by_cases hf : isLower isUpper f.1 = true
          · simpa [Task.complaint, hf] using ih
          · simpa [Task.complaint, hf] using ih
  | elem u => rfl
  | map elem key => rfl
  | other => rfl

theorem what_opened (t : T) : (opened kind t).filterMap Task.what = [] := by
  rw [opened]
  cases kind t <;> simp [Task.what]

variable {s s' : State T}

/-- A call adds its type, and what it has found in the value. -/
theorem tasks_start (t : T) (found : List Finding) :
    (s.start t found).tasks = .check t ::ₘ (s.tasks +
      ((found.map Task.found : List (Task T)) : Multiset (Task T))) := by
  simp only [State.start, State.tasks, List.flatten_append, List.flatten_cons, List.flatten_nil,
    List.append_nil, ← Multiset.coe_add, ← Multiset.cons_coe, Multiset.add_cons]

/-- A goroutine replaces the task it has done by those it leads to. -/
theorem tasks_set {gs : List (List (Task T))} {i : Nat} {task : Task T} {rest : List (Task T)}
    (h : gs[i]? = some (task :: rest)) :
    ∃ others : Multiset (Task T), (gs.flatten : Multiset (Task T)) = task ::ₘ others ∧
      ∀ tasks, ((gs.set i (tasks ++ rest)).flatten : Multiset (Task T)) = tasks + others := by
  obtain ⟨hi, hget⟩ := List.getElem?_eq_some_iff.mp h
  refine ⟨(gs.take i).flatten + ((rest : Multiset (Task T)) + (gs.drop (i + 1)).flatten), ?_, ?_⟩
  · have hsplit : gs = gs.take i ++ (task :: rest) :: gs.drop (i + 1) := by
      rw [← hget, List.cons_getElem_drop_succ, List.take_append_drop]
    rw [hsplit]
    simp only [List.flatten_append, List.flatten_cons, ← Multiset.coe_add, ← Multiset.cons_coe,
      Multiset.cons_add, Multiset.add_cons]
    rw [← hsplit]
  · intro tasks
    rw [List.set_eq_take_append_cons_drop, if_pos hi]
    simp only [List.flatten_append, List.flatten_cons, ← Multiset.coe_add]
    rw [add_left_comm, add_assoc, add_left_comm (rest : Multiset (Task T))]

variable [DecidableEq T]

/-- **ONE STEP** of a goroutine does the task on top of its stack. -/
theorem worked_at {i : Nat} (h : labStep kind isUpper s (.work i) = some s') :
    s.crashed = false ∧ ∃ task rest, s.goroutines[i]? = some (task :: rest) ∧
      s' = { (doTask kind isUpper s task).1 with
        goroutines := s.goroutines.set i ((doTask kind isUpper s task).2 ++ rest) } := by
  obtain ⟨hcrashed, h⟩ := Option.ite_none_left_eq_some.mp h
  refine ⟨Bool.eq_false_iff.mpr hcrashed, ?_⟩
  dsimp only at h
  split at h
  · next task rest hget => exact ⟨task, rest, hget, (Option.some.inj h).symm⟩
  · cases h

/-- Of all the tasks there are, it does one. -/
theorem worked {i : Nat} (h : labStep kind isUpper s (.work i) = some s') :
    ∃ task others, s.tasks = task ::ₘ others ∧
      s'.tasks = (doTask kind isUpper s task).2 + others ∧
      s' = { (doTask kind isUpper s task).1 with goroutines := s'.goroutines } := by
  obtain ⟨-, task, rest, hget, rfl⟩ := worked_at h
  obtain ⟨others, hbefore, hafter⟩ := tasks_set hget
  exact ⟨task, others, hbefore, hafter _, rfl⟩

/-! ## The search -/

/-- The search that the goroutines work at together. -/
def State.search (s : State T) : Marking.State T :=
  ⟨s.called.map Prod.fst, s.checked, s.tasks.filterMap Task.target⟩

/-- A call is a step of the search: its type is to be checked. -/
theorem search_start (t : T) (found : List Finding) :
    Step (parts kind) s.search (s.start t found).search := by
  have hfound : ((found.map Task.found : List (Task T)) : Multiset (Task T)).filterMap
      Task.target = 0 := by
    rw [Multiset.filterMap_coe, List.filterMap_map]
    simp [Function.comp_def, Task.target]
  have hpending : (s.start t found).tasks.filterMap Task.target =
      t ::ₘ s.tasks.filterMap Task.target := by
    rw [tasks_start, Multiset.filterMap_cons_some _ _ _ (rfl : Task.target (.check t) = some t),
      Multiset.filterMap_add, hfound, add_zero]
  rw [State.search.eq_def (s.start t found), hpending]
  exact .call t

/-- **A STEP OF THE SEARCH**, or none. -/
theorem search_worked {i : Nat} (h : labStep kind isUpper s (.work i) = some s') :
    s'.search = s.search ∨ Step (parts kind) s.search s'.search := by
  obtain ⟨task, others, hbefore, hafter, hs'⟩ := worked h
  cases task with
  | check t =>
      have hpending : s.search.pending = t ::ₘ others.filterMap Task.target := by
        rw [State.search, hbefore]
        exact Multiset.filterMap_cons_some _ _ _ rfl
      have herase : s.search.pending.erase t = others.filterMap Task.target := by
        rw [hpending, Multiset.erase_cons_head]
      have hmem : t ∈ s.search.pending := by
        rw [hpending]
        exact Multiset.mem_cons_self t _
      by_cases hchecked : t ∈ s.checked
      · rw [doTask, if_pos hchecked] at hafter hs'
        have hafter' : s'.tasks.filterMap Task.target = s.search.pending.erase t := by
          rw [hafter, herase, Multiset.coe_nil, zero_add]
        rw [State.search, hafter', hs']
        exact .inr (.skip hmem hchecked)
      · rw [doTask, if_neg hchecked] at hafter hs'
        have hafter' : s'.tasks.filterMap Task.target =
            s.search.pending.erase t + (parts kind t : Multiset T) := by
          rw [hafter, herase, Multiset.filterMap_add, Multiset.filterMap_coe, target_opened,
            add_comm]
        rw [State.search, hafter', hs']
        exact .inr (.mark hmem hchecked)
  | field t name u =>
      have hpending : s'.tasks.filterMap Task.target = s.tasks.filterMap Task.target := by
        have htasks : (doTask kind isUpper s (.field t name u)).2 = [.check u] := by
          rw [doTask]
          split <;> rfl
        rw [hafter, hbefore, htasks, Multiset.filterMap_add, Multiset.filterMap_coe,
          Multiset.filterMap_cons_some _ _ _ (rfl : Task.target (.field t name u) = some u)]
        rfl
      left
      rw [State.search, hpending, hs', doTask]
      split <;> rfl
  | found finding =>
      have htasks : (doTask kind isUpper s (.found finding)).2 = [] := by
        cases finding <;> rfl
      have hpending : s'.tasks.filterMap Task.target = s.tasks.filterMap Task.target := by
        rw [hafter, hbefore, htasks, Multiset.filterMap_cons_none _ _ rfl]
        exact congrArg _ (zero_add others)
      left
      rw [State.search, hpending, hs']
      cases finding <;> rfl

/-! ## The books -/

/-- How many things the values passed to `Decode` have shown. -/
def State.shown (s : State T) : Nat :=
  (s.called.map fun c => (c.2.filterMap Finding.what).length).sum

variable (kind isUpper)

/-- Every complaint has been made or is about to be made, just once; the errors are the
    complaints and what was found in values; and the warning is the first error. -/
structure Booked (s : State T) : Prop where
  complaints : (s.complaints : Multiset (T × Name)) +
      s.tasks.filterMap (Task.complaint isUpper) =
    ∑ t ∈ s.checked, (lowerFields kind isUpper t : Multiset (T × Name))
  errors : s.errorCount + (s.tasks.filterMap Task.what).card = s.complaints.length + s.shown
  once : s.warnings.length ≤ 1
  first : s.errorCount = 0 → s.warnings = []

variable {kind isUpper}

omit [DecidableEq T] in
theorem booked_fresh : Booked kind isUpper (State.fresh : State T) :=
  ⟨rfl, rfl, Nat.zero_le 1, fun _ => rfl⟩

omit [DecidableEq T] in
/-- A call prints nothing. -/
theorem Booked.start (h : Booked kind isUpper s) (t : T) (found : List Finding) :
    Booked kind isUpper (s.start t found) := by
  refine ⟨?_, ?_, h.once, h.first⟩
  · rw [tasks_start, Multiset.filterMap_cons_none _ _ rfl, Multiset.filterMap_add,
      Multiset.filterMap_coe, List.filterMap_map]
    simpa [State.start, Function.comp_def, Task.complaint] using h.complaints
  · have herrors := h.errors
    have hwhat : Task.what (T := T) ∘ Task.found = Finding.what := rfl
    rw [tasks_start, Multiset.filterMap_cons_none _ _ rfl, Multiset.filterMap_add,
      Multiset.filterMap_coe, List.filterMap_map, hwhat, Multiset.card_add, Multiset.coe_card]
    simp only [State.shown, State.start, List.map_cons, List.sum_cons] at herrors ⊢
    omega

omit [DecidableEq T] in
/-- Work that is neither complained about nor counted. -/
theorem Booked.pass (h : Booked kind isUpper s) (hcrashed : Bool) {gs : List (List (Task T))}
    (hcomplaints : Multiset.filterMap (Task.complaint isUpper) gs.flatten =
      s.tasks.filterMap (Task.complaint isUpper))
    (herrors : Multiset.filterMap Task.what (gs.flatten : Multiset (Task T)) =
      s.tasks.filterMap Task.what) :
    Booked kind isUpper { s with crashed := hcrashed, goroutines := gs } := by
  refine ⟨?_, ?_, h.once, h.first⟩
  · exact (congrArg _ hcomplaints).trans h.complaints
  · exact (congrArg (fun m => s.errorCount + Multiset.card m) herrors).trans h.errors

/-- **ONE STEP** keeps the books. -/
theorem Booked.worked (h : Booked kind isUpper s) {i : Nat}
    (hstep : labStep kind isUpper s (.work i) = some s') : Booked kind isUpper s' := by
  obtain ⟨task, others, hbefore, hafter, hs'⟩ := Labgob.worked hstep
  have hcomplaints := h.complaints
  have herrors := h.errors
  rw [hbefore] at hcomplaints herrors
  cases task with
  | check t =>
      rw [Multiset.filterMap_cons_none _ _ rfl] at hcomplaints herrors
      by_cases hchecked : t ∈ s.checked
      · rw [doTask, if_pos hchecked] at hafter hs'
        have hothers : s'.tasks = others := by rw [hafter, Multiset.coe_nil, zero_add]
        rw [hs']
        refine h.pass s.crashed ?_ ?_
        · rw [hbefore, Multiset.filterMap_cons_none _ _ rfl]
          exact congrArg _ hothers
        · rw [hbefore, Multiset.filterMap_cons_none _ _ rfl]
          exact congrArg _ hothers
      · -- the complaints about the type are to be made
        rw [doTask, if_neg hchecked] at hafter hs'
        refine ⟨?_, ?_, ?_, ?_⟩
        · rw [hafter, Multiset.filterMap_add, Multiset.filterMap_coe, complaint_opened, hs',
            Finset.sum_insert hchecked, add_left_comm, hcomplaints]
        · rw [hafter, Multiset.filterMap_add, Multiset.filterMap_coe, what_opened, hs',
            Multiset.coe_nil, zero_add]
          exact herrors
        · rw [hs']
          exact h.once
        · rw [hs']
          exact h.first
  | field t name u =>
      have hwhat : Task.what (.field t name u) = none := rfl
      rw [Multiset.filterMap_cons_none _ _ hwhat] at herrors
      by_cases hlower : isLower isUpper name = true
      · -- the complaint is made
        have hcomplaint : Task.complaint isUpper (.field t name u) = some (t, name) :=
          if_pos hlower
        rw [Multiset.filterMap_cons_some _ _ _ hcomplaint] at hcomplaints
        rw [doTask, if_pos hlower] at hafter hs'
        refine ⟨?_, ?_, ?_, ?_⟩
        · rw [hafter, Multiset.filterMap_add, hs']
          show ((s.complaints ++ [(t, name)] : List (T × Name)) : Multiset (T × Name)) +
            (0 + others.filterMap (Task.complaint isUpper)) = _
          rw [zero_add, ← Multiset.coe_add, add_assoc]
          exact hcomplaints
        · rw [hafter, Multiset.filterMap_add, hs']
          show s.errorCount + 1 + (0 + others.filterMap Task.what).card =
            (s.complaints ++ [(t, name)]).length + s.shown
          rw [zero_add, List.length_append, List.length_singleton]
          omega
        · rw [hs']
          exact h.once
        · rw [hs']
          exact fun hzero => absurd hzero (Nat.succ_ne_zero _)
      · have hcomplaint : Task.complaint isUpper (.field t name u) = none := if_neg hlower
        rw [doTask, if_neg hlower] at hafter hs'
        rw [hs']
        refine h.pass s.crashed ?_ ?_
        · rw [hbefore, Multiset.filterMap_cons_none _ _ hcomplaint]
          exact (congrArg _ hafter).trans (Multiset.filterMap_cons_none _ _ rfl)
        · rw [hbefore, Multiset.filterMap_cons_none _ _ hwhat]
          exact (congrArg _ hafter).trans (Multiset.filterMap_cons_none _ _ rfl)
  | found finding =>
      rw [Multiset.filterMap_cons_none _ _ rfl] at hcomplaints
      cases finding with
      | nonZero what =>
          have hwhat : Task.what (.found (.nonZero what) : Task T) = some what := rfl
          rw [Multiset.filterMap_cons_some _ _ _ hwhat, Multiset.card_cons] at herrors
          have hothers : s'.tasks = others := hafter.trans (zero_add others)
          refine ⟨?_, ?_, ?_, ?_⟩
          · rw [hothers, hs']
            exact hcomplaints
          · rw [hothers, hs']
            show s.errorCount + 1 + _ = s.complaints.length + s.shown
            omega
          · rw [hs']
            show (if s.errorCount < 1 then s.warnings ++ [what] else s.warnings).length ≤ 1
            split
            · next hzero =>
                rw [h.first (Nat.lt_one_iff.mp hzero)]
                exact le_rfl
            · exact h.once
          · rw [hs']
            exact fun hzero => absurd hzero (Nat.succ_ne_zero _)
      | unexported =>
          have hothers : s'.tasks = others := hafter.trans (zero_add others)
          rw [hs']
          refine h.pass true ?_ ?_
          · rw [hbefore, Multiset.filterMap_cons_none _ _ rfl]
            exact congrArg _ hothers
          · rw [hbefore, Multiset.filterMap_cons_none _ _ rfl]
            exact congrArg _ hothers

/-! ## Whole runs -/

variable (kind isUpper)

/-- The search is sound and the books are right. -/
structure Kept (s : State T) : Prop where
  sound : Sound (parts kind) s.search
  booked : Booked kind isUpper s

variable {kind isUpper}

omit [DecidableEq T] in
theorem kept_fresh : Kept kind isUpper (State.fresh : State T) := ⟨sound_fresh, booked_fresh⟩

/-- **ONE STEP** keeps the search and the books. -/
theorem Kept.step {e : Event T} (h : Kept kind isUpper s)
    (hstep : labStep kind isUpper s e = some s') : Kept kind isUpper s' := by
  cases e with
  | work i =>
      refine ⟨?_, h.booked.worked hstep⟩
      rcases search_worked hstep with hsame | hsearch
      · rw [hsame]
        exact h.sound
      · exact h.sound.step hsearch
  | encode t =>
      obtain ⟨-, hs'⟩ := Option.ite_none_left_eq_some.mp hstep
      obtain rfl := Option.some.inj hs'
      exact ⟨h.sound.step (search_start t _), h.booked.start t _⟩
  | decode t value =>
      obtain ⟨-, hs'⟩ := Option.ite_none_left_eq_some.mp hstep
      obtain rfl := Option.some.inj hs'
      exact ⟨h.sound.step (search_start t _), h.booked.start t _⟩
  | callNil =>
      obtain ⟨-, hs'⟩ := Option.ite_none_left_eq_some.mp hstep
      obtain rfl := Option.some.inj hs'
      exact ⟨h.sound, h.booked.pass true rfl rfl⟩

/-- So does a run, whatever is asked of its steps. -/
theorem kept_run {ok : State T → Event T → Prop} {ss : List (State T)}
    (h : Run (labStep kind isUpper) ok .fresh ss) : ∀ s ∈ ss, Kept kind isUpper s :=
  h.invariant kept_fresh fun _ _ _ hkept _ hstep => hkept.step hstep

/-- No goroutine is in `checkType`. -/
def State.Settled (s : State T) : Prop := ∀ task ∈ s.tasks, task.target = none

omit [DecidableEq T] in
/-- An idle state has nothing left to do. -/
theorem State.Idle.tasks_eq_zero (h : s.Idle) : s.tasks = 0 :=
  Multiset.coe_eq_zero _ |>.mpr (List.flatten_eq_nil_iff.mpr h.2)

omit [DecidableEq T] in
/-- When no goroutine is inside of `checkType`, no type is waiting. -/
theorem State.Settled.pending (h : s.Settled) : s.search.pending = 0 := by
  refine Multiset.eq_zero_of_forall_notMem fun t ht => ?_
  obtain ⟨task, htask, htarget⟩ := (Multiset.mem_filterMap Task.target s.tasks).mp ht
  rw [h task htask] at htarget
  cases htarget

omit [DecidableEq T] in
theorem State.Settled.complaint (h : s.Settled) {task : Task T} (htask : task ∈ s.tasks) :
    task.complaint isUpper = none := by
  cases task with
  | check t => rfl
  | field t name u => exact absurd (h _ htask) (Option.some_ne_none u)
  | found finding => rfl

omit [DecidableEq T] in
/-- All complaints have been made when no goroutine is in `checkType`. -/
theorem Kept.complaints (h : Kept kind isUpper s) (hsettled : s.Settled) :
    (s.complaints : Multiset (T × Name)) =
      ∑ t ∈ s.checked, (lowerFields kind isUpper t : Multiset (T × Name)) := by
  have hnone : s.tasks.filterMap (Task.complaint isUpper) = 0 := by
    refine Multiset.eq_zero_of_forall_notMem fun c hc => ?_
    obtain ⟨task, htask, hcomplaint⟩ := (Multiset.mem_filterMap _ _).mp hc
    rw [hsettled.complaint htask] at hcomplaint
    cases hcomplaint
  rw [← h.booked.complaints, hnone, add_zero]

/-- **THE COMPLAINTS ARE COMPLETE**: however the calls of all goroutines interleave, no
    complaint is made twice and at most one warning; and when the calls have returned, the
    checked types are those that the types of their values are made of, a complaint was made
    about each of their lower-case fields, and the errors are the complaints and the values
    that were not zero. -/
theorem complaints_are_complete {ss : List (State T)}
    (hrun : Run (labStep kind isUpper) Always .fresh ss) (hs : s ∈ ss) :
    (s.complaints : Multiset (T × Name)) ≤
        ∑ t ∈ s.checked, (lowerFields kind isUpper t : Multiset (T × Name)) ∧
      s.warnings.length ≤ 1 ∧
      (s.Idle →
        (∀ t, t ∈ s.checked ↔ ∃ c ∈ s.called, Leads (parts kind) c.1 t) ∧
        (s.complaints : Multiset (T × Name)) =
          ∑ t ∈ s.checked, (lowerFields kind isUpper t : Multiset (T × Name)) ∧
        s.errorCount = s.complaints.length + s.shown) := by
  have h := kept_run hrun s hs
  refine ⟨?_, h.booked.once, fun hidle => ?_⟩
  · rw [← h.booked.complaints]
    exact Multiset.le_add_right _ _
  · have htasks := hidle.tasks_eq_zero
    have hsettled : s.Settled := by
      intro task htask
      rw [htasks] at htask
      exact absurd htask (Multiset.notMem_zero task)
    refine ⟨fun t => ?_, h.complaints hsettled, ?_⟩
    · rw [show t ∈ s.checked ↔ _ from h.sound.marked_iff hsettled.pending t]
      simp [State.Reached, State.search]
    · have herrors := h.booked.errors
      rw [htasks] at herrors
      exact herrors

/-- `type Node struct { Next *Node; data int }`, a pointer to it, and `int`. -/
def nodeKind : Fin 3 → Kind (Fin 3)
  | 0 => .struct [(['N', 'e', 'x', 't'], 1), (['d', 'a', 't', 'a'], 2)]
  | 1 => .elem 0
  | 2 => .other

/-- One goroutine encodes a node while another one decodes into a number that is not zero. -/
theorem complaints_are_complete_of_two_calls :
    ∃ s ss, Run (labStep nodeKind Char.isUpper) Always .fresh (s :: ss) ∧ s.Idle ∧
      s.complaints = [(0, ['d', 'a', 't', 'a'])] ∧
      s.errorCount = s.complaints.length + s.shown ∧
      ∀ t, t ∈ s.checked ↔ ∃ c ∈ s.called, Leads (parts nodeKind) c.1 t := by
  obtain ⟨s, ss, hrun, hcrashed, hempty, hcomplaints⟩ : ∃ s ss,
      Run (labStep nodeKind Char.isUpper) Always .fresh (s :: ss) ∧ s.crashed = false ∧
      s.goroutines.all List.isEmpty = true ∧ s.complaints = [(0, ['d', 'a', 't', 'a'])] :=
    run_reaches [.encode 1, .decode 2 (.basic ['i', 'n', 't'] false), .work 0, .work 1, .work 0,
      .work 0, .work 1, .work 0, .work 0, .work 0] (by decide +kernel)
  have hidle : s.Idle :=
    ⟨hcrashed, fun g hg => List.isEmpty_iff.mp (List.all_eq_true.mp hempty g hg)⟩
  obtain ⟨hchecked, -, herrors⟩ :=
    (complaints_are_complete hrun List.mem_cons_self).2.2 hidle
  exact ⟨s, ss, hrun, hidle, hcomplaints, herrors, hchecked⟩

/-! ## Crashes -/

/-- A value of a type. -/
inductive HasType (kind : T → Kind T) : Value → T → Prop where
  | struct {t : T} {fields : List (Name × Bool × Value)} {types : List (Name × T)}
      (hkind : kind t = .struct types) (hnames : fields.map Prod.fst = types.map Prod.fst)
      (hfields : ∀ f ∈ fields.zip types, HasType kind f.1.2.2 f.2.2) :
      HasType kind (.struct fields) t
  | nilPtr {t u : T} (hkind : kind t = .elem u) : HasType kind .nilPtr t
  | ptr {t u : T} {value : Value} (hkind : kind t = .elem u) (hvalue : HasType kind value u) :
      HasType kind (.ptr value) t
  | basic {t : T} {type : Name} {zero : Bool} (hkind : kind t = .other) :
      HasType kind (.basic type zero) t
  | other {t : T} : HasType kind .other t

/-- Calls get values of their types, and not `nil`. -/
def Event.Typed (kind : T → Kind T) : Event T → Prop
  | .decode t value => HasType kind value t
  | .callNil => False
  | _ => True

variable (kind isUpper)

/-- A lower-case field is complained about somewhere in the type. -/
def Flawed (t : T) : Prop :=
  ∃ u name, Leads (parts kind) t u ∧ (u, name) ∈ lowerFields kind isUpper u

variable {kind isUpper}

omit [DecidableEq T] in
/-- A type is flawed if a part of it is. -/
theorem Flawed.part {t u : T} (hu : u ∈ parts kind t) (h : Flawed kind isUpper u) :
    Flawed kind isUpper t := by
  obtain ⟨v, name, hlead, hname⟩ := h
  exact ⟨v, name, .head hu hlead, hname⟩

omit [DecidableEq T] in
/-- A struct with a lower-case field is flawed. -/
theorem flawed_of_field {t : T} {types : List (Name × T)} {f : Name × T}
    (hkind : kind t = .struct types) (hf : f ∈ types) (hlower : isLower isUpper f.1 = true) :
    Flawed kind isUpper t := by
  refine ⟨t, f.1, .refl, ?_⟩
  rw [lowerFields, hkind]
  exact List.mem_map.mpr ⟨f, List.mem_filter.mpr ⟨hf, hlower⟩, rfl⟩

omit [DecidableEq T] in
/-- A value is only kept back under a lower-case field. -/
theorem flawed_of_unexported {levels : Nat} : ∀ {access : Access} {name : Name} {value : Value}
    {t : T}, HasType kind value t →
    .unexported ∈ checkDefault1 isUpper levels access name value →
    access ≠ .exported ∨ Flawed kind isUpper t := by
  induction levels with
  | zero =>
      intro access name value t _ h
      rw [checkDefault1] at h
      exact absurd h List.not_mem_nil
  | succ levels ih =>
      intro access name value t htyped h
      cases htyped with
      | @struct t fields types hkind hnames hfields =>
          rw [checkDefault1] at h
          obtain ⟨f, hf, h⟩ := List.mem_flatMap.mp h
          -- the field's type stands where the field stands
          obtain ⟨i, hi, rfl⟩ := List.mem_iff_getElem.mp hf
          have hlength : fields.length = types.length := by
            simpa using congrArg List.length hnames
          have hi' : i < types.length := hlength ▸ hi
          have hname : fields[i].1 = types[i].1 := by
            have := List.getElem_of_eq hnames (by simpa using hi)
            simpa using this
          have hmem : types[i] ∈ types := List.getElem_mem hi'
          have htyped : HasType kind fields[i].2.2 types[i].2 := by
            refine hfields (fields[i], types[i]) (List.mem_iff_getElem.mpr ⟨i, ?_, ?_⟩)
            · rw [List.length_zip]
              exact Nat.lt_min.mpr ⟨hi, hi'⟩
            · exact List.getElem_zip
          by_cases hsticky : access = .stickyRO
          · exact .inl (by rw [hsticky]; decide)
          right
          by_cases hlower : isLower isUpper fields[i].1 = true
          · exact flawed_of_field hkind hmem (hname ▸ hlower)
          · rw [Access.field, if_neg hsticky, if_neg hlower] at h
            have hpart : types[i].2 ∈ parts kind t := by
              rw [parts, hkind]
              exact List.mem_map_of_mem hmem
            exact ((ih htyped h).resolve_left (absurd rfl)).part hpart
      | nilPtr hkind => exact absurd h List.not_mem_nil
      | @ptr t u value hkind hvalue =>
          rw [checkDefault1] at h
          refine (ih hvalue h).imp_right fun hflawed => hflawed.part ?_
          rw [parts, hkind]
          exact List.mem_singleton_self u
      | basic hkind =>
          left
          rintro rfl
          simp only [checkDefault1, if_true] at h
          split at h
          · exact absurd h List.not_mem_nil
          · cases List.mem_singleton.mp h
      | other => exact absurd h List.not_mem_nil

/-- The call that a goroutine was started for. -/
def State.callOf (s : State T) (i : Nat) : Option (T × List Finding) := s.called.reverse[i]?

variable (kind isUpper)

/-- A goroutine is about to crash only if it was started for a type that has a lower-case
    field somewhere. -/
structure Blamed (s : State T) : Prop where
  count : s.goroutines.length = s.called.length
  tasks : ∀ i g, s.goroutines[i]? = some g → .found .unexported ∈ g →
    ∃ c, s.callOf i = some c ∧ Flawed kind isUpper c.1

variable {kind isUpper}

omit [DecidableEq T] in
/-- Nothing has been called yet. -/
theorem blamed_fresh : Blamed kind isUpper (State.fresh : State T) := by
  refine ⟨rfl, fun i g hget => ?_⟩
  cases hget

omit [DecidableEq T] in
/-- A call that will find an unexported field has a flawed type. -/
theorem Blamed.start {t : T} {found : List Finding} (h : Blamed kind isUpper s)
    (hfound : .unexported ∈ found → Flawed kind isUpper t) :
    Blamed kind isUpper (s.start t found) := by
  constructor
  · simp only [State.start, List.length_append, List.length_cons, h.count, List.length_nil]
  · intro i g hget hmem
    simp only [State.start, State.callOf, List.reverse_cons] at hget ⊢
    rcases Nat.lt_or_ge i s.goroutines.length with hi | hi
    · rw [List.getElem?_append_left hi] at hget
      rw [List.getElem?_append_left (by rw [List.length_reverse, ← h.count]; exact hi)]
      exact h.tasks i g hget hmem
    · -- the goroutine of this call
      rw [List.getElem?_append_right hi] at hget
      obtain ⟨hlast, rfl⟩ : i - s.goroutines.length = 0 ∧ .check t :: found.map .found = g := by
        obtain ⟨hlt, hg⟩ := List.getElem?_eq_some_iff.mp hget
        exact ⟨Nat.lt_one_iff.mp hlt, by simpa using hg⟩
      rw [List.getElem?_append_right (by rw [List.length_reverse, ← h.count]; exact hi),
        List.length_reverse, ← h.count, hlast]
      rcases List.mem_cons.mp hmem with heq | hmem
      · cases heq
      · obtain ⟨finding, hfinding, heq⟩ := List.mem_map.mp hmem
        cases heq
        exact ⟨_, rfl, hfound hfinding⟩

/-- What a task does to a crash, and that it finds nothing new. -/
theorem doTask_found (kind : T → Kind T) (isUpper : Char → Bool) (s : State T) (task : Task T) :
    (doTask kind isUpper s task).1.called = s.called ∧
      .found .unexported ∉ (doTask kind isUpper s task).2 ∧
      ((doTask kind isUpper s task).1.crashed = true →
        s.crashed = true ∨ task = .found .unexported) := by
  cases task with
  | check t =>
      rw [doTask]
      split
      · exact ⟨rfl, List.not_mem_nil, .inl⟩
      · refine ⟨rfl, fun hmem => ?_, .inl⟩
        change Task.found .unexported ∈ opened kind t at hmem
        rw [opened] at hmem
        cases hkind : kind t with
        | struct fields =>
            rw [hkind] at hmem
            obtain ⟨f, -, heq⟩ := List.mem_map.mp hmem
            cases heq
        | elem u => simp [hkind] at hmem
        | map elem key => simp [hkind] at hmem
        | other => simp [hkind] at hmem
  | field t name u =>
      rw [doTask]
      split <;> exact ⟨rfl, by simp, .inl⟩
  | found finding =>
      cases finding with
      | nonZero what => exact ⟨rfl, List.not_mem_nil, .inl⟩
      | unexported => exact ⟨rfl, List.not_mem_nil, fun _ => .inr rfl⟩

/-- **ONE STEP** keeps the blame where it belongs. -/
theorem Blamed.step {e : Event T} (h : Blamed kind isUpper s) (htyped : e.Typed kind)
    (hstep : labStep kind isUpper s e = some s') : Blamed kind isUpper s' := by
  cases e with
  | encode t =>
      obtain ⟨-, hs'⟩ := Option.ite_none_left_eq_some.mp hstep
      obtain rfl := Option.some.inj hs'
      exact h.start fun hfound => absurd hfound List.not_mem_nil
  | decode t value =>
      obtain ⟨-, hs'⟩ := Option.ite_none_left_eq_some.mp hstep
      obtain rfl := Option.some.inj hs'
      exact h.start fun hfound =>
        (flawed_of_unexported htyped hfound).resolve_left (absurd rfl)
  | callNil => exact htyped.elim
  | work i =>
      obtain ⟨-, task, rest, hget, rfl⟩ := worked_at hstep
      obtain ⟨hcalled, hnone, -⟩ := doTask_found kind isUpper s task
      constructor
      · simp only [List.length_set, hcalled]
        exact h.count
      · intro k g hk hmem
        simp only [State.callOf, hcalled]
        rcases eq_or_ne i k with rfl | hne
        · -- what it has left was there before
          rw [List.getElem?_set_self (List.getElem?_eq_some_iff.mp hget).1] at hk
          obtain rfl := Option.some.inj hk
          exact h.tasks i _ hget (List.mem_cons_of_mem task
            ((List.mem_append.mp hmem).resolve_left hnone))
        · rw [List.getElem?_set_ne hne] at hk
          exact h.tasks k g hk hmem

/-- **NO CRASH WITHOUT A LOWER-CASE FIELD**: if calls get values of their types, a goroutine in
    which reflection panics was started for a type that has a lower-case field somewhere; and
    the complaint about it was made before, unless a goroutine is still in `checkType`. -/
theorem crash_is_complained_about {ss : List (State T)}
    (hrun : Run (labStep kind isUpper) (fun _ e => e.Typed kind) .fresh (s :: ss)) {i : Nat}
    (hstep : labStep kind isUpper s (.work i) = some s') (hcrashed : s'.crashed = true) :
    ∃ c, s.callOf i = some c ∧ ∃ u name, Leads (parts kind) c.1 u ∧
      (u, name) ∈ lowerFields kind isUpper u ∧ (s.Settled → (u, name) ∈ s.complaints) := by
  have hkept := kept_run hrun s List.mem_cons_self
  have hblamed : ∀ d ∈ s :: ss, Blamed kind isUpper d :=
    hrun.invariant blamed_fresh fun _ _ _ h htyped hstep => h.step htyped hstep
  -- the task that crashes is the one of a finding
  obtain ⟨hno, task, rest, hget, rfl⟩ := worked_at hstep
  obtain ⟨-, -, hcrash⟩ := doTask_found kind isUpper s task
  obtain rfl : task = .found .unexported := by
    refine (hcrash hcrashed).resolve_left ?_
    rw [hno]
    exact Bool.false_ne_true
  obtain ⟨c, hc, u, name, hlead, hlower⟩ :=
    (hblamed s List.mem_cons_self).tasks i _ hget List.mem_cons_self
  refine ⟨c, hc, u, name, hlead, hlower, fun hsettled => ?_⟩
  have hmem : c ∈ s.called := List.mem_reverse.mp (List.mem_of_getElem? hc)
  have hreached : s.search.Reached (parts kind) u := ⟨c.1, List.mem_map_of_mem hmem, hlead⟩
  have hchecked : u ∈ s.checked := (hkept.sound.marked_iff hsettled.pending u).mpr hreached
  rw [← Multiset.mem_coe, hkept.complaints hsettled]
  exact Multiset.mem_sum.mpr ⟨u, hchecked, Multiset.mem_coe.mpr hlower⟩

/-- A goroutine takes the next step of a run. -/
theorem run_work {ok : State T → Event T → Prop} (hok : ∀ s i, ok s (.work i)) {init : State T}
    {ss : List (State T)} (i : Nat) (h : Run (labStep kind isUpper) ok init (s :: ss))
    (hstep : labStep kind isUpper s (.work i) = some s') :
    Run (labStep kind isUpper) ok init (s' :: s :: ss) := .next (.work i) h (hok s i) hstep

/-- Decoding into a node. -/
theorem crash_is_complained_about_of_node :
    ∃ s ss s', Run (labStep nodeKind Char.isUpper) (fun _ e => e.Typed nodeKind) .fresh
        (s :: ss) ∧ labStep nodeKind Char.isUpper s (.work 0) = some s' ∧ s'.crashed = true ∧
      ∃ c, s.callOf 0 = some c ∧ ∃ u name, Leads (parts nodeKind) c.1 u ∧
        (u, name) ∈ lowerFields nodeKind Char.isUpper u ∧
          (s.Settled → (u, name) ∈ s.complaints) := by
  have htyped : HasType nodeKind (.struct [(['N', 'e', 'x', 't'], false, .nilPtr),
      (['d', 'a', 't', 'a'], false, .basic ['i', 'n', 't'] true)]) 0 := by
    refine .struct rfl rfl fun f hf => ?_
    rcases List.mem_cons.mp hf with rfl | hf
    · exact .nilPtr rfl
    · rw [List.mem_singleton.mp hf]
      exact .basic rfl
  have hwork (s : State (Fin 3)) (i : Nat) : Event.Typed nodeKind (.work i) := trivial
  have hstart : Run (labStep nodeKind Char.isUpper) (fun _ e => e.Typed nodeKind) .fresh
      [State.fresh.start 0 [.unexported], .fresh] := .next (.decode 0 _) .start htyped rfl
  have hchecked := run_work hwork 0 (run_work hwork 0 (run_work hwork 0 hstart rfl) rfl) rfl
  have hrun := run_work hwork 0 (run_work hwork 0 (run_work hwork 0 hchecked rfl) rfl) rfl
  exact ⟨_, _, _, hrun, rfl, rfl, crash_is_complained_about hrun rfl rfl⟩

/-! ## Termination -/

/-- The steps of a task: a field leads to the check of its type. -/
def Task.weight : Task T → Nat
  | .field _ _ _ => 2
  | _ => 1

variable (kind) in
/-- The steps that a type leads to when it is checked for the first time. -/
def cost (t : T) : Nat := ((opened kind t).map Task.weight).sum

variable (kind) in
/-- The steps that are left: those of the tasks, and those of the types not yet checked. -/
def State.left [Fintype T] (s : State T) : Nat :=
  ∑ t ∈ s.checkedᶜ, cost kind t + (s.tasks.map Task.weight).sum

/-- **ONE STEP** of a goroutine is one step less. -/
theorem left_worked [Fintype T] {i : Nat} (h : labStep kind isUpper s (.work i) = some s') :
    s.left kind = s'.left kind + 1 := by
  obtain ⟨task, others, hbefore, hafter, hs'⟩ := worked h
  have hsame {tasks : List (Task T)} (hchecked : s'.checked = s.checked)
      (htasks : (doTask kind isUpper s task).2 = tasks)
      (hweight : task.weight = (tasks.map Task.weight).sum + 1) :
      s.left kind = s'.left kind + 1 := by
    rw [State.left, State.left, hchecked, hbefore, hafter, htasks, Multiset.map_cons,
      Multiset.sum_cons, Multiset.map_add, Multiset.sum_add, Multiset.map_coe, Multiset.sum_coe,
      hweight]
    omega
  cases task with
  | check t =>
      by_cases hchecked : t ∈ s.checked
      · rw [doTask, if_pos hchecked] at hs' hsame
        exact hsame (by rw [hs']) rfl rfl
      · -- its cost goes from the types over to the tasks
        rw [doTask, if_neg hchecked] at hafter hs'
        have hset : s'.checked = insert t s.checked := by rw [hs']
        have hafter : s'.tasks = (opened kind t : Multiset (Task T)) + others := hafter
        have hweight : (Task.check t).weight = 1 := rfl
        have hcost := Finset.add_sum_erase s.checkedᶜ (cost kind)
          (Finset.mem_compl.mpr hchecked)
        rw [State.left, State.left, hset, hbefore, hafter, Finset.compl_insert, ← hcost,
          Multiset.map_cons, Multiset.sum_cons, Multiset.map_add, Multiset.sum_add,
          Multiset.map_coe, Multiset.sum_coe, hweight, cost]
        omega
  | field t name u =>
      by_cases hlower : isLower isUpper name = true
      · rw [doTask, if_pos hlower] at hs' hsame
        exact hsame (by rw [hs']) rfl rfl
      · rw [doTask, if_neg hlower] at hs' hsame
        exact hsame (by rw [hs']) rfl rfl
  | found finding =>
      cases finding with
      | nonZero what => exact hsame (by rw [hs']; rfl) rfl rfl
      | unexported => exact hsame (by rw [hs']; rfl) rfl rfl

/-- A goroutine that has something to do can do it. -/
theorem can_work (hcrashed : s.crashed = false) (hbusy : ¬ s.Idle) :
    ∃ i s', labStep kind isUpper s (.work i) = some s' := by
  obtain ⟨g, hg, hne⟩ : ∃ g ∈ s.goroutines, g ≠ [] := by
    by_contra hnone
    push Not at hnone
    exact hbusy ⟨hcrashed, hnone⟩
  obtain ⟨i, hi, rfl⟩ := List.mem_iff_getElem.mp hg
  obtain ⟨task, rest, htasks⟩ := List.exists_cons_of_ne_nil hne
  have hget : s.goroutines[i]? = some (task :: rest) := by
    rw [List.getElem?_eq_getElem hi, htasks]
  have hstep : (labStep kind isUpper s (.work i)).isSome = true := by
    rw [labStep, hcrashed, if_neg Bool.false_ne_true]
    dsimp only
    rw [hget]
    rfl
  exact ⟨i, Option.isSome_iff_exists.mp hstep⟩

/-- **EVERY CHECK RETURNS**: whatever is scheduled, recursive types included, the goroutines
    take just as many steps as are left, and until then one of them can take a step. -/
theorem every_check_returns [Fintype T] {ss : List (State T)} {c : State T}
    (hrun : Run (labStep kind isUpper) (fun _ e => ∃ i, e = .work i) s (c :: ss)) :
    s.left kind = c.left kind + ss.length ∧
      (c.crashed = false → ¬ c.Idle → ∃ i c', labStep kind isUpper c (.work i) = some c') := by
  refine ⟨hrun.countdown ?_, can_work⟩
  rintro d e d' ⟨i, rfl⟩ hstep
  exact left_worked hstep

/-- A node is passed to `Encode`. -/
theorem every_check_returns_of_node :
    ∃ s ss, Run (labStep nodeKind Char.isUpper) (fun _ e => ∃ i, e = .work i)
        (State.fresh.start 1 []) (s :: ss) ∧ s.Idle ∧ ss.length = 6 ∧
      State.left nodeKind (State.fresh.start 1 []) = s.left nodeKind + ss.length := by
  have hwork (s : State (Fin 3)) (i : Nat) : ∃ j, (.work i : Event (Fin 3)) = .work j := ⟨i, rfl⟩
  have hstart : Run (labStep nodeKind Char.isUpper) (fun _ e => ∃ i, e = .work i)
      (State.fresh.start 1 []) [State.fresh.start 1 []] := .start
  have hopened := run_work hwork 0 (run_work hwork 0 (run_work hwork 0 hstart rfl) rfl) rfl
  have hrun := run_work hwork 0 (run_work hwork 0 (run_work hwork 0 hopened rfl) rfl) rfl
  refine ⟨_, _, hrun, ⟨rfl, fun g hg => ?_⟩, rfl, (every_check_returns hrun).1⟩
  exact List.mem_singleton.mp hg

end Types

end Labgob
