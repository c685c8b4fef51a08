import Mathlib.Data.List.Chain
import Mathlib.Logic.Relation
import Mathlib.Order.Basic

/-! # Guarded runs — every state a step function visits

    A system is a partial step function: `step c e = some c'` when event `e`
    can happen in state `c`.  A guarded run is the list of the states visited
    from `init`, latest first, along steps that all meet a condition `ok` on
    the state before the step.  Facts about whole runs come from a few rules:

    * `Run.invariant` — what holds at the start and is kept by every guarded
      step holds in every visited state (`Run.invariant_of_history`: under a
      condition on the run so far);
    * `Run.rel_head` — a relation between the states of every step that
      composes holds along the run (`Run.le_head`: what never decreases);
    * `Run.isChain_iff` — if the condition is exactly what a step needs for a
      property, it is exactly what a run needs to have it in every step.

    `exec` replays a list of events, so that a concrete run is an evaluation.

    `Reaches` forgets the states in between.  A relation between the states of
    two systems that every step of one keeps, by steps of the other, is a
    simulation; it carries over to all reachable states (`Reaches.simulate`). -/

namespace GuardedRun

variable {σ ε : Type}

/-- The states of a run, latest first. -/
inductive Run (step : σ → ε → Option σ) (ok : σ → ε → Prop) (init : σ) :
    List σ → Prop where
  | start : Run step ok init [init]
  | next {c c' : σ} {cs : List σ} (e : ε) : Run step ok init (c :: cs) → ok c e →
      step c e = some c' → Run step ok init (c' :: c :: cs)

/-- No condition on the steps. -/
def Always : σ → ε → Prop := fun _ _ => True

variable {step : σ → ε → Option σ} {ok ok' : σ → ε → Prop} {init : σ}

/-- A run is never empty. -/
theorem Run.ne_nil {cs : List σ} (h : Run step ok init cs) : cs ≠ [] := by
  cases h <;> exact List.cons_ne_nil _ _

/-- A run under a stronger condition is a run under a weaker one. -/
theorem Run.weaken (hok : ∀ c e, ok c e → ok' c e) {cs : List σ}
    (h : Run step ok init cs) : Run step ok' init cs := by
  induction h with
  | start => exact .start
  | next e _ hc hs ih => exact .next e ih (hok _ _ hc) hs

/-- **INVARIANT RULE**: what holds initially and is kept by every guarded step
    holds in every visited state. -/
theorem Run.invariant {I : σ → Prop} (hinit : I init)
    (hstep : ∀ c e c', I c → ok c e → step c e = some c' → I c')
    {cs : List σ} (h : Run step ok init cs) : ∀ c ∈ cs, I c := by
  induction h with
  | start =>
      intro c hc
      rw [List.mem_singleton.mp hc]
      exact hinit
  | next e _ hok hs ih =>
      intro c hc
      rcases List.mem_cons.mp hc with rfl | hmem
      · exact hstep _ e _ (ih _ (List.mem_cons_self ..)) hok hs
      · exact ih c hmem

/-- A run may assume any invariant of its steps in its condition. -/
theorem Run.assume {I : σ → Prop} (hinit : I init)
    (hstep : ∀ c e c', I c → ok c e → step c e = some c' → I c')
    {cs : List σ} (h : Run step ok init cs) :
    Run step (fun c e => ok c e ∧ I c) init cs := by
  induction h with
  | start => exact .start
  | next e hrun hok hs ih =>
      have hI := hrun.invariant hinit hstep _ (List.mem_cons_self ..)
      exact .next e ih ⟨hok, hI⟩ hs

/-- The run up to one of its states. -/
theorem Run.upTo {c : σ} {cs : List σ} (h : Run step ok init cs) (hc : c ∈ cs) :
    ∃ ds, Run step ok init (c :: ds) ∧ ∀ d ∈ c :: ds, d ∈ cs := by
  induction h with
  | start =>
      rw [List.mem_singleton.mp hc]
      exact ⟨[], .start, fun _ hd => hd⟩
  | next e hrun hok hs ih =>
      rcases List.mem_cons.mp hc with rfl | hmem
      · exact ⟨_, .next e hrun hok hs, fun _ hd => hd⟩
      · obtain ⟨ds, hds, hsub⟩ := ih hmem
        exact ⟨ds, hds, fun d hd => List.mem_cons_of_mem _ (hsub d hd)⟩

/-- **HISTORY RULE**: an invariant may be kept by the steps under a condition on the run
    so far, which the runs before the latest step meet too. -/
theorem Run.invariant_of_history {I : σ → Prop} {Q : List σ → Prop} (hinit : I init)
    (htail : ∀ c cs, Q (c :: cs) → Q cs)
    (hstep : ∀ c cs e c', Run step ok init (c :: cs) → Q (c' :: c :: cs) → I c → ok c e →
      step c e = some c' → I c')
    {cs : List σ} (h : Run step ok init cs) (hQ : Q cs) : ∀ c ∈ cs, I c := by
  induction h with
  | start =>
      intro c hc
      rw [List.mem_singleton.mp hc]
      exact hinit
  | next e hrun hok hs ih =>
      have hall := ih (htail _ _ hQ)
      intro c hc
      rcases List.mem_cons.mp hc with rfl | hmem
      · exact hstep _ _ e _ hrun hQ (hall _ (List.mem_cons_self ..)) hok hs
      · exact hall c hmem

/-- **ORDER RULE**: what relates the states of every step, and composes, relates every
    state to the latest one. -/
theorem Run.rel_head {R : σ → σ → Prop} {Q : List σ → Prop} (hrefl : ∀ c, R c c)
    (htrans : ∀ a b c, R a b → R b c → R a c) (htail : ∀ c cs, Q (c :: cs) → Q cs)
    (hstep : ∀ c cs e c', Run step ok init (c :: cs) → Q (c' :: c :: cs) → ok c e →
      step c e = some c' → R c c')
    {c : σ} {cs : List σ} (h : Run step ok init (c :: cs)) (hQ : Q (c :: cs)) :
    ∀ d ∈ c :: cs, R d c := by
  generalize hcs : c :: cs = l at h hQ
  induction h generalizing c cs with
  | start =>
      obtain ⟨rfl, rfl⟩ := List.cons.inj hcs
      intro d hd
      rw [List.mem_singleton.mp hd]
      exact hrefl c
  | next e hrun hok hs ih =>
      obtain ⟨rfl, rfl⟩ := List.cons.inj hcs
      intro d hd
      rcases List.mem_cons.mp hd with rfl | hmem
      · exact hrefl d
      · exact htrans _ _ _ (ih rfl (htail _ _ hQ) d hmem) (hstep _ _ e _ hrun hQ hok hs)

/-- **MONOTONE RULE**: a measure that no guarded step lowers is highest in the
    latest state. -/
theorem Run.le_head {α : Type} [Preorder α] {f : σ → α}
    (hstep : ∀ c e c', ok c e → step c e = some c' → f c ≤ f c')
    {c : σ} {cs : List σ} (h : Run step ok init (c :: cs)) :
    ∀ d ∈ c :: cs, f d ≤ f c :=
  h.rel_head (R := fun d c => f d ≤ f c) (Q := fun _ => True) (fun _ => le_refl _)
    (fun _ _ _ => le_trans) (fun _ _ h => h) (fun _ _ e _ _ _ hok hs => hstep _ e _ hok hs)
    trivial

/-- **COUNTDOWN RULE**: a measure that every guarded step lowers by one counts the steps. -/
theorem Run.countdown {f : σ → Nat}
    (hstep : ∀ c e c', ok c e → step c e = some c' → f c = f c' + 1)
    {c : σ} {cs : List σ} (h : Run step ok init (c :: cs)) : f init = f c + cs.length := by
  generalize hcs : c :: cs = l at h
  induction h generalizing c cs with
  | start =>
      obtain ⟨rfl, rfl⟩ := List.cons.inj hcs
      rfl
  | next e hrun hok hs ih =>
      obtain ⟨rfl, rfl⟩ := List.cons.inj hcs
      rw [ih rfl, hstep _ e _ hok hs, List.length_cons, Nat.add_right_comm, Nat.add_assoc]

/-- **EXACT CONDITION RULE**: if in the states of guarded runs a step has property `R`
    just when it meets the condition, then the runs with `R` in all steps are the guarded
    ones. -/
theorem Run.isChain_iff {R : σ → σ → Prop}
    (hstep : ∀ c cs e c', Run step ok init (c :: cs) → step c e = some c' →
      (R c' c ↔ ok c e))
    {cs : List σ} (h : Run step Always init cs) : cs.IsChain R ↔ Run step ok init cs := by
  induction h with
  | start => exact iff_of_true (List.isChain_singleton _) .start
  | next e _ _ hs ih =>
      rw [List.isChain_cons_cons, ih]
      constructor
      · rintro ⟨hR, hrun⟩
        exact .next e hrun ((hstep _ _ e _ hrun hs).mp hR) hs
      · intro hrun
        cases hrun with
        | next e' hprev hok hs' => exact ⟨(hstep _ _ e' _ hprev hs').mpr hok, hprev⟩

/-! ## Reachable states and simulation -/

/-- A state and one that a step leads to. -/
def Moves (step : σ → ε → Option σ) (c c' : σ) : Prop := ∃ e, step c e = some c'

/-- The states that can be reached. -/
def Reaches (step : σ → ε → Option σ) : σ → σ → Prop := Relation.ReflTransGen (Moves step)

theorem Reaches.next {c c' : σ} (h : Reaches step init c) {e : ε} (hs : step c e = some c') :
    Reaches step init c' :=
  Relation.ReflTransGen.tail h ⟨e, hs⟩

theorem Reaches.invariant {I : σ → Prop} (hinit : I init)
    (hstep : ∀ c e c', I c → step c e = some c' → I c') {c : σ} (h : Reaches step init c) :
    I c := by
  induction h with
  | refl => exact hinit
  | tail _ hmove ih =>
      obtain ⟨e, hs⟩ := hmove
      exact hstep _ e _ ih hs

/-- Replay events and keep the last state only. -/
def steps (step : σ → ε → Option σ) (c : σ) (es : List ε) : Option σ := es.foldlM step c

theorem steps_cons {c c' c'' : σ} {e : ε} {es : List ε} (he : step c e = some c')
    (hes : steps step c' es = some c'') : steps step c (e :: es) = some c'' := by
  rw [steps, List.foldlM_cons, he]
  exact hes

theorem reaches_of_steps {es : List ε} {c c' : σ} (h : steps step c es = some c') :
    Reaches step c c' := by
  induction es generalizing c with
  | nil =>
      rw [Option.some.inj h]
      exact .refl
  | cons e es ih =>
      obtain ⟨d, hd, hes⟩ := Option.bind_eq_some_iff.mp h
      exact .head ⟨e, hd⟩ (ih hes)

/-- **SIMULATION RULE**: a relation that holds at the start and that every step keeps, by
    any number of steps of the other system, holds between reachable states. -/
theorem Reaches.simulate {τ δ : Type} {spec : τ → δ → Option τ} {R : σ → τ → Prop} {a : τ}
    (hinit : R init a)
    (hstep : ∀ c e c' a, R c a → step c e = some c' → ∃ a', Reaches spec a a' ∧ R c' a')
    {c : σ} (h : Reaches step init c) : ∃ a', Reaches spec a a' ∧ R c a' := by
  induction h with
  | refl => exact ⟨a, .refl, hinit⟩
  | tail _ hmove ih =>
      obtain ⟨e, hs⟩ := hmove
      obtain ⟨b, hab, hR⟩ := ih
      obtain ⟨b', hbb', hR'⟩ := hstep _ e _ b hR hs
      exact ⟨b', hab.trans hbb', hR'⟩

/-! ## Concrete runs -/

instance (c : σ) (e : ε) : Decidable (Always c e) :=
  isTrue trivial

/-- Replay events, collecting the visited states in front of `cs`; a replay
    stops without result at a step that is not enabled or not allowed. -/
def exec (step : σ → ε → Option σ) (ok : σ → ε → Prop) [∀ c e, Decidable (ok c e)] :
    σ → List σ → List ε → Option (List σ)
  | c, cs, [] => some (c :: cs)
  | c, cs, e :: es =>
      if ok c e then
        match step c e with
        | some c' => exec step ok c' (c :: cs) es
        | none => none
      else none

/-- A replay visits a run. -/
theorem run_of_exec [∀ c e, Decidable (ok c e)] {es : List ε} {c : σ} {cs l : List σ}
    (hrun : Run step ok init (c :: cs)) (h : exec step ok c cs es = some l) :
    Run step ok init l := by
  induction es generalizing c cs with
  | nil =>
      rw [← Option.some.inj h]
      exact hrun
  | cons e es ih =>
      rw [exec] at h
      by_cases hok : ok c e
      · rw [if_pos hok] at h
        cases hs : step c e with
        | none => rw [hs] at h; exact nomatch h
        | some c' =>
            rw [hs] at h
            exact ih (.next e hrun hok hs) h
      · rw [if_neg hok] at h
        exact nomatch h

/-- The states visited by replaying `es` from `init`. -/
def replay (step : σ → ε → Option σ) (ok : σ → ε → Prop) [∀ c e, Decidable (ok c e)]
    (init : σ) (es : List ε) : List σ :=
  (exec step ok init [] es).getD []

theorem run_replay [∀ c e, Decidable (ok c e)] (es : List ε)
    (h : (exec step ok init [] es).isSome = true) :
    Run step ok init (replay step ok init es) := by
  obtain ⟨l, hl⟩ := Option.isSome_iff_exists.mp h
  have heq : replay step ok init es = l := by
    rw [replay, hl, Option.getD_some]
  rw [heq]
  exact run_of_exec .start hl

/-- A replay whose last state has a property shows that a run can reach it. -/
theorem run_reaches [∀ c e, Decidable (ok c e)] {P : σ → Prop} (es : List ε)
    (h : ∃ c ∈ (replay step ok init es).head?, P c) :
    ∃ c cs, Run step ok init (c :: cs) ∧ P c := by
  obtain ⟨c, hc, hP⟩ := h
  cases hex : exec step ok init [] es with
  | none =>
      rw [replay, hex] at hc
      exact nomatch hc
  | some l =>
      rw [replay, hex, Option.getD_some] at hc
      obtain ⟨cs, rfl⟩ := List.head?_eq_some_iff.mp hc
      exact ⟨c, cs, run_of_exec .start hex, hP⟩

/-- The same for a property of the last step of a replay. -/
theorem run_steps [∀ c e, Decidable (ok c e)] {P : σ → σ → Prop} (es : List ε)
    (h : ∃ c' ∈ (replay step ok init es).head?,
      ∃ c ∈ (replay step ok init es).tail.head?, P c c') :
    ∃ c c' cs, Run step ok init (c' :: c :: cs) ∧ P c c' := by
  obtain ⟨c', hc', c, hc, hP⟩ := h
  cases hex : exec step ok init [] es with
  | none =>
      rw [replay, hex] at hc'
      exact nomatch hc'
  | some l =>
      rw [replay, hex, Option.getD_some] at hc hc'
      obtain ⟨cs, rfl⟩ := List.head?_eq_some_iff.mp hc'
      obtain ⟨ds, rfl⟩ := List.head?_eq_some_iff.mp hc
      exact ⟨c, c', ds, run_of_exec .start hex, hP⟩

end GuardedRun
