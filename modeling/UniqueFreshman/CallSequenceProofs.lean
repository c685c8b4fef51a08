/-! # Sequences of calls — an object against its specification

    An object answers calls and may fault (`step : S → C → Except E (S × R)`);
    its specification answers the same calls and never does
    (`spec : A → C → A × R`).  If one call of the object answers as the
    specification does and keeps a relation between the two states, then every
    sequence of calls does, as long as each call is allowed in the state the
    specification is in when the call is made.

    `Unless` is for code that returns or stops at one known fault, and
    `held_iff_throughout` for what calls take and never give back. -/

namespace CallSequence

variable {S A C R E : Type}

@[simp] theorem ok_bind {α β : Type} (a : α) (f : α → Except E β) :
    (Except.ok a >>= f) = f a := rfl

@[simp] theorem pure_eq_ok {α : Type} (a : α) : (pure a : Except E α) = .ok a := rfl

/-- Code in two parts returns when both do. -/
theorem bind_eq_ok {α β : Type} {x : Except E α} {f : α → Except E β} {b : β} :
    (x >>= f) = .ok b ↔ ∃ a, x = .ok a ∧ f a = .ok b := by
  cases x with
  | error e =>
      constructor
      · intro h
        cases h
      · rintro ⟨a, h, -⟩
        cases h
  | ok a =>
      constructor
      · intro h
        exact ⟨a, rfl, h⟩
      · rintro ⟨a', h, hb⟩
        rw [Except.ok.inj h]
        exact hb

/-- Code that returns has passed its check. -/
theorem ite_error_eq_ok {α : Type} {b : Prop} [Decidable b] {e : E} {x : Except E α} {a : α} :
    (if b then .error e else x) = .ok a ↔ ¬ b ∧ x = .ok a := by
  by_cases hb : b
  · rw [if_pos hb]
    constructor
    · intro h
      cases h
    · rintro ⟨hnb, -⟩
      exact absurd hb hnb
  · rw [if_neg hb]
    exact (and_iff_right hb).symm

/-! ## Code that may stop at one fault -/

/-- `x` returns a value with `P`, or it stops at the fault `e`, which takes `B`. -/
def Unless {α : Type} (B : Prop) (e : E) (x : Except E α) (P : α → Prop) : Prop :=
  (∃ a, x = .ok a ∧ P a) ∨ (x = .error e ∧ B)

section Unless

variable {α β : Type} {B : Prop} {e : E} {x : Except E α} {P : α → Prop} {Q : β → Prop}

theorem Unless.ok {a : α} (ha : P a) : Unless B e (.ok a) P :=
  .inl ⟨a, rfl, ha⟩

/-- A sequence of which each part may stop at the fault. -/
theorem Unless.bind {f : α → Except E β} (hx : Unless B e x P)
    (hf : ∀ a, P a → Unless B e (f a) Q) : Unless B e (x >>= f) Q := by
  rcases hx with ⟨a, rfl, ha⟩ | ⟨rfl, hB⟩
  · exact hf a ha
  · exact .inr ⟨rfl, hB⟩

theorem Unless.weaken {P' : α → Prop} (hx : Unless B e x P) (hP : ∀ a, P a → P' a) :
    Unless B e x P' := by
  rcases hx with ⟨a, rfl, ha⟩ | hx
  · exact .ok (hP a ha)
  · exact .inr hx

/-- Where the fault is excluded, the code returns. -/
theorem Unless.returns (hx : Unless B e x P) (hB : ¬ B) : ∃ a, x = .ok a ∧ P a :=
  hx.resolve_right fun h => hB h.2

end Unless

/-! ## Sequences -/

/-- A sequence of calls and its answers. -/
def run (step : S → C → Except E (S × R)) (s : S) : List C → Except E (S × List R)
  | [] => .ok (s, [])
  | c :: cs => do
      let (s', answer) ← step s c
      let (s'', answers) ← run step s' cs
      pure (s'', answer :: answers)

/-- The answers the specification gives. -/
def specRun (spec : A → C → A × R) (a : A) : List C → A × List R
  | [] => (a, [])
  | c :: cs =>
      let (a', answers) := specRun spec (spec a c).1 cs
      (a', (spec a c).2 :: answers)

/-- Every call is allowed when it is made. -/
def Throughout (spec : A → C → A × R) (ok : A → C → Prop) (a : A) : List C → Prop
  | [] => True
  | c :: cs => ok a c ∧ Throughout spec ok (spec a c).1 cs

instance decidableThroughout (spec : A → C → A × R) (ok : A → C → Prop)
    [∀ a c, Decidable (ok a c)] (a : A) :
    ∀ cs : List C, Decidable (Throughout spec ok a cs)
  | [] => inferInstanceAs (Decidable True)
  | c :: cs =>
      have := decidableThroughout spec ok (spec a c).1 cs
      inferInstanceAs (Decidable (ok a c ∧ Throughout spec ok (spec a c).1 cs))

variable {step : S → C → Except E (S × R)} {spec : A → C → A × R} {ok : A → C → Prop}

/-- A call, and the calls after it. -/
theorem run_cons {s s' s'' : S} {c : C} {cs : List C} {answer : R} {answers : List R}
    (hc : step s c = .ok (s', answer)) (hcs : run step s' cs = .ok (s'', answers)) :
    run step s (c :: cs) = .ok (s'', answer :: answers) := by
  simp only [run, hc, bind, Except.bind, hcs]
  rfl

/-- A run that returned has returned at every call. -/
theorem run_cons_inv {s s'' : S} {c : C} {cs : List C} {answers : List R}
    (h : run step s (c :: cs) = .ok (s'', answers)) :
    ∃ s' answer rest, step s c = .ok (s', answer) ∧ run step s' cs = .ok (s'', rest) ∧
      answers = answer :: rest := by
  simp only [run, bind, Except.bind] at h
  cases hc : step s c with
  | error e => rw [hc] at h; nomatch h
  | ok p =>
      obtain ⟨s', answer⟩ := p
      cases hcs : run step s' cs with
      | error e => simp only [hc, hcs] at h; nomatch h
      | ok q =>
          obtain ⟨t, rest⟩ := q
          simp only [hc, hcs, pure, Except.pure, Except.ok.injEq, Prod.mk.injEq] at h
          obtain ⟨rfl, rfl⟩ := h
          exact ⟨s', answer, rest, rfl, hcs, rfl⟩

/-- What every call that returns keeps, every sequence that returns keeps. -/
theorem run_invariant {I : S → Prop}
    (hstep : ∀ s c s' answer, I s → step s c = .ok (s', answer) → I s')
    {s s' : S} {cs : List C} {answers : List R} (hs : I s)
    (h : run step s cs = .ok (s', answers)) : I s' := by
  induction cs generalizing s answers with
  | nil =>
      obtain ⟨rfl, -⟩ := Prod.mk.inj (Except.ok.inj h)
      exact hs
  | cons c cs ih =>
      obtain ⟨s₁, answer, rest, hc, hcs, -⟩ := run_cons_inv h
      exact ih (hstep s c s₁ answer hs hc) hcs

/-- Calls that return in every state of an invariant, and keep it, return in a
    row. -/
theorem run_total {I : S → Prop} {P : C → Prop}
    (hstep : ∀ s c, I s → P c → ∃ s' answer, step s c = .ok (s', answer) ∧ I s')
    {s : S} {cs : List C} (hs : I s) (hcs : ∀ c ∈ cs, P c) :
    ∃ s' answers, run step s cs = .ok (s', answers) ∧ I s' := by
  induction cs generalizing s with
  | nil => exact ⟨s, [], rfl, hs⟩
  | cons c cs ih =>
      obtain ⟨s₁, answer, hs₁, hI₁⟩ := hstep s c hs (hcs c (List.mem_cons_self ..))
      obtain ⟨s₂, answers, hs₂, hI₂⟩ :=
        ih hI₁ fun c' hc' => hcs c' (List.mem_cons_of_mem c hc')
      exact ⟨s₂, answer :: answers, run_cons hs₁ hs₂, hI₂⟩

/-- Every call meets a condition in the state the object is in when it is made. -/
def Along (step : S → C → Except E (S × R)) (ok : S → C → Prop) (s : S) : List C → Prop
  | [] => True
  | c :: cs => ok s c ∧
      match step s c with
      | .error _ => True
      | .ok (s', _) => Along step ok s' cs

instance decidableAlong (step : S → C → Except E (S × R)) (ok : S → C → Prop)
    [∀ s c, Decidable (ok s c)] (s : S) : ∀ cs : List C, Decidable (Along step ok s cs)
  | [] => inferInstanceAs (Decidable True)
  | c :: cs =>
      have : Decidable (match step s c with
          | .error _ => True
          | .ok (s', _) => Along step ok s' cs) :=
        match step s c with
        | .error _ => inferInstanceAs (Decidable True)
        | .ok (s', _) => decidableAlong step ok s' cs
      inferInstanceAs (Decidable (_ ∧ _))

/-- Calls that return one answer in every state of an invariant, under a condition, and
    keep it, return that answer each time. -/
theorem run_along {I : S → Prop} {ok : S → C → Prop} {answer : R}
    (hstep : ∀ s c, I s → ok s c → ∃ s', step s c = .ok (s', answer) ∧ I s')
    {s : S} {cs : List C} (hs : I s) (hcs : Along step ok s cs) :
    ∃ s', run step s cs = .ok (s', List.replicate cs.length answer) ∧ I s' := by
  induction cs generalizing s with
  | nil => exact ⟨s, rfl, hs⟩
  | cons c cs ih =>
      obtain ⟨hc, hcs⟩ := hcs
      obtain ⟨s₁, hs₁, hI₁⟩ := hstep s c hs hc
      rw [hs₁] at hcs
      obtain ⟨s₂, hs₂, hI₂⟩ := ih hI₁ hcs
      exact ⟨s₂, run_cons hs₁ hs₂, hI₂⟩

/-- **REFINEMENT OF CALL SEQUENCES.** -/
theorem run_refines {I : A → S → Prop}
    (hstep : ∀ a s c, I a s → ok a c →
      ∃ s', step s c = .ok (s', (spec a c).2) ∧ I (spec a c).1 s')
    {a : A} {s : S} {cs : List C} (hrel : I a s) (hok : Throughout spec ok a cs) :
    ∃ s', run step s cs = .ok (s', (specRun spec a cs).2) ∧
      I (specRun spec a cs).1 s' := by
  induction cs generalizing a s with
  | nil => exact ⟨s, rfl, hrel⟩
  | cons c cs ih =>
      obtain ⟨hc, hcs⟩ := hok
      obtain ⟨s₁, hs₁, hrel₁⟩ := hstep a s c hrel hc
      obtain ⟨s₂, hs₂, hrel₂⟩ := ih hrel₁ hcs
      exact ⟨s₂, run_cons hs₁ hs₂, hrel₂⟩

/-- **TWO OBJECTS THAT NEVER FAULT** answer a sequence alike if they answer each call
    alike, where the first one allows it. -/
theorem specRun_refines {B : Type} {spec' : B → C → B × R} {I : A → B → Prop}
    (hstep : ∀ a b c, I a b → ok a c →
      (spec a c).2 = (spec' b c).2 ∧ I (spec a c).1 (spec' b c).1)
    {a : A} {b : B} {cs : List C} (hrel : I a b) (hok : Throughout spec ok a cs) :
    (specRun spec a cs).2 = (specRun spec' b cs).2 ∧
      I (specRun spec a cs).1 (specRun spec' b cs).1 := by
  induction cs generalizing a b with
  | nil => exact ⟨rfl, hrel⟩
  | cons c cs ih =>
      obtain ⟨hc, hcs⟩ := hok
      obtain ⟨hanswer, hrel'⟩ := hstep a b c hrel hc
      obtain ⟨hanswers, hend⟩ := ih hrel' hcs
      refine ⟨?_, hend⟩
      show (spec a c).2 :: _ = (spec' b c).2 :: _
      rw [hanswer, hanswers]

/-- **A SEQUENCE STOPS AT ONE FAULT ONLY** when each of its calls does, and refines the
    specification otherwise. -/
theorem run_unless {I : A → S → Prop} {e : E}
    (hstep : ∀ a s c, I a s → ok a c → Unless True e (step s c) fun r =>
      r.2 = (spec a c).2 ∧ I (spec a c).1 r.1)
    {a : A} {s : S} {cs : List C} (hrel : I a s) (hok : Throughout spec ok a cs) :
    Unless True e (run step s cs) fun r =>
      r.2 = (specRun spec a cs).2 ∧ I (specRun spec a cs).1 r.1 := by
  induction cs generalizing a s with
  | nil => exact .ok ⟨rfl, hrel⟩
  | cons c cs ih =>
      refine (hstep a s c hrel hok.1).bind fun r ⟨hr, hrel'⟩ => ?_
      refine (ih hrel' hok.2).bind fun r' ⟨hr', hrel''⟩ => .ok ⟨?_, hrel''⟩
      show r.2 :: r'.2 = _
      rw [hr, hr']
      rfl

theorem Throughout.and {ok' : A → C → Prop} {a : A} {cs : List C}
    (h : Throughout spec ok a cs) (h' : Throughout spec ok' a cs) :
    Throughout spec (fun a c => ok a c ∧ ok' a c) a cs := by
  induction cs generalizing a with
  | nil => trivial
  | cons c cs ih => exact ⟨⟨h.1, h'.1⟩, ih h.2 h'.2⟩

theorem Throughout.left {ok' : A → C → Prop} {a : A} {cs : List C}
    (h : Throughout spec (fun a c => ok a c ∧ ok' a c) a cs) : Throughout spec ok a cs := by
  induction cs generalizing a with
  | nil => trivial
  | cons c cs ih => exact ⟨h.1.1, ih h.2⟩

/-- A condition on the last call is one on the state it is made in. -/
theorem throughout_snoc {a : A} {cs : List C} {c : C} :
    Throughout spec ok a (cs ++ [c]) ↔
      Throughout spec ok a cs ∧ ok (specRun spec a cs).1 c := by
  induction cs generalizing a with
  | nil => exact and_comm
  | cons d cs ih =>
      show ok a d ∧ Throughout spec ok _ (cs ++ [c]) ↔ (ok a d ∧ Throughout spec ok _ cs) ∧ _
      rw [ih, and_assoc]
      rfl

/-! ## What calls hold -/

section Held

variable {ι : Type} {held : A → ι → Prop} {P : C → Prop}

/-- What no call takes away is there at the end. -/
theorem specRun_grows (hgrow : ∀ a c i, P c → held a i → held (spec a c).1 i) {a : A}
    {cs : List C} (hcs : ∀ c ∈ cs, P c) {i : ι} (hi : held a i) : held (specRun spec a cs).1 i := by
  induction cs generalizing a with
  | nil => exact hi
  | cons c cs ih =>
      have hc := hgrow a c i (hcs c List.mem_cons_self) hi
      exact ih (fun d hd => hcs d (List.mem_cons_of_mem c hd)) hc

/-- **WHAT IS NEVER GIVEN BACK** is the same at the end of a sequence just when no call took
    anything. -/
theorem held_iff_throughout (hgrow : ∀ a c i, P c → held a i → held (spec a c).1 i)
    (hok : ∀ a c, P c → (ok a c ↔ ∀ i, held (spec a c).1 i → held a i)) {a : A} {cs : List C}
    (hcs : ∀ c ∈ cs, P c) :
    (∀ i, held (specRun spec a cs).1 i ↔ held a i) ↔ Throughout spec ok a cs := by
  induction cs generalizing a with
  | nil => exact ⟨fun _ => trivial, fun _ _ => Iff.rfl⟩
  | cons c cs ih =>
      have hc := hcs c List.mem_cons_self
      have hrest : ∀ d ∈ cs, P d := fun d hd => hcs d (List.mem_cons_of_mem c hd)
      show (∀ i, held (specRun spec (spec a c).1 cs).1 i ↔ held a i) ↔
        ok a c ∧ Throughout spec ok (spec a c).1 cs
      rw [← ih hrest, hok a c hc]
      constructor
      · intro h
        have hkept (i : ι) (hi : held (spec a c).1 i) : held a i :=
          (h i).mp (specRun_grows hgrow hrest hi)
        exact ⟨hkept, fun i => ⟨fun hi => hgrow a c i hc ((h i).mp hi),
          fun hi => specRun_grows hgrow hrest hi⟩⟩
      · rintro ⟨hkept, h⟩ i
        rw [h i]
        exact ⟨hkept i, hgrow a c i hc⟩

end Held

/-- **A SEQUENCE THAT RETURNS** has met, at every call, the condition without
    which the call faults. -/
theorem throughout_of_run {I : A → S → Prop} {fits : A → C → Prop}
    (hstep : ∀ a s c, I a s → ok a c ∧ fits a c →
      ∃ s', step s c = .ok (s', (spec a c).2) ∧ I (spec a c).1 s')
    (hfault : ∀ a s c, I a s → ok a c → ¬ fits a c → ∃ e, step s c = .error e)
    {a : A} {s s' : S} {cs : List C} {answers : List R} (hrel : I a s)
    (hok : Throughout spec ok a cs) (hrun : run step s cs = .ok (s', answers)) :
    Throughout spec fits a cs := by
  induction cs generalizing a s answers with
  | nil => trivial
  | cons c cs ih =>
      obtain ⟨hc, hcs⟩ := hok
      obtain ⟨s₁, answer, rest, hs₁, hrest, -⟩ := run_cons_inv hrun
      by_cases hfit : fits a c
      · obtain ⟨s₂, hs₂, hrel₂⟩ := hstep a s c hrel ⟨hc, hfit⟩
        obtain rfl : s₂ = s₁ := (Prod.mk.inj (Except.ok.inj (hs₂.symm.trans hs₁))).1
        exact ⟨hfit, ih hrel₂ hcs hrest⟩
      · obtain ⟨e, he⟩ := hfault a s c hrel hc hfit
        nomatch he.symm.trans hs₁

/-- One more call after a sequence that returned. -/
theorem run_snoc {s s' : S} {cs : List C} {answers : List R}
    (hcs : run step s cs = .ok (s', answers)) (c : C) :
    run step s (cs ++ [c]) = step s' c >>= fun r => .ok (r.1, answers ++ [r.2]) := by
  induction cs generalizing s answers with
  | nil =>
      obtain ⟨rfl, rfl⟩ := Prod.mk.inj (Except.ok.inj hcs)
      rfl
  | cons d cs ih =>
      obtain ⟨s₁, answer, rest, hd, hrest, rfl⟩ := run_cons_inv hcs
      simp only [List.cons_append, run, hd, ok_bind, ih hrest]
      cases step s' c <;> rfl

end CallSequence
