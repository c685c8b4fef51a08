import Mathlib.Data.Finset.Card
import Mathlib.Data.Fintype.Card
import Mathlib.Data.List.Basic
import Mathlib.Data.List.Infix
import Mathlib.Data.Int.Basic

/-! # Term logs — replicated logs written by one leader per term

    The mathematics of a leader-based replicated log, away from any code.  A
    `Ledger` records, for a set of nodes, what has happened: the term and the
    log of every node, and for every term `T` its leader and `tlog T`, the log
    of that leader (which only that leader extends, and only while at `T`).

    * `Traced`: every entry of a log vouches for everything below it, because
      the log up to that entry is a prefix of `tlog` of the entry's term.  Two
      traced logs that share a term at an index are equal up to it.
    * `Matching`: the invariant of all moves of a ledger (advance a term, lead,
      append, accept a prefix of the leader's log, cut), which makes every log
      traced: LOG MATCHING, `Matching.agree`.

    Votes, acknowledgements and quorums are recorded here and used only for the
    safety of what a majority acknowledged (`TermLogSafetyProofs`). -/

namespace TermLog

/-! ## Traced logs -/

section Traced

variable {E : Type} {term : E → ℤ} {tlog tlog' : ℤ → List E} {L M : List E}

/-- Up to each of its entries, the log is a prefix of that entry's term log. -/
def Traced (term : E → ℤ) (tlog : ℤ → List E) (L : List E) : Prop :=
  ∀ i e, L[i]? = some e → L.take (i + 1) <+: tlog (term e)

theorem traced_nil (term : E → ℤ) (tlog : ℤ → List E) : Traced term tlog [] := by
  intro i e h
  exact nomatch h

/-- Term logs only grow, so tracing survives. -/
theorem Traced.mono (h : Traced term tlog L) (hgrow : ∀ T, tlog T <+: tlog' T) :
    Traced term tlog' L := by
  intro i e he
  exact (h i e he).trans (hgrow _)

/-- Reading inside a prefix. -/
theorem getElem?_of_sub {i : Nat} {e : E} (hM : M <+: L) (h : M[i]? = some e) :
    L[i]? = some e := by
  obtain ⟨t, rfl⟩ := hM
  rw [List.getElem?_append_left (List.getElem?_eq_some_iff.mp h).1]
  exact h

/-- A prefix that is long enough has the same first `k` entries. -/
theorem take_eq_of_sub {k : Nat} (hM : M <+: L) (hk : k ≤ M.length) :
    M.take k = L.take k := by
  obtain ⟨t, rfl⟩ := hM
  rw [List.take_append_of_le_length hk]

/-- A prefix of a traced log is traced. -/
theorem Traced.sub (h : Traced term tlog L) (hM : M <+: L) : Traced term tlog M := by
  intro i e he
  have hlt : i < M.length := (List.getElem?_eq_some_iff.mp he).1
  rw [take_eq_of_sub hM hlt]
  exact h i e (getElem?_of_sub hM he)

/-- One more entry, when the longer log is in the entry's own term log. -/
theorem Traced.snoc {e : E} (h : Traced term tlog L)
    (hL : L ++ [e] <+: tlog (term e)) : Traced term tlog (L ++ [e]) := by
  intro i f hf
  rcases Nat.lt_or_ge i L.length with hlt | hge
  · rw [List.getElem?_append_left hlt] at hf
    rw [List.take_append_of_le_length hlt]
    exact h i f hf
  · have hi : i = L.length := by
      have := (List.getElem?_eq_some_iff.mp hf).1
      rw [List.length_append, List.length_singleton] at this
      omega
    subst hi
    rw [List.getElem?_concat_length] at hf
    rw [← Option.some.inj hf, List.take_of_length_le (by simp)]
    exact hL

/-- **LOG MATCHING** for traced logs: a shared term at an index means equality
    up to that index. -/
theorem Traced.agree {i : Nat} {e f : E} (hL : Traced term tlog L)
    (hM : Traced term tlog M) (he : L[i]? = some e) (hf : M[i]? = some f)
    (hterm : term e = term f) : L.take (i + 1) = M.take (i + 1) := by
  have h1 : L.take (i + 1) <+: tlog (term f) := hterm ▸ hL i e he
  have h2 : M.take (i + 1) <+: tlog (term f) := hM i f hf
  have hlen : (L.take (i + 1)).length = (M.take (i + 1)).length := by
    have := (List.getElem?_eq_some_iff.mp he).1
    have := (List.getElem?_eq_some_iff.mp hf).1
    rw [List.length_take, List.length_take]
    omega
  exact (List.prefix_of_prefix_length_le h1 h2 (le_of_eq hlen)).eq_of_length hlen

end Traced

/-! ## Ledgers and their moves -/

/-- What has happened so far.  `ack v T m`: while at term `T`, node `v` held the
    first `m` entries of `tlog T`.  `ballot v c T L`: `v` voted for `c` in `T`
    when its own log was `L`.  `quorum T`: the voters that elected the leader. -/
structure Ledger (S E : Type) where
  clock : S → ℤ
  log : S → List E
  tlog : ℤ → List E
  leader : ℤ → Option S
  ack : S → ℤ → ℕ → Prop
  ballot : S → S → ℤ → List E → Prop
  quorum : ℤ → Finset S

section Moves

variable {S E : Type}

open Classical in
/-- A log after accepting `M`: kept when it already continues `M`. -/
noncomputable def merge (L M : List E) : List E :=
  if M <+: L then L else M

namespace Ledger

/-- Nothing has happened. -/
def empty (clock : S → ℤ) : Ledger S E where
  clock := clock
  log := fun _ => []
  tlog := fun _ => []
  leader := fun _ => none
  ack := fun _ _ _ => False
  ballot := fun _ _ _ _ => False
  quorum := fun _ => ∅

/-- Node `v` votes for `c` in its term. -/
def vote (a : Ledger S E) (v c : S) : Ledger S E :=
  { a with ballot := fun v' c' T L =>
      a.ballot v' c' T L ∨ (v' = v ∧ c' = c ∧ T = a.clock v ∧ L = a.log v) }

/-- Node `s` becomes the leader of its term, elected by `Q`. -/
def lead (a : Ledger S E) (s : S) (Q : Finset S) : Ledger S E :=
  { a with
    leader := Function.update a.leader (a.clock s) (some s)
    tlog := Function.update a.tlog (a.clock s) (a.log s)
    quorum := Function.update a.quorum (a.clock s) Q
    ack := fun v T m => a.ack v T m ∨ (v = s ∧ T = a.clock s ∧ m = (a.log s).length) }

variable [DecidableEq S]

/-- Node `s` moves to term `t`. -/
def advance (a : Ledger S E) (s : S) (t : ℤ) : Ledger S E :=
  { a with clock := Function.update a.clock s t }

/-- Leader `s` appends `e`. -/
def append (a : Ledger S E) (s : S) (e : E) : Ledger S E :=
  { a with
    log := Function.update a.log s (a.log s ++ [e])
    tlog := Function.update a.tlog (a.clock s) (a.log s ++ [e])
    ack := fun v T m => a.ack v T m ∨ (v = s ∧ T = a.clock s ∧ m = (a.log s).length + 1) }

/-- Node `v` accepts `M`, a prefix of its leader's log. -/
noncomputable def accept (a : Ledger S E) (v : S) (M : List E) : Ledger S E :=
  { a with
    log := Function.update a.log v (merge (a.log v) M)
    ack := fun v' T m => a.ack v' T m ∨ (v' = v ∧ T = a.clock v ∧ m = M.length) }

/-- Node `v` loses everything from position `k` on. -/
def cut (a : Ledger S E) (v : S) (k : ℕ) : Ledger S E :=
  { a with log := Function.update a.log v ((a.log v).take k) }

end Ledger

/-- **THE MATCHING INVARIANT** of a ledger. -/
structure Matching (term : E → ℤ) (a : Ledger S E) : Prop where
  /-- a leader still at its term has exactly the term's log -/
  own : ∀ s T, a.leader T = some s → a.clock s = T → a.log s = a.tlog T
  /-- leaders have reached the terms they lead -/
  past : ∀ s T, a.leader T = some s → T ≤ a.clock s
  /-- nothing was written in a term without a leader -/
  free : ∀ T, a.leader T = none → a.tlog T = []
  logs : ∀ s, Traced term a.tlog (a.log s)
  tlogs : ∀ T, Traced term a.tlog (a.tlog T)

variable {term : E → ℤ} {a : Ledger S E}

theorem matching_empty (term : E → ℤ) (clock : S → ℤ) :
    Matching term (Ledger.empty clock : Ledger S E) where
  own := fun _ _ h => nomatch h
  past := fun _ _ h => nomatch h
  free := fun _ _ => rfl
  logs := fun _ => traced_nil _ _
  tlogs := fun _ => traced_nil _ _

/-- **LOG MATCHING**: two nodes whose logs share a term at an index have equal
    logs up to it. -/
theorem Matching.agree (h : Matching term a) {s t : S} {i : ℕ} {e f : E}
    (he : (a.log s)[i]? = some e) (hf : (a.log t)[i]? = some f)
    (hterm : term e = term f) :
    (a.log s).take (i + 1) = (a.log t).take (i + 1) :=
  (h.logs s).agree (h.logs t) he hf hterm

/-- Votes do not touch the logs. -/
theorem Matching.vote (h : Matching term a) (v c : S) : Matching term (a.vote v c) :=
  ⟨h.own, h.past, h.free, h.logs, h.tlogs⟩

/-! ### Leading a term -/

section Lead

variable {s : S} {Q : Finset S} {T : ℤ}

/-- The new leader leads its term. -/
theorem leader_lead_self : (a.lead s Q).leader (a.clock s) = some s :=
  Function.update_self ..

theorem leader_lead_of_ne (hT : T ≠ a.clock s) : (a.lead s Q).leader T = a.leader T :=
  Function.update_of_ne hT ..

/-- The log of a term begins as its leader's. -/
theorem tlog_lead_self : (a.lead s Q).tlog (a.clock s) = a.log s :=
  Function.update_self ..

theorem tlog_lead_of_ne (hT : T ≠ a.clock s) : (a.lead s Q).tlog T = a.tlog T :=
  Function.update_of_ne hT ..

/-- Leading writes a term log where there was none. -/
theorem Matching.tlog_le_lead (h : Matching term a) (hfree : a.leader (a.clock s) = none)
    (T : ℤ) : a.tlog T <+: (a.lead s Q).tlog T := by
  by_cases hT : T = a.clock s
  · rw [hT, h.free _ hfree]
    exact List.nil_prefix
  · rw [tlog_lead_of_ne hT]

/-- **A TERM WITHOUT A LEADER MAY GET ONE.** -/
theorem Matching.lead (h : Matching term a) (hfree : a.leader (a.clock s) = none) :
    Matching term (a.lead s Q) := by
  have hgrow := h.tlog_le_lead (Q := Q) hfree
  refine ⟨?_, ?_, ?_, fun v => (h.logs v).mono hgrow, ?_⟩
  · intro v T hlead hclock
    by_cases hT : T = a.clock s
    · rw [hT, leader_lead_self] at hlead
      rw [hT, tlog_lead_self, Option.some.inj hlead]
      rfl
    · rw [leader_lead_of_ne hT] at hlead
      rw [tlog_lead_of_ne hT]
      exact h.own v T hlead hclock
  · intro v T hlead
    by_cases hT : T = a.clock s
    · rw [hT, leader_lead_self] at hlead
      rw [hT, Option.some.inj hlead]
      exact le_refl (a.clock v)
    · rw [leader_lead_of_ne hT] at hlead
      exact h.past v T hlead
  · intro T hnone
    have hT : T ≠ a.clock s := by
      rintro rfl
      rw [leader_lead_self] at hnone
      exact nomatch hnone
    rw [leader_lead_of_ne hT] at hnone
    rw [tlog_lead_of_ne hT]
    exact h.free T hnone
  · intro T
    by_cases hT : T = a.clock s
    · rw [hT, tlog_lead_self]
      exact (h.logs s).mono hgrow
    · rw [tlog_lead_of_ne hT]
      exact (h.tlogs T).mono hgrow

end Lead

variable [DecidableEq S]

/-! ### Moving to a later term -/

theorem clock_advance_self {s : S} {t : ℤ} : (a.advance s t).clock s = t :=
  Function.update_self ..

theorem clock_advance_of_ne {s v : S} {t : ℤ} (hv : v ≠ s) :
    (a.advance s t).clock v = a.clock v :=
  Function.update_of_ne hv ..

/-- No clock goes back. -/
theorem clock_le_advance {s : S} {t : ℤ} (ht : a.clock s ≤ t) (v : S) :
    a.clock v ≤ (a.advance s t).clock v := by
  by_cases hv : v = s
  · rw [hv, clock_advance_self]
    exact ht
  · rw [clock_advance_of_ne hv]

/-- A later term of a server touches no log. -/
theorem Matching.advance (h : Matching term a) {s : S} {t : ℤ} (ht : a.clock s ≤ t) :
    Matching term (a.advance s t) := by
  refine ⟨?_, fun v T hlead => le_trans (h.past v T hlead) (clock_le_advance ht v), h.free,
    h.logs, h.tlogs⟩
  intro v T hlead hclock
  -- a node never comes back to a term it led
  have hpast : T ≤ a.clock v := h.past v T hlead
  have hle : a.clock v ≤ T := hclock ▸ clock_le_advance ht v
  exact h.own v T hlead (le_antisymm hle hpast)

/-! ### Appending to the leader's log -/

section Append

variable {s : S} {e : E} {T : ℤ}

theorem log_append_self : (a.append s e).log s = a.log s ++ [e] :=
  Function.update_self ..

theorem log_append_of_ne {v : S} (hv : v ≠ s) : (a.append s e).log v = a.log v :=
  Function.update_of_ne hv ..

/-- What the leader appends is appended to the log of its term. -/
theorem tlog_append_self : (a.append s e).tlog (a.clock s) = a.log s ++ [e] :=
  Function.update_self ..

theorem tlog_append_of_ne (hT : T ≠ a.clock s) : (a.append s e).tlog T = a.tlog T :=
  Function.update_of_ne hT ..

/-- Appending extends the leader's own term log. -/
theorem Matching.tlog_le_append (h : Matching term a)
    (hlead : a.leader (a.clock s) = some s) (T : ℤ) :
    a.tlog T <+: (a.append s e).tlog T := by
  by_cases hT : T = a.clock s
  · rw [hT, tlog_append_self, ← h.own s _ hlead rfl]
    exact List.prefix_append ..
  · rw [tlog_append_of_ne hT]

/-- **THE LEADER MAY APPEND** an entry of its own term. -/
theorem Matching.append (h : Matching term a) (hlead : a.leader (a.clock s) = some s)
    (he : term e = a.clock s) : Matching term (a.append s e) := by
  have hgrow := h.tlog_le_append (e := e) hlead
  have hnew : Traced term (a.append s e).tlog (a.log s ++ [e]) := by
    refine ((h.logs s).mono hgrow).snoc ?_
    rw [he, tlog_append_self]
  refine ⟨?_, h.past, ?_, ?_, ?_⟩
  · intro v T hl hclock
    by_cases hv : v = s
    · have hT : T = a.clock s := hv ▸ hclock.symm
      rw [hv, log_append_self, hT, tlog_append_self]
    · -- a term has one leader, so the appended term is not the term of `v`
      have hT : T ≠ a.clock s := by
        rintro rfl
        exact hv (Option.some.inj (hl.symm.trans hlead))
      rw [log_append_of_ne hv, tlog_append_of_ne hT]
      exact h.own v T hl hclock
  · intro T hnone
    have hT : T ≠ a.clock s := by
      rintro rfl
      exact nomatch hlead.symm.trans hnone
    rw [tlog_append_of_ne hT]
    exact h.free T hnone
  · intro v
    by_cases hv : v = s
    · rw [hv, log_append_self]
      exact hnew
    · rw [log_append_of_ne hv]
      exact (h.logs v).mono hgrow
  · intro T
    by_cases hT : T = a.clock s
    · rw [hT, tlog_append_self]
      exact hnew
    · rw [tlog_append_of_ne hT]
      exact (h.tlogs T).mono hgrow

end Append

/-! ### Following a leader -/

section Follow

variable {v : S} {M : List E}

/-- A follower merges what it is sent. -/
theorem log_accept_self : (a.accept v M).log v = merge (a.log v) M :=
  Function.update_self ..

theorem log_accept_of_ne {s : S} (hs : s ≠ v) : (a.accept v M).log s = a.log s :=
  Function.update_of_ne hs ..

/-- Replacing the log of a node that does not lead its term by a traced one. -/
theorem Matching.setLog (h : Matching term a) {L : List E}
    (hlead : a.leader (a.clock v) ≠ some v) (hL : Traced term a.tlog L) :
    Matching term { a with log := Function.update a.log v L } := by
  refine ⟨?_, h.past, h.free, ?_, h.tlogs⟩
  · intro s T hs hc
    have hne : s ≠ v := by
      rintro rfl
      exact hlead (hc ▸ hs)
    have hlog : Function.update a.log v L s = a.log s := Function.update_of_ne hne ..
    exact hlog.trans (h.own s T hs hc)
  · intro s
    show Traced term a.tlog (Function.update a.log v L s)
    by_cases hs : s = v
    · rw [hs, Function.update_self]
      exact hL
    · rw [Function.update_of_ne hs]
      exact h.logs s

omit [DecidableEq S] in
/-- A beginning of the term's log, merged into any traced log, leaves a traced log. -/
theorem Matching.traced_merge (h : Matching term a) (hM : M <+: a.tlog (a.clock v)) :
    Traced term a.tlog (merge (a.log v) M) := by
  rw [merge]
  split
  · exact h.logs v
  · exact (h.tlogs _).sub hM

/-- **A FOLLOWER MAY ACCEPT** any beginning of the log of its term. -/
theorem Matching.accept (h : Matching term a) (hlead : a.leader (a.clock v) ≠ some v)
    (hM : M <+: a.tlog (a.clock v)) : Matching term (a.accept v M) := by
  have hset := h.setLog hlead (h.traced_merge hM)
  exact ⟨hset.own, hset.past, hset.free, hset.logs, hset.tlogs⟩

/-- A server may lose the end of its log, unless it leads. -/
theorem Matching.cut (h : Matching term a) (k : ℕ)
    (hlead : a.leader (a.clock v) ≠ some v) : Matching term (a.cut v k) :=
  h.setLog hlead ((h.logs v).sub ( List.take_prefix ..))

end Follow

end Moves

end TermLog
