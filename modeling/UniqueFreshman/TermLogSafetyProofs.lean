import UniqueFreshman.TermLogProofs

/-! # Chosen marks — what enough nodes acknowledged is never lost

    A MARK is a position of a term log whose entry is of that very term; it is
    CHOSEN when at least half of the nodes acknowledged it.  Leaders are elected
    by a majority.  The theorem of this file is leader completeness: the log of
    every later term carries every chosen mark (`chosen_carried`), so chosen
    marks never disagree (`chosen_agree`).

    The argument is local.  Three facts are kept by every move, each about ONE
    node `v` that acknowledged a mark, and each under the proviso that the
    terms in between carry the mark:

    * `retain` — the mark is still in the log of `v`;
    * `ballots` — it was in the log `v` had when it voted in a later term;
    * `elected` — it is in the log of the leader `v` helped to elect.

    The proviso is discharged by induction on the term: a half and a majority
    always meet. -/

namespace TermLogSafety

open TermLog

variable {S E : Type} {term : E → ℤ} {a b : Ledger S E}

/-! ## Marks -/

/-- The first `i + 1` entries of the log of term `T`. -/
def mark (a : Ledger S E) (T : ℤ) (i : ℕ) : List E :=
  (a.tlog T).take (i + 1)

/-- Entry `i` of the log of term `T` is of term `T` itself. -/
def Live (term : E → ℤ) (a : Ledger S E) (T : ℤ) (i : ℕ) : Prop :=
  ∃ e, (a.tlog T)[i]? = some e ∧ term e = T

/-- Terms do not decrease along the log. -/
def Sorted (term : E → ℤ) (L : List E) : Prop :=
  L.Pairwise fun e f => term e ≤ term f

/-- Log `C` is at least as up to date as `L`. -/
def UpToDate (term : E → ℤ) (C L : List E) : Prop :=
  ∀ e, L.getLast? = some e → ∃ f, C.getLast? = some f ∧
    (term e < term f ∨ (term e = term f ∧ L.length ≤ C.length))

/-- If the terms above `T` that satisfy `D` carry the mark, so does `X`. -/
def Kept (a : Ledger S E) (T : ℤ) (i : ℕ) (D : ℤ → Prop) (X : List E) : Prop :=
  (∀ W, T < W → D W → mark a T i <+: a.tlog W) → mark a T i <+: X

/-- Terms do not fall along a log. -/
theorem Sorted.le {L : List E} (h : Sorted term L) {i j : ℕ} {e f : E} (hij : i ≤ j)
    (he : L[i]? = some e) (hf : L[j]? = some f) : term e ≤ term f := by
  obtain ⟨hi, rfl⟩ := List.getElem?_eq_some_iff.mp he
  obtain ⟨hj, rfl⟩ := List.getElem?_eq_some_iff.mp hf
  rcases Nat.lt_or_ge i j with hlt | hge
  · exact List.pairwise_iff_getElem.mp h i j hi hj hlt
  · obtain rfl : i = j := by omega
    exact le_refl _

theorem Sorted.sub {L M : List E} (h : Sorted term L) (hM : M <+: L) : Sorted term M :=
  List.Pairwise.sublist hM.sublist h

theorem UpToDate.refl (term : E → ℤ) (L : List E) : UpToDate term L L :=
  fun e he => ⟨e, he, .inr ⟨rfl, le_refl _⟩⟩

/-- The last entry, by its index. -/
theorem getElem?_of_getLast? {L : List E} {e : E} (h : L.getLast? = some e) :
    L[L.length - 1]? = some e := by
  rw [← List.getLast?_eq_getElem?]
  exact h

/-- A traced log is a prefix of the term log of its last entry. -/
theorem sub_of_getLast? {tlog : ℤ → List E} {L : List E} {e : E}
    (h : Traced term tlog L) (he : L.getLast? = some e) : L <+: tlog (term e) := by
  have htake := h _ e (getElem?_of_getLast? he)
  have hlen : L.length ≤ L.length - 1 + 1 := by omega
  rwa [List.take_of_length_le hlen] at htake

/-- Where a mark is, its entry is. -/
theorem Live.getElem? {T : ℤ} {i : ℕ} {X : List E} (h : Live term a T i)
    (hX : mark a T i <+: X) : ∃ e, X[i]? = some e ∧ term e = T := by
  obtain ⟨e, he, hterm⟩ := h
  refine ⟨e, getElem?_of_sub hX ?_, hterm⟩
  rw [mark, List.getElem?_take_of_lt (Nat.lt_succ_self i)]
  exact he

/-- A mark reaches up to its index, which it includes. -/
theorem Live.length_mark {T : ℤ} {i : ℕ} (h : Live term a T i) :
    (mark a T i).length = i + 1 := by
  obtain ⟨e, he, -⟩ := h
  have hlt : i < (a.tlog T).length := (List.getElem?_eq_some_iff.mp he).1
  rw [mark, List.length_take]
  omega

/-- **DOMINATION**: a log that is at least as up to date as one that carries a
    mark carries it too, if the term of its last entry does. -/
theorem dominate {T : ℤ} {i : ℕ} {C L : List E} (hlive : Live term a T i)
    (hL : Traced term a.tlog L) (hLs : Sorted term L) (hC : Traced term a.tlog C)
    (hsort : ∀ W, Sorted term (a.tlog W)) (hup : UpToDate term C L)
    (hmark : mark a T i <+: L)
    (hlater : ∀ e, C.getLast? = some e → T < term e → mark a T i <+: a.tlog (term e)) :
    mark a T i <+: C := by
  obtain ⟨x, hx, hxT⟩ := hlive.getElem? hmark
  have hi : i < L.length := (List.getElem?_eq_some_iff.mp hx).1
  obtain ⟨e, he⟩ : ∃ e, L.getLast? = some e :=
    ⟨_, List.getLast?_eq_some_getLast (List.ne_nil_of_length_pos (by omega))⟩
  have hTe : T ≤ term e := by
    rw [← hxT]
    exact hLs.le (by omega) hx (getElem?_of_getLast? he)
  obtain ⟨f, hf, hcmp⟩ := hup e he
  have hCf := sub_of_getLast? hC hf
  rcases lt_or_eq_of_le (show T ≤ term f by omega) with hlt | heq
  · -- the candidate's last term is later: that term carries the mark, strictly inside
    have hW := hlater f hf hlt
    obtain ⟨y, hy, hyT⟩ := hlive.getElem? hW
    have hlen : i + 1 ≤ C.length := by
      by_contra hshort
      have hlast := getElem?_of_sub hCf (getElem?_of_getLast? hf)
      have := (hsort _).le (show C.length - 1 ≤ i by omega) hlast hy
      omega
    refine List.prefix_of_prefix_length_le hW hCf ?_
    rw [hlive.length_mark]
    exact hlen
  · -- both logs end in term `T`: the longer one continues the shorter
    have hLf := sub_of_getLast? hL he
    rw [show term e = term f by omega] at hLf
    have hsub : L <+: C := List.prefix_of_prefix_length_le hLf hCf (by omega)
    exact hmark.trans hsub

/-! ## How a ledger grows -/

/-- `b` continues `a`: leaders, acknowledgements and votes stay, term logs grow,
    and what is added to the log of a led term is of that term. -/
structure Extends (term : E → ℤ) (a b : Ledger S E) : Prop where
  tlog : ∀ T, a.tlog T <+: b.tlog T
  leader : ∀ T s, a.leader T = some s → b.leader T = some s
  ack : ∀ v T m, a.ack v T m → b.ack v T m
  ballot : ∀ v c T L, a.ballot v c T L → b.ballot v c T L
  fresh : ∀ W i e, a.leader W ≠ none → (a.tlog W).length ≤ i →
    (b.tlog W)[i]? = some e → term e = W

/-- Moves that touch neither leaders nor term logs. -/
theorem Extends.of_eq (htlog : b.tlog = a.tlog) (hleader : b.leader = a.leader)
    (hack : ∀ v T m, a.ack v T m → b.ack v T m)
    (hballot : ∀ v c T L, a.ballot v c T L → b.ballot v c T L) : Extends term a b := by
  refine ⟨fun T => ?_, fun T s h => ?_, hack, hballot, fun W i e _ hi he => ?_⟩
  · rw [htlog]
  · rw [hleader]
    exact h
  · rw [htlog] at he
    have : i < (a.tlog W).length := (List.getElem?_eq_some_iff.mp he).1
    omega

theorem Extends.refl (a : Ledger S E) : Extends term a a :=
  .of_eq rfl rfl (fun _ _ _ h => h) fun _ _ _ _ h => h

/-- A term that has a leader keeps having one. -/
theorem Extends.led (h : Extends term a b) {T : ℤ} (hT : a.leader T ≠ none) :
    b.leader T ≠ none := by
  obtain ⟨s, hs⟩ := Option.ne_none_iff_exists'.mp hT
  rw [h.leader T s hs]
  exact Option.some_ne_none s

/-- An acknowledged position is inside the old log, so its mark is unchanged. -/
theorem Extends.mark_eq (h : Extends term a b) {T : ℤ} {i : ℕ}
    (hi : i < (a.tlog T).length) : mark b T i = mark a T i :=
  (take_eq_of_sub (h.tlog T) hi).symm

/-- A mark that is live stays live. -/
theorem Extends.live (h : Extends term a b) {T : ℤ} {i : ℕ} (hlive : Live term a T i) :
    Live term b T i := by
  obtain ⟨e, he, hterm⟩ := hlive
  exact ⟨e, getElem?_of_sub (h.tlog T) he, hterm⟩

/-- A mark inside of the old log was live before. -/
theorem Extends.live_back (h : Extends term a b) {T : ℤ} {i : ℕ}
    (hi : i < (a.tlog T).length) (hlive : Live term b T i) : Live term a T i := by
  obtain ⟨e, he, hterm⟩ := hlive
  have hget := List.getElem?_eq_getElem hi
  have heq := getElem?_of_sub (h.tlog T) hget
  rw [he] at heq
  exact ⟨_, hget, Option.some.inj heq ▸ hterm⟩

/-- A later term that carries a mark already carried it: what was added to it
    is of its own term. -/
theorem Extends.carried_back (h : Extends term a b) {T W : ℤ} {i : ℕ}
    (hlive : Live term a T i) (hTW : T < W) (hW : a.leader W ≠ none)
    (hmark : mark a T i <+: b.tlog W) : mark a T i <+: a.tlog W := by
  refine List.prefix_of_prefix_length_le hmark (h.tlog W) ?_
  by_contra hlong
  rw [hlive.length_mark] at hlong
  obtain ⟨e, he, hterm⟩ := hlive.getElem? hmark
  have := h.fresh W i e hW (by omega) he
  omega

/-- **KEPT IS STABLE**: along a move, for a mark inside the old log, when the
    terms looked at only become more and were led before. -/
theorem Kept.mono {T : ℤ} {i : ℕ} {D D' : ℤ → Prop} {X X' : List E}
    (hkept : Kept a T i D X) (h : Extends term a b) (hlive : Live term a T i)
    (hi : i < (a.tlog T).length) (hD : ∀ W, T < W → D W → D' W ∧ a.leader W ≠ none)
    (hX : mark a T i <+: X → (∀ W, T < W → D' W → mark a T i <+: b.tlog W) →
      mark a T i <+: X') :
    Kept b T i D' X' := by
  intro hsafe
  rw [h.mark_eq hi] at hsafe ⊢
  refine hX (hkept fun W hTW hW => ?_) hsafe
  obtain ⟨hW', hled⟩ := hD W hTW hW
  exact h.carried_back hlive hTW hled (hsafe W hTW hW')

theorem extends_vote (v c : S) : Extends term a (a.vote v c) :=
  .of_eq rfl rfl (fun _ _ _ h => h) fun _ _ _ _ h => .inl h

/-- A new leader gives its term a log, and touches no other. -/
theorem extends_lead (h : Matching term a) {s : S} {Q : Finset S}
    (hfree : a.leader (a.clock s) = none) : Extends term a (a.lead s Q) := by
  refine ⟨h.tlog_le_lead hfree, fun T v hv => ?_, fun _ _ _ h => .inl h, fun _ _ _ _ h => h,
    ?_⟩
  · have hT : T ≠ a.clock s := by
      rintro rfl
      exact nomatch hfree.symm.trans hv
    rw [leader_lead_of_ne hT]
    exact hv
  · intro W i e hW hi he
    have hne : W ≠ a.clock s := by
      rintro rfl
      exact hW hfree
    rw [tlog_lead_of_ne hne] at he
    have : i < (a.tlog W).length := (List.getElem?_eq_some_iff.mp he).1
    omega

variable [DecidableEq S]

theorem extends_advance (s : S) (t : ℤ) : Extends term a (a.advance s t) :=
  .of_eq rfl rfl (fun _ _ _ h => h) fun _ _ _ _ h => h

/-- The leader's log of its term grows at its end. -/
theorem extends_append (h : Matching term a) {s : S} {e : E}
    (hlead : a.leader (a.clock s) = some s) (he : term e = a.clock s) :
    Extends term a (a.append s e) := by
  refine ⟨h.tlog_le_append hlead, fun _ _ h => h, fun _ _ _ h => .inl h, fun _ _ _ _ h => h,
    ?_⟩
  intro W i f _ hi hf
  by_cases hW : W = a.clock s
  · rw [hW, ← h.own s _ hlead rfl] at hi
    rw [hW, tlog_append_self, List.getElem?_append_right hi] at hf
    rw [List.mem_singleton.mp (List.mem_of_getElem? hf), he, hW]
  · rw [tlog_append_of_ne hW] at hf
    have : i < (a.tlog W).length := (List.getElem?_eq_some_iff.mp hf).1
    omega

theorem extends_accept (v : S) (M : List E) : Extends term a (a.accept v M) :=
  .of_eq rfl rfl (fun _ _ _ h => .inl h) fun _ _ _ _ h => h

omit [DecidableEq S] in
theorem Extends.trans {d : Ledger S E} (h : Extends term a b) (h' : Extends term b d) :
    Extends term a d := by
  refine ⟨fun T => (h.tlog T).trans (h'.tlog T), fun T s hs => h'.leader T s (h.leader T s hs),
    fun v T m hm => h'.ack v T m (h.ack v T m hm),
    fun v c T L hb => h'.ballot v c T L (h.ballot v c T L hb), ?_⟩
  intro W i e hW hi he
  by_cases hlen : (b.tlog W).length ≤ i
  · exact h'.fresh W i e (h.led hW) hlen he
  · have hget := List.getElem?_eq_getElem (show i < (b.tlog W).length by omega)
    have heq := getElem?_of_sub (h'.tlog W) hget
    rw [he] at heq
    exact h.fresh W i e hW hi (hget.trans heq.symm)

/-! ## Logs in order -/

/-- Terms do not decrease and stay below `bound`. -/
structure InOrder (term : E → ℤ) (L : List E) (bound : ℤ) : Prop where
  sorted : Sorted term L
  bounded : ∀ e ∈ L, term e ≤ bound

theorem InOrder.mono {L : List E} {t t' : ℤ} (h : InOrder term L t) (ht : t ≤ t') :
    InOrder term L t' :=
  ⟨h.sorted, fun e he => le_trans (h.bounded e he) ht⟩

theorem InOrder.sub {L M : List E} {t : ℤ} (h : InOrder term L t) (hM : M <+: L) :
    InOrder term M t :=
  ⟨h.sorted.sub hM, fun e he => h.bounded e (hM.subset he)⟩

/-- An entry of the present term may be appended. -/
theorem InOrder.snoc {L : List E} {e : E} {t : ℤ} (h : InOrder term L t)
    (he : term e = t) : InOrder term (L ++ [e]) t := by
  constructor
  · refine List.pairwise_append.mpr ⟨h.sorted, List.pairwise_singleton .., ?_⟩
    intro x hx y hy
    rw [List.mem_singleton.mp hy, he]
    exact h.bounded x hx
  · intro x hx
    rcases List.mem_append.mp hx with hx | hx
    · exact h.bounded x hx
    · rw [List.mem_singleton.mp hx, he]

/-- Every log is in order, up to its node's or its own term. -/
structure Ordered (term : E → ℤ) (a : Ledger S E) : Prop where
  logs : ∀ s, InOrder term (a.log s) (a.clock s)
  tlogs : ∀ T, InOrder term (a.tlog T) T

theorem Ordered.advance (h : Ordered term a) {s : S} {t : ℤ} (ht : a.clock s ≤ t) :
    Ordered term (a.advance s t) :=
  ⟨fun v => (h.logs v).mono (clock_le_advance ht v), h.tlogs⟩

omit [DecidableEq S] in
/-- The log of a new leader is in order, and so the log of its term is. -/
theorem Ordered.lead (h : Ordered term a) (s : S) (Q : Finset S) :
    Ordered term (a.lead s Q) := by
  refine ⟨h.logs, fun T => ?_⟩
  by_cases hT : T = a.clock s
  · rw [hT, tlog_lead_self]
    exact h.logs s
  · rw [tlog_lead_of_ne hT]
    exact h.tlogs T

/-- An entry of the leader's term is in order at the end. -/
theorem Ordered.append (h : Ordered term a) {s : S} {e : E} (he : term e = a.clock s) :
    Ordered term (a.append s e) := by
  constructor
  · intro v
    by_cases hv : v = s
    · rw [hv, log_append_self]
      exact (h.logs s).snoc he
    · rw [log_append_of_ne hv]
      exact h.logs v
  · intro T
    by_cases hT : T = a.clock s
    · rw [hT, tlog_append_self]
      exact (h.logs s).snoc he
    · rw [tlog_append_of_ne hT]
      exact h.tlogs T

/-- What a follower takes over comes from the log of its term, which is in order. -/
theorem Ordered.accept (h : Ordered term a) {v : S} {M : List E}
    (hM : M <+: a.tlog (a.clock v)) : Ordered term (a.accept v M) := by
  refine ⟨fun s => ?_, h.tlogs⟩
  by_cases hs : s = v
  · subst hs
    rw [log_accept_self, merge]
    split
    · exact h.logs s
    · exact (h.tlogs _).sub hM
  · rw [log_accept_of_ne hs]
    exact h.logs s

/-! ## The completeness invariant -/

/-- More than half of all nodes. -/
def Majority [Fintype S] (Q : Finset S) : Prop :=
  Fintype.card S < 2 * Q.card

/-- At least half of all nodes: enough to meet every majority. -/
def Half [Fintype S] (Q : Finset S) : Prop :=
  Fintype.card S ≤ 2 * Q.card

/-- What the records of votes and acknowledgements have to do with the present. -/
structure Record [Fintype S] (term : E → ℤ) (a : Ledger S E) : Prop where
  ballotPast : ∀ v c T L, a.ballot v c T L → T ≤ a.clock v ∧ T ≤ a.clock c
  ballotLog : ∀ v c T L, a.ballot v c T L → Traced term a.tlog L ∧ Sorted term L
  /-- a candidate of a term without leader still has the log it was voted for -/
  upToDate : ∀ v c T L, a.ballot v c T L → a.leader T = none → a.clock c = T →
    UpToDate term (a.log c) L
  ackPast : ∀ v T m, a.ack v T m → T ≤ a.clock v
  ackLed : ∀ v T m, a.ack v T m → a.leader T ≠ none ∧ m ≤ (a.tlog T).length
  quorumPast : ∀ T v, a.leader T ≠ none → v ∈ a.quorum T → T ≤ a.clock v
  majority : ∀ T, a.leader T ≠ none → Majority (a.quorum T)

/-- Where an acknowledged mark must be found; see the head of the file. -/
structure Retained (term : E → ℤ) (a : Ledger S E) : Prop where
  retain : ∀ v T m i, a.ack v T m → i < m → Live term a T i →
    Kept a T i (fun W => ∃ m', a.ack v W m') (a.log v)
  ballots : ∀ v c U L T m i, a.ballot v c U L → a.leader U = none → T < U →
    a.ack v T m → i < m → Live term a T i →
    Kept a T i (fun W => W < U ∧ a.leader W ≠ none) L
  elected : ∀ U v T m i, a.leader U ≠ none → v ∈ a.quorum U → T < U →
    a.ack v T m → i < m → Live term a T i →
    Kept a T i (fun W => W < U ∧ a.leader W ≠ none) (a.tlog U)

/-- **THE COMPLETENESS INVARIANT** of a ledger. -/
structure Complete [Fintype S] (term : E → ℤ) (a : Ledger S E) : Prop where
  matching : Matching term a
  ordered : Ordered term a
  record : Record term a
  retained : Retained term a

section Complete

variable [Fintype S]

omit [DecidableEq S] in
theorem complete_empty (term : E → ℤ) (clock : S → ℤ) :
    Complete term (Ledger.empty clock : Ledger S E) where
  matching := matching_empty term clock
  ordered := ⟨fun _ => ⟨List.Pairwise.nil, fun _ h => nomatch h⟩,
    fun _ => ⟨List.Pairwise.nil, fun _ h => nomatch h⟩⟩
  record := ⟨(fun _ _ _ _ h => nomatch h), (fun _ _ _ _ h => nomatch h),
    (fun _ _ _ _ h => nomatch h), (fun _ _ _ h => nomatch h), (fun _ _ _ h => nomatch h),
    fun _ _ h => absurd rfl h, fun _ h => absurd rfl h⟩
  retained := ⟨(fun _ _ _ _ h => nomatch h), (fun _ _ _ _ _ _ _ h => nomatch h),
    fun _ _ _ _ _ h => absurd rfl h⟩

omit [DecidableEq S] in
/-- An old acknowledgement is inside the old log of its term. -/
theorem Complete.ack_lt (h : Complete term a) {v : S} {T : ℤ} {m i : ℕ}
    (hack : a.ack v T m) (hi : i < m) : i < (a.tlog T).length :=
  lt_of_lt_of_le hi (h.record.ackLed v T m hack).2

omit [DecidableEq S] in
/-- `retain` for an old acknowledgement, along a move after which the log of
    its node still carries the mark. -/
theorem Complete.retain_old (h : Complete term a) (hext : Extends term a b)
    {v : S} {T : ℤ} {m i : ℕ} (hack : a.ack v T m) (hi : i < m) (hlive : Live term b T i)
    (hlog : mark a T i <+: a.log v →
      (∀ W, T < W → (∃ m', b.ack v W m') → mark a T i <+: b.tlog W) →
      mark a T i <+: b.log v) :
    Kept b T i (fun W => ∃ m', b.ack v W m') (b.log v) := by
  have hlt := h.ack_lt hack hi
  have hlive' := hext.live_back hlt hlive
  refine (h.retained.retain v T m i hack hi hlive').mono hext hlive' hlt ?_ hlog
  rintro W - ⟨m', hm'⟩
  exact ⟨⟨m', hext.ack v W m' hm'⟩, (h.record.ackLed v W m' hm').1⟩

omit [DecidableEq S] in
/-- `ballots` survives every move that records no vote and acknowledges only in
    the present. -/
theorem Complete.ballots_old (h : Complete term a) (hext : Extends term a b)
    (hack : ∀ v T m, b.ack v T m → a.ack v T m ∨ T = a.clock v)
    {v c : S} {U T : ℤ} {L : List E} {m i : ℕ} (hb : a.ballot v c U L)
    (hnone : b.leader U = none) (hTU : T < U) (hm : b.ack v T m) (hi : i < m)
    (hlive : Live term b T i) : Kept b T i (fun W => W < U ∧ b.leader W ≠ none) L := by
  have hnone' : a.leader U = none := by
    by_contra hled
    exact hext.led hled hnone
  have hpast := (h.record.ballotPast v c U L hb).1
  rcases hack v T m hm with hm | hnow
  · have hlt := h.ack_lt hm hi
    have hlive' := hext.live_back hlt hlive
    refine (h.retained.ballots v c U L T m i hb hnone' hTU hm hi hlive').mono hext hlive'
      hlt ?_ fun hL _ => hL
    rintro W - ⟨hWU, hW⟩
    exact ⟨⟨hWU, hext.led hW⟩, hW⟩
  · -- a new acknowledgement is not below a term its node voted in
    omega

omit [DecidableEq S] in
/-- `elected` for a term that had its leader before the move. -/
theorem Complete.elected_old (h : Complete term a) (hext : Extends term a b)
    (hack : ∀ v T m, b.ack v T m → a.ack v T m ∨ T = a.clock v)
    {v : S} {U T : ℤ} {m i : ℕ} (hled : a.leader U ≠ none) (hv : v ∈ a.quorum U)
    (hTU : T < U) (hm : b.ack v T m) (hi : i < m) (hlive : Live term b T i) :
    Kept b T i (fun W => W < U ∧ b.leader W ≠ none) (b.tlog U) := by
  have hpast := h.record.quorumPast U v hled hv
  rcases hack v T m hm with hm | hnow
  · have hlt := h.ack_lt hm hi
    have hlive' := hext.live_back hlt hlive
    refine (h.retained.elected U v T m i hled hv hTU hm hi hlive').mono hext hlive' hlt ?_
      fun hU _ => hU.trans (hext.tlog U)
    rintro W - ⟨hWU, hW⟩
    exact ⟨⟨hWU, hext.led hW⟩, hW⟩
  · omega

/-! ### Every move keeps it -/

/-- A later term makes no acknowledgement and no vote. -/
theorem Complete.advance (h : Complete term a) {s : S} {t : ℤ} (ht : a.clock s ≤ t) :
    Complete term (a.advance s t) := by
  have hext : Extends term a (a.advance s t) := extends_advance s t
  have hclock := clock_le_advance (a := a) ht
  refine ⟨h.matching.advance ht, h.ordered.advance ht, ⟨?_, h.record.ballotLog, ?_, ?_,
    h.record.ackLed, ?_, h.record.majority⟩, ⟨?_, ?_, ?_⟩⟩
  · intro v c T L hb
    obtain ⟨hv, hc⟩ := h.record.ballotPast v c T L hb
    exact ⟨le_trans hv (hclock v), le_trans hc (hclock c)⟩
  · intro v c T L hb hnone hc
    -- whoever was voted for in `T` had reached `T` already
    have hpast := (h.record.ballotPast v c T L hb).2
    have hle : a.clock c ≤ T := hc ▸ hclock c
    exact h.record.upToDate v c T L hb hnone (le_antisymm hle hpast)
  · intro v T m hm
    exact le_trans (h.record.ackPast v T m hm) (hclock v)
  · intro T v hled hv
    exact le_trans (h.record.quorumPast T v hled hv) (hclock v)
  · intro v T m i hm hi hlive
    exact h.retain_old hext hm hi hlive fun hL _ => hL
  · intro v c U L T m i hb hnone hTU hm hi hlive
    exact h.ballots_old hext (fun _ _ _ => .inl) hb hnone hTU hm hi hlive
  · intro U v T m i hled hv hTU hm hi hlive
    exact h.elected_old hext (fun _ _ _ => .inl) hled hv hTU hm hi hlive

omit [DecidableEq S] in
/-- A vote must go to a node of the voter's term or later; while the term has
    no leader, to one whose log is at least as up to date. -/
theorem Complete.vote (h : Complete term a) {v c : S} (hc : a.clock v ≤ a.clock c)
    (hup : a.leader (a.clock v) = none → a.clock c = a.clock v →
      UpToDate term (a.log c) (a.log v)) : Complete term (a.vote v c) := by
  have hext : Extends term a (a.vote v c) := extends_vote v c
  refine ⟨h.matching.vote v c, ⟨h.ordered.logs, h.ordered.tlogs⟩, ⟨?_, ?_, ?_,
    h.record.ackPast, h.record.ackLed, h.record.quorumPast, h.record.majority⟩, ⟨?_, ?_, ?_⟩⟩
  · rintro v' c' T L (hb | ⟨rfl, rfl, rfl, rfl⟩)
    · exact h.record.ballotPast v' c' T L hb
    · exact ⟨le_refl _, hc⟩
  · rintro v' c' T L (hb | ⟨rfl, rfl, rfl, rfl⟩)
    · exact h.record.ballotLog v' c' T L hb
    · exact ⟨h.matching.logs v', (h.ordered.logs v').sorted⟩
  · rintro v' c' T L (hb | ⟨rfl, rfl, rfl, rfl⟩) hnone hclock
    · exact h.record.upToDate v' c' T L hb hnone hclock
    · exact hup hnone hclock
  · intro v' T m i hm hi hlive
    exact h.retain_old hext hm hi hlive fun hL _ => hL
  · rintro v' c' U L T m i (hb | ⟨rfl, rfl, rfl, rfl⟩) hnone hTU hm hi hlive
    · exact h.ballots_old hext (fun _ _ _ => .inl) hb hnone hTU hm hi hlive
    · -- the log voted with is the voter's own, which retained the mark
      intro hsafe
      refine h.retained.retain v' T m i hm hi hlive ?_
      rintro W hTW ⟨m', hm'⟩
      have hled := (h.record.ackLed v' W m' hm').1
      have hpast := h.record.ackPast v' W m' hm'
      have hne : W ≠ a.clock v' := by
        rintro rfl
        exact hled hnone
      exact hsafe W hTW ⟨lt_of_le_of_ne hpast hne, hled⟩
  · intro U v' T m i hled hv hTU hm hi hlive
    exact h.elected_old hext (fun _ _ _ => .inl) hled hv hTU hm hi hlive

/-- **THE LEADER'S ENTRY** is acknowledged by the leader, whose log is the log of its term. -/
theorem Complete.append (h : Complete term a) {s : S} {e : E}
    (hlead : a.leader (a.clock s) = some s) (he : term e = a.clock s) :
    Complete term (a.append s e) := by
  have hext : Extends term a (a.append s e) := extends_append h.matching hlead he
  have hack : ∀ v T m, (a.append s e).ack v T m → a.ack v T m ∨ T = a.clock v := by
    rintro v T m (hm | ⟨rfl, rfl, rfl⟩)
    · exact .inl hm
    · exact .inr rfl
  refine ⟨h.matching.append hlead he, h.ordered.append he, ⟨h.record.ballotPast, ?_, ?_, ?_,
    ?_, h.record.quorumPast, h.record.majority⟩, ⟨?_, ?_, ?_⟩⟩
  · intro v c T L hb
    obtain ⟨htr, hs⟩ := h.record.ballotLog v c T L hb
    exact ⟨htr.mono hext.tlog, hs⟩
  · intro v c T L hb hnone hc
    have hne : c ≠ s := by
      rintro rfl
      have hc' : a.clock c = T := hc
      rw [hc'] at hlead
      exact nomatch hlead.symm.trans hnone
    rw [log_append_of_ne hne]
    exact h.record.upToDate v c T L hb hnone hc
  · rintro v T m (hm | ⟨rfl, rfl, rfl⟩)
    · exact h.record.ackPast v T m hm
    · exact le_refl _
  · rintro v T m (hm | ⟨rfl, rfl, rfl⟩)
    · obtain ⟨hled, hle⟩ := h.record.ackLed v T m hm
      exact ⟨hled, le_trans hle (hext.tlog T).length_le⟩
    · refine ⟨Option.ne_none_iff_exists'.mpr ⟨v, hlead⟩, ?_⟩
      rw [tlog_append_self, List.length_append, List.length_singleton]
  · rintro v T m i (hm | ⟨rfl, rfl, rfl⟩) hi hlive
    · refine h.retain_old hext hm hi hlive fun hL _ => hL.trans ?_
      by_cases hv : v = s
      · rw [hv, log_append_self]
        exact List.prefix_append ..
      · rw [log_append_of_ne hv]
    · -- the leader's own acknowledgement: its log is the term log
      intro _
      rw [mark, tlog_append_self, log_append_self]
      exact List.take_prefix ..
  · intro v c U L T m i hb hnone hTU hm hi hlive
    exact h.ballots_old hext hack hb hnone hTU hm hi hlive
  · intro U v T m i hled hv hTU hm hi hlive
    exact h.elected_old hext hack hled hv hTU hm hi hlive

omit [DecidableEq S] [Fintype S] in
/-- What is accepted is in the merged log. -/
theorem sub_merge (L M : List E) : M <+: merge L M := by
  rw [merge]
  split
  · assumption
  · exact List.prefix_refl M

omit [DecidableEq S] [Fintype S] in
/-- A mark of the old log that lies on the accepted branch survives the merge. -/
theorem carried_merge {P L M X : List E} (hPL : P <+: L) (hPX : P <+: X) (hM : M <+: X) :
    P <+: merge L M := by
  rw [merge]
  split
  · exact hPL
  · rename_i hnot
    rcases List.prefix_or_prefix_of_prefix hPX hM with hPM | hMP
    · exact hPM
    · exact absurd (hMP.trans hPL) hnot

/-- **A FOLLOWER** acknowledges what it has taken over from the log of its term. -/
theorem Complete.accept (h : Complete term a) {v s : S} {M : List E}
    (hlead : a.leader (a.clock v) = some s) (hne : s ≠ v)
    (hM : M <+: a.tlog (a.clock v)) : Complete term (a.accept v M) := by
  have hext : Extends term a (a.accept v M) := extends_accept v M
  have hled : a.leader (a.clock v) ≠ none := by
    rw [hlead]
    exact Option.some_ne_none s
  have hnot : a.leader (a.clock v) ≠ some v := by
    rw [hlead]
    exact fun heq => hne (Option.some.inj heq)
  have hack : ∀ w T m, (a.accept v M).ack w T m → a.ack w T m ∨ T = a.clock w := by
    rintro w T m (hm | ⟨rfl, rfl, rfl⟩)
    · exact .inl hm
    · exact .inr rfl
  refine ⟨h.matching.accept hnot hM, h.ordered.accept hM, ⟨h.record.ballotPast,
    h.record.ballotLog, ?_, ?_, ?_, h.record.quorumPast, h.record.majority⟩, ⟨?_, ?_, ?_⟩⟩
  · intro w c T L hb hnone hc
    have hcv : c ≠ v := by
      rintro rfl
      have hc' : a.clock c = T := hc
      exact hled (hc' ▸ hnone)
    rw [log_accept_of_ne hcv]
    exact h.record.upToDate w c T L hb hnone hc
  · rintro w T m (hm | ⟨rfl, rfl, rfl⟩)
    · exact h.record.ackPast w T m hm
    · exact le_refl _
  · rintro w T m (hm | ⟨rfl, rfl, rfl⟩)
    · exact h.record.ackLed w T m hm
    · exact ⟨hled, hM.length_le⟩
  · rintro w T m i (hm | ⟨rfl, rfl, rfl⟩) hi hlive
    · refine h.retain_old hext hm hi hlive fun hL hsafe => ?_
      by_cases hw : w = v
      · subst hw
        rw [log_accept_self]
        -- the mark lies in the log of the present term: it is that term's own
        -- mark, or the present acknowledgement puts that term under the proviso
        have hcarried : mark a T i <+: a.tlog (a.clock w) := by
          rcases lt_or_eq_of_le (h.record.ackPast w T m hm) with hlt | heq
          · exact hsafe _ hlt ⟨M.length, .inr ⟨rfl, rfl, rfl⟩⟩
          · rw [← heq]
            exact List.take_prefix ..
        exact carried_merge hL hcarried hM
      · rw [log_accept_of_ne hw]
        exact hL
    · intro _
      rw [log_accept_self]
      have htake : mark a (a.clock w) i = M.take (i + 1) := (take_eq_of_sub hM hi).symm
      show mark a (a.clock w) i <+: _
      rw [htake]
      exact ( List.take_prefix ..).trans (sub_merge _ M)
  · intro w c U L T m i hb hnone hTU hm hi hlive
    exact h.ballots_old hext hack hb hnone hTU hm hi hlive
  · intro U w T m i hU hw hTU hm hi hlive
    exact h.elected_old hext hack hU hw hTU hm hi hlive

omit [DecidableEq S] in
/-- The log of a candidate has no entry of its own, leaderless, term. -/
theorem Complete.last_lt (h : Complete term a) {s : S} {e : E}
    (hfree : a.leader (a.clock s) = none) (he : (a.log s).getLast? = some e) :
    term e < a.clock s ∧ a.leader (term e) ≠ none := by
  have hmem : e ∈ a.log s := List.mem_of_getLast? he
  have hsub := sub_of_getLast? (h.matching.logs s) he
  have hled : a.leader (term e) ≠ none := by
    intro hnone
    rw [h.matching.free _ hnone] at hsub
    rw [List.prefix_nil.mp hsub] at hmem
    exact nomatch hmem
  refine ⟨lt_of_le_of_ne ((h.ordered.logs s).bounded e hmem) ?_, hled⟩
  intro heq
  rw [heq] at hled
  exact hled hfree

omit [DecidableEq S] in
/-- **THE ELECTION STEP**: a candidate voted for by `v` carries the marks `v`
    acknowledged, when the terms in between do. -/
theorem Complete.winner_carries (h : Complete term a) {s v : S} {L : List E} {T : ℤ}
    {m i : ℕ} (hfree : a.leader (a.clock s) = none) (hb : a.ballot v s (a.clock s) L)
    (hT : T < a.clock s) (hm : a.ack v T m) (hi : i < m) (hlive : Live term a T i) :
    Kept a T i (fun W => W < a.clock s ∧ a.leader W ≠ none) (a.log s) := by
  intro hsafe
  have hL := h.retained.ballots v s _ L T m i hb hfree hT hm hi hlive hsafe
  obtain ⟨htr, hsort⟩ := h.record.ballotLog v s _ L hb
  have hup := h.record.upToDate v s _ L hb hfree rfl
  refine dominate hlive htr hsort (h.matching.logs s) (fun W => (h.ordered.tlogs W).sorted)
    hup hL fun e he hlt => ?_
  exact hsafe _ hlt (h.last_lt hfree he)

omit [DecidableEq S] in
/-- **AN ELECTION**: the winner carries what a majority has acknowledged. -/
theorem Complete.lead (h : Complete term a) {s : S} {Q : Finset S}
    (hfree : a.leader (a.clock s) = none) (hQ : Majority Q)
    (hballots : ∀ v ∈ Q, ∃ L, a.ballot v s (a.clock s) L) :
    Complete term (a.lead s Q) := by
  have hext : Extends term a (a.lead s Q) := extends_lead h.matching hfree
  have hack : ∀ v T m, (a.lead s Q).ack v T m → a.ack v T m ∨ T = a.clock v := by
    rintro v T m (hm | ⟨rfl, rfl, rfl⟩)
    · exact .inl hm
    · exact .inr rfl
  have hquorum : (a.lead s Q).quorum (a.clock s) = Q := Function.update_self ..
  have hother : ∀ T, T ≠ a.clock s → (a.lead s Q).quorum T = a.quorum T :=
    fun T hT => Function.update_of_ne hT ..
  refine ⟨h.matching.lead hfree, h.ordered.lead s Q, ⟨h.record.ballotPast, ?_, ?_, ?_, ?_, ?_,
    ?_⟩, ⟨?_, ?_, ?_⟩⟩
  · intro v c T L hb
    obtain ⟨htr, hs⟩ := h.record.ballotLog v c T L hb
    exact ⟨htr.mono hext.tlog, hs⟩
  · intro v c T L hb hnone hc
    have hT : T ≠ a.clock s := by
      rintro rfl
      exact nomatch leader_lead_self.symm.trans hnone
    rw [leader_lead_of_ne hT] at hnone
    exact h.record.upToDate v c T L hb hnone hc
  · rintro v T m (hm | ⟨rfl, rfl, rfl⟩)
    · exact h.record.ackPast v T m hm
    · exact le_refl _
  · rintro v T m (hm | ⟨rfl, rfl, rfl⟩)
    · obtain ⟨hled, hle⟩ := h.record.ackLed v T m hm
      exact ⟨hext.led hled, le_trans hle (hext.tlog T).length_le⟩
    · rw [leader_lead_self, tlog_lead_self]
      exact ⟨Option.some_ne_none v, le_refl _⟩
  · intro T v hled hv
    by_cases hT : T = a.clock s
    · subst hT
      rw [hquorum] at hv
      obtain ⟨L, hb⟩ := hballots v hv
      exact (h.record.ballotPast v s _ L hb).1
    · rw [hother T hT] at hv
      rw [leader_lead_of_ne hT] at hled
      exact h.record.quorumPast T v hled hv
  · intro T hled
    by_cases hT : T = a.clock s
    · rw [hT, hquorum]
      exact hQ
    · rw [leader_lead_of_ne hT] at hled
      rw [hother T hT]
      exact h.record.majority T hled
  · rintro v T m i (hm | ⟨rfl, rfl, rfl⟩) hi hlive
    · exact h.retain_old hext hm hi hlive fun hL _ => hL
    · intro _
      rw [mark, tlog_lead_self]
      exact List.take_prefix ..
  · intro v c U L T m i hb hnone hTU hm hi hlive
    exact h.ballots_old hext hack hb hnone hTU hm hi hlive
  · intro U v T m i hled hv hTU hm hi hlive
    by_cases hU : U = a.clock s
    · subst hU
      rw [hquorum] at hv
      obtain ⟨L, hb⟩ := hballots v hv
      rcases hm with hm | ⟨-, rfl, -⟩
      · have hlt := h.ack_lt hm hi
        have hlive' := hext.live_back hlt hlive
        rw [tlog_lead_self]
        refine (h.winner_carries hfree hb hTU hm hi hlive').mono hext hlive' hlt ?_
          fun hL _ => hL
        rintro W - ⟨hW, hWled⟩
        exact ⟨⟨hW, hext.led hWled⟩, hWled⟩
      · omega
    · rw [hother U hU] at hv
      rw [leader_lead_of_ne hU] at hled
      exact h.elected_old hext hack hled hv hTU hm hi hlive

end Complete

/-! ## Chosen marks -/

section Chosen

variable [Fintype S]

/-- Half of the nodes acknowledged the mark at `i` of term `T`. -/
def Chosen (term : E → ℤ) (a : Ledger S E) (T : ℤ) (i : ℕ) : Prop :=
  Live term a T i ∧ ∃ Q : Finset S, Half Q ∧ ∀ v ∈ Q, ∃ m, i < m ∧ a.ack v T m

omit [DecidableEq S] in
/-- What is chosen stays chosen. -/
theorem Chosen.mono {T : ℤ} {i : ℕ} (hc : Chosen term a T i) (h : Extends term a b) :
    Chosen term b T i := by
  obtain ⟨hlive, Q, hQ, hack⟩ := hc
  refine ⟨h.live hlive, Q, hQ, fun v hv => ?_⟩
  obtain ⟨m, hi, hm⟩ := hack v hv
  exact ⟨m, hi, h.ack v T m hm⟩

omit [DecidableEq S] in
/-- A majority is at least a half. -/
theorem Majority.half {P : Finset S} (hP : Majority P) : Half P :=
  le_of_lt hP

/-- A half and a majority meet. -/
theorem Half.inter {P Q : Finset S} (hP : Half P) (hQ : Majority Q) :
    ∃ v, v ∈ P ∧ v ∈ Q := by
  have hcard : Fintype.card S < P.card + Q.card := by
    have h1 : Fintype.card S ≤ 2 * P.card := hP
    have h2 : Fintype.card S < 2 * Q.card := hQ
    omega
  obtain ⟨v, hv⟩ := Finset.inter_nonempty_of_card_lt_card_add_card
    (Finset.subset_univ P) (Finset.subset_univ Q) hcard
  exact ⟨v, Finset.mem_of_mem_inter_left hv, Finset.mem_of_mem_inter_right hv⟩

/-- **LEADER COMPLETENESS**: the log of every later term that has a leader
    carries every chosen mark. -/
theorem chosen_carried (h : Complete term a) {T : ℤ} {i : ℕ} (hc : Chosen term a T i) :
    ∀ (d : ℕ) (U : ℤ), U - T = d + 1 → a.leader U ≠ none → mark a T i <+: a.tlog U := by
  intro d
  -- strong induction on the distance: the terms in between are the proviso
  induction d using Nat.strong_induction_on with
  | _ d ih =>
      intro U hd hled
      obtain ⟨hlive, Q, hQ, hack⟩ := hc
      obtain ⟨v, hvQ, hvU⟩ := hQ.inter (h.record.majority U hled)
      obtain ⟨m, hi, hm⟩ := hack v hvQ
      refine h.retained.elected U v T m i hled hvU (by omega) hm hi hlive ?_
      rintro W hTW ⟨hWU, hW⟩
      exact ih (W - T - 1).toNat (by omega) W (by omega) hW

omit [DecidableEq S] in
/-- A chosen mark has a leader. -/
theorem Chosen.led (h : Complete term a) {T : ℤ} {i : ℕ} (hc : Chosen term a T i) :
    a.leader T ≠ none := by
  intro hnone
  obtain ⟨e, he, -⟩ := hc.1
  rw [h.matching.free T hnone] at he
  exact nomatch he

/-- The log of the same or a later term has the chosen entries at their place. -/
theorem chosen_getElem? (h : Complete term a) {T U : ℤ} {i k : ℕ}
    (hT : Chosen term a T i) (hle : T ≤ U) (hU : a.leader U ≠ none) (hk : k ≤ i) :
    ∃ e, (a.tlog T)[k]? = some e ∧ (a.tlog U)[k]? = some e := by
  obtain ⟨e, he, -⟩ := hT.1
  have hlt : k < (a.tlog T).length :=
    lt_of_le_of_lt hk (List.getElem?_eq_some_iff.mp he).1
  have hget := List.getElem?_eq_getElem hlt
  refine ⟨_, hget, ?_⟩
  rcases lt_or_eq_of_le hle with hlt' | rfl
  · have hmark := chosen_carried h hT (U - T - 1).toNat U (by omega) hU
    refine getElem?_of_sub hmark ?_
    rw [mark, List.getElem?_take_of_lt (by omega)]
    exact hget
  · exact hget

/-- **CHOSEN MARKS AGREE** wherever both have an entry. -/
theorem chosen_agree (h : Complete term a) {T U : ℤ} {i j k : ℕ}
    (hT : Chosen term a T i) (hU : Chosen term a U j) (hi : k ≤ i) (hj : k ≤ j) :
    (a.tlog T)[k]? = (a.tlog U)[k]? := by
  wlog hle : T ≤ U generalizing T U i j
  · exact (this hU hT hj hi (by omega)).symm
  obtain ⟨e, he, he'⟩ := chosen_getElem? h hT hle (hU.led h) hi
  rw [he, he']

end Chosen

end TermLogSafety
