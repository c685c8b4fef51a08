import UniqueFreshman.RaftServerProofs

/-! # The two loops of `AppendEntries` — what becomes of the log

    The first loop cuts the log at the first entry whose term differs, one
    entry too low; the second appends or overwrites.  `appendLog_cases` is the
    net effect, by the position of the first difference:

    * NO DIFFERENCE: the entries are in place and a longer log keeps its tail;
    * a difference BELOW THE FIRST ENTRY SENT: the second loop writes back the
      entry that was cut too much, and the log ends with the entries;
    * a difference AT THE FIRST ENTRY SENT: the entry at `PrevLogIndex` is lost
      too, the guard of the second loop fails and nothing is written (and with
      `PrevLogIndex = -1` the cut itself panics). -/

namespace RaftAppendLog

open GoSlice RaftServer

variable {Command : Type}

/-- The log and the entries sent agree in term wherever both are defined. -/
def TermsAgree (log : List (LogEntry Command)) (k : Nat)
    (entries : List (LogEntry Command)) : Prop :=
  ∀ i x e, log[k + i]? = some x → entries[i]? = some e → x.term = e.term

/-- Entry `i` of those sent differs in term from the log at its place. -/
def ConflictAt (log : List (LogEntry Command)) (k : Nat)
    (entries : List (LogEntry Command)) (i : Nat) : Prop :=
  ∃ x e, log[k + i]? = some x ∧ entries[i]? = some e ∧ x.term ≠ e.term

/-- The first loop: no difference and no cut, or a cut one entry below the
    first difference. -/
theorem truncateConflict_cases {log l : List (LogEntry Command)} {k : Nat} :
    ∀ {es : List (LogEntry Command)} {i : Nat},
      truncateConflict log ((k : Int) - 1) i es = some l →
      (l = log ∧ TermsAgree log (k + i) es) ∨
      ∃ j, ConflictAt log (k + i) es j ∧ 1 ≤ k + i + j ∧ l = log.take (k + i + j - 1) := by
  intro es
  induction es with
  | nil =>
      intro i h
      refine .inl ⟨(Option.some.inj h).symm, ?_⟩
      intro j x e _ he
      exact nomatch he
  | cons e es ih =>
      intro i h
      rw [truncateConflict] at h
      have hpos : (k : Int) - 1 + i + 1 = ((k + i : Nat) : Int) := by omega
      split at h
      · rename_i hend
        refine .inl ⟨(Option.some.inj h).symm, ?_⟩
        intro j x e' hx _
        have : k + i + j < log.length := (List.getElem?_eq_some_iff.mp hx).1
        omega
      · rw [hpos, goIndex_natCast] at h
        cases hx : log[k + i]? with
        | none => rw [hx] at h; exact nomatch h
        | some x =>
            rw [hx] at h
            simp only [Option.bind_eq_bind, Option.bind_some] at h
            split at h
            · -- the first difference: cut here
              rename_i hne
              obtain ⟨hlo, -, hl⟩ := goSliceTo_eq_some h
              refine .inr ⟨0, ⟨x, e, hx, rfl, hne⟩, by omega, ?_⟩
              rw [hl]
              congr 1
              omega
            · rename_i heq
              rcases ih h with ⟨hl, hagree⟩ | ⟨j, ⟨y, e', hy, he', hne⟩, hpos', hl⟩
              · refine .inl ⟨hl, ?_⟩
                intro j y e' hy he'
                cases j with
                | zero =>
                    rw [Nat.add_zero, hx] at hy
                    rw [← Option.some.inj hy, ← Option.some.inj he']
                    exact not_not.mp heq
                | succ j =>
                    exact hagree j y e' (by rw [← hy]; congr 1; omega) he'
              · refine .inr ⟨j + 1, ⟨y, e', ?_, he', hne⟩, by omega, ?_⟩
                · rw [← hy]
                  congr 1
                  omega
                · rw [hl, show k + (i + 1) + j = k + i + (j + 1) by omega]

/-- The second loop writes the entries in place and keeps what lies beyond. -/
theorem writeEntries_eq {k : Nat} :
    ∀ {es log : List (LogEntry Command)} {i : Nat}, k + i ≤ log.length →
      writeEntries ((k : Int) - 1) i es log
        = some (log.take (k + i) ++ es ++ log.drop (k + i + es.length)) := by
  intro es
  induction es with
  | nil =>
      intro log i _
      simp [writeEntries]
  | cons e es ih =>
      intro log i hle
      rw [writeEntries]
      have hpos : (k : Int) - 1 + i + 1 = ((k + i : Nat) : Int) := by omega
      split
      · -- the log ends here: append
        rename_i hend
        have hlen : log.length = k + i := by omega
        rw [ih (by simp; omega)]
        rw [show k + (i + 1) = (log ++ [e]).length by simp; omega, List.take_length,
          List.take_of_length_le (by omega), List.drop_of_length_le (by omega),
          List.drop_of_length_le (by simp; omega)]
        simp
      · -- overwrite one entry
        rename_i hend
        have hlt : k + i < log.length := by omega
        rw [hpos, goSet_natCast hlt]
        simp only [Option.bind_eq_bind, Option.bind_some]
        have htake : (log.set (k + i) e).take (k + i + 1) = log.take (k + i) ++ [e] := by
          rw [List.take_add_one, List.take_set_of_le (Nat.le_refl _),
            List.getElem?_set_self hlt]
          rfl
        rw [ih (by simp; omega), show k + (i + 1) = k + i + 1 from rfl, htake,
          List.drop_set_of_lt (by omega), List.length_cons,
          show k + i + 1 + es.length = k + i + (es.length + 1) by omega]
        simp

/-- **NET EFFECT** of a successful `AppendEntries` on the log, for a request
    whose `PrevLogIndex` is `k - 1`, inside the log. -/
theorem appendLog_cases {log log' entries : List (LogEntry Command)} {k : Nat}
    (hk : k ≤ log.length)
    (h : appendLog log ((k : Int) - 1) entries = some log') :
    (TermsAgree log k entries ∧
      log' = log.take k ++ entries ++ log.drop (k + entries.length)) ∨
    (∃ i, ConflictAt log k entries (i + 1) ∧ log' = log.take k ++ entries) ∨
    (ConflictAt log k entries 0 ∧ 1 ≤ k ∧ log' = log.take (k - 1)) := by
  rw [appendLog] at h
  obtain ⟨l, hl, hw⟩ := Option.bind_eq_some_iff.mp h
  rcases truncateConflict_cases hl with ⟨rfl, hagree⟩ | ⟨j, hconf, hpos, rfl⟩
  · -- nothing was cut
    rw [if_pos (by omega), writeEntries_eq (by omega)] at hw
    exact .inl ⟨hagree, (Option.some.inj hw).symm⟩
  · have hj : k + j < log.length := by
      obtain ⟨x, -, hx, -⟩ := hconf
      exact (List.getElem?_eq_some_iff.mp hx).1
    have hlen : (log.take (k + 0 + j - 1)).length = k + j - 1 := by
      rw [List.length_take]
      omega
    cases j with
    | zero =>
        -- the cut took `PrevLogIndex` away, so the second loop is skipped
        rw [if_neg (by omega)] at hw
        exact .inr (.inr ⟨hconf, hpos, (Option.some.inj hw).symm⟩)
    | succ i =>
        rw [if_pos (by omega), writeEntries_eq (by omega)] at hw
        refine .inr (.inl ⟨i, hconf, ?_⟩)
        have hi : i + 1 < entries.length := by
          obtain ⟨-, e, -, he, -⟩ := hconf
          exact (List.getElem?_eq_some_iff.mp he).1
        rw [← Option.some.inj hw, List.take_take, List.drop_of_length_le (by omega),
          List.append_nil]
        congr 2
        omega

/-! ## When the loops return -/

/-- The first loop panics only when it cuts in front of the whole log. -/
theorem truncateConflict_returns {log : List (LogEntry Command)} {k : Nat} :
    ∀ {es : List (LogEntry Command)} {i : Nat}, (k + i = 0 → ¬ ConflictAt log 0 es 0) →
      ∃ l, truncateConflict log ((k : Int) - 1) i es = some l := by
  intro es
  induction es with
  | nil =>
      intro i _
      exact ⟨log, rfl⟩
  | cons e es ih =>
      intro i hno
      rw [truncateConflict]
      have hpos : (k : Int) - 1 + i + 1 = ((k + i : Nat) : Int) := by omega
      split
      · exact ⟨log, rfl⟩
      · rename_i hlt
        obtain ⟨x, hx⟩ : ∃ x, log[k + i]? = some x := ⟨_, List.getElem?_eq_getElem (by omega)⟩
        rw [hpos, goIndex_natCast, hx]
        simp only [Option.bind_eq_bind, Option.bind_some]
        split
        · rename_i hne
          have hki : k + i ≠ 0 := by
            intro h0
            rw [h0] at hx
            exact hno h0 ⟨x, e, hx, rfl, hne⟩
          refine ⟨log.take ((k : Int) - 1 + i).toNat, if_pos ⟨?_, ?_⟩⟩ <;> omega
        · exact ih fun h0 => by omega

/-- A conflict at the first entry sent ends the first loop at once. -/
theorem truncateConflict_first {log entries : List (LogEntry Command)} {k : Nat}
    (h : ConflictAt log k entries 0) :
    truncateConflict log ((k : Int) - 1) 0 entries = goSliceTo log ((k : Int) - 1) := by
  obtain ⟨x, e, hx, he, hne⟩ := h
  cases entries with
  | nil => nomatch he
  | cons e' es =>
      obtain rfl : e' = e := Option.some.inj he
      have hlt : k < log.length := (List.getElem?_eq_some_iff.mp hx).1
      have hpos : (k : Int) - 1 + (0 : Nat) + 1 = (k : Nat) := by omega
      rw [truncateConflict, if_neg (by omega), hpos, goIndex_natCast, ← Nat.add_zero k, hx]
      simp only [Option.bind_eq_bind, Option.bind_some, if_pos hne]
      congr 1
      omega

/-- Then the log is cut below `PrevLogIndex`, and nothing is written. -/
theorem appendLog_first {log entries : List (LogEntry Command)} {k : Nat} (hk : 1 ≤ k)
    (h : ConflictAt log k entries 0) :
    appendLog log ((k : Int) - 1) entries = some (log.take (k - 1)) := by
  have hlt : k < log.length := by
    obtain ⟨x, -, hx, -⟩ := h
    exact (List.getElem?_eq_some_iff.mp hx).1
  have hcut : goSliceTo log ((k : Int) - 1) = some (log.take (k - 1)) := by
    rw [goSliceTo, if_pos ⟨by omega, by omega⟩]
    congr 2
    omega
  rw [appendLog]
  rw [truncateConflict_first h, hcut]
  simp only [Option.bind_eq_bind, Option.bind_some]
  rw [if_neg (by rw [List.length_take]; omega)]

/-- **WITHOUT A PANIC** the log is changed, unless its very first entry is in
    conflict with the very first one sent. -/
theorem appendLog_returns_iff {log entries : List (LogEntry Command)} {k : Nat}
    (hk : k ≤ log.length) :
    (∃ log', appendLog log ((k : Int) - 1) entries = some log') ↔
      ¬ (k = 0 ∧ ConflictAt log 0 entries 0) := by
  constructor
  · rintro ⟨log', h⟩ ⟨rfl, hconf⟩
    rw [appendLog] at h
    obtain ⟨l, hl, -⟩ := Option.bind_eq_some_iff.mp h
    rw [truncateConflict_first hconf] at hl
    obtain ⟨hlo, -⟩ := goSliceTo_eq_some hl
    omega
  · intro hno
    obtain ⟨l, hl⟩ : ∃ l, truncateConflict log ((k : Int) - 1) 0 entries = some l :=
      truncateConflict_returns fun h0 hconf => hno ⟨h0, hconf⟩
    rw [appendLog]
    rw [hl]
    simp only [Option.bind_eq_bind, Option.bind_some]
    split
    · exact ⟨_, writeEntries_eq (by omega)⟩
    · exact ⟨l, rfl⟩

end RaftAppendLog
