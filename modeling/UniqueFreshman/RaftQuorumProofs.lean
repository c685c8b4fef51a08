import UniqueFreshman.RaftCommitProofs

/-! # The quorum rule — position `n / 2` of the sorted `matchIndex`

    The commit rule sorts a copy of `matchIndex` in which the leader's own slot
    holds `len(log)`, one past its last index, and takes the value `N` at
    position `n / 2`.

    * for an ODD number of servers, three or more, `N` is what it should be: the
      greatest index that a strict majority holds, the leader counted in;
    * for TWO servers position `1` is the leader's own slot, so `N` is `len(log)`
      and the read `rf.log[N]` panics;
    * for a larger EVEN number `N` is the last index that half of the servers hold,
      and it is committed although no strict majority holds it, if just half do. -/

namespace RaftQuorum

open GoSlice OrderStatistic RaftServer RaftHandler RaftCommit

variable {n : Nat} {Command Bytes : Type}

/-- The last index a server is known to hold; the leader holds its whole log. -/
def held (rf : Raft n Command Bytes) (v : Fin n) : Int :=
  if v = rf.me then (rf.log.length : Int) - 1 else rf.matchIndex v

/-- The servers known to hold index `i`. -/
def holders (rf : Raft n Command Bytes) (i : Int) : Finset (Fin n) :=
  Finset.univ.filter fun v => i ≤ held rf v

/-- Index `i` is held by a strict majority. -/
def HeldByMajority (rf : Raft n Command Bytes) (i : Int) : Prop :=
  n < 2 * (holders rf i).card

instance (rf : Raft n Command Bytes) (i : Int) : Decidable (HeldByMajority rf i) :=
  inferInstanceAs (Decidable (_ < _))

/-- The matches recorded for the other servers are inside the leader's log. -/
def MatchesInside (rf : Raft n Command Bytes) : Prop :=
  ∀ v, v ≠ rf.me → -1 ≤ rf.matchIndex v ∧ rf.matchIndex v ≤ (rf.log.length : Int) - 1

variable {rf : Raft n Command Bytes} {N : Int}

/-! ## Counting -/

/-- Inside the log it makes no difference that the leader's slot is one too high. -/
theorem le_copyMatchIndex_iff {i : Int} (hi : i < rf.log.length) (v : Fin n) :
    i ≤ copyMatchIndex rf v ↔ i ≤ held rf v := by
  rw [copyMatchIndex, held]
  by_cases hv : v = rf.me
  · subst hv
    rw [Function.update_self, if_pos rfl]
    omega
  · rw [Function.update_of_ne hv, if_neg hv]

/-- **`N` AND ITS HOLDERS**: up to the end of the log, `i ≤ N` means that at least
    `n - n / 2` servers hold `i`. -/
theorem le_commitCandidate_iff (hN : commitCandidate rf = some N) {i : Int}
    (hi : i < rf.log.length) : i ≤ N ↔ n - n / 2 ≤ (holders rf i).card := by
  rw [commitCandidate_eq] at hN
  rw [le_kth_iff hN, holders, Finset.filter_congr fun v _ => le_copyMatchIndex_iff hi v]

/-- Only the leader's slot reaches past the log. -/
theorem card_past_log_le_one (hin : MatchesInside rf) :
    (Finset.univ.filter fun v => (rf.log.length : Int) ≤ copyMatchIndex rf v).card ≤ 1 := by
  have hsub : (Finset.univ.filter fun v => (rf.log.length : Int) ≤ copyMatchIndex rf v) ⊆
      {rf.me} := by
    intro v hv
    have hle := (Finset.mem_filter.mp hv).2
    by_contra hne
    rw [Finset.mem_singleton] at hne
    rw [copyMatchIndex, Function.update_of_ne hne] at hle
    have := (hin v hne).2
    omega
  exact (Finset.card_le_card hsub).trans (Finset.card_singleton _).le

/-- `N` is inside the log just when there are three servers or more. -/
theorem commitCandidate_lt_iff (hn : 2 ≤ n) (hin : MatchesInside rf)
    (hN : commitCandidate rf = some N) : N < rf.log.length ↔ 3 ≤ n := by
  rw [commitCandidate_eq] at hN
  have hpast := card_past_log_le_one hin
  have hme : rf.me ∈ Finset.univ.filter fun v => (rf.log.length : Int) ≤ copyMatchIndex rf v := by
    refine Finset.mem_filter.mpr ⟨Finset.mem_univ _, ?_⟩
    rw [copyMatchIndex, Function.update_self]
  have hpos := Finset.card_pos.mpr ⟨_, hme⟩
  rw [← not_le, le_kth_iff hN]
  omega

/-! ## Odd clusters -/

/-- **THE QUORUM RULE**: in every cluster of an odd number of servers, three or more, `N`
    is inside the leader's log, and it is the greatest index that a strict majority of
    the servers holds. -/
theorem commitCandidate_is_majority_index (rf : Raft n Command Bytes) (hodd : Odd n)
    (hn : 3 ≤ n) (hin : MatchesInside rf) :
    ∃ N, commitCandidate rf = some N ∧ N < rf.log.length ∧
      IsGreatest {i | HeldByMajority rf i} N := by
  obtain ⟨N, hN⟩ : ∃ N, commitCandidate rf = some N := by
    rw [commitCandidate_eq]
    exact exists_kth _ (by omega)
  have hlt := (commitCandidate_lt_iff (by omega) hin hN).mpr hn
  obtain ⟨m, hm⟩ := hodd
  refine ⟨N, hN, hlt, ?_, ?_⟩
  · have := (le_commitCandidate_iff hN hlt).mp le_rfl
    show n < 2 * (holders rf N).card
    omega
  · intro i hi
    have hmaj : n < 2 * (holders rf i).card := hi
    -- some server holds `i`, so it is an index of the log
    obtain ⟨v, hv⟩ : (holders rf i).Nonempty := Finset.card_pos.mp (by omega)
    have hheld : i ≤ held rf v := (Finset.mem_filter.mp hv).2
    have hi : i < rf.log.length := by
      rw [held] at hheld
      split at hheld
      · omega
      · rename_i hne
        have := (hin v hne).2
        omega
    exact (le_commitCandidate_iff hN hi).mpr (by omega)

/-- A leader of three with two entries of its term; server `1` holds the first. -/
def oneMatch : Raft 3 Nat (List (GobValue Nat)) :=
  { make (plainGob Nat) 0 ⟨none⟩ with
    currentTerm := 1, state := .leader, log := [⟨7, 1⟩, ⟨8, 1⟩]
    matchIndex := fun v => if v = 1 then 0 else -1 }

theorem commitCandidate_is_majority_index_of_three :
    ∃ N, commitCandidate oneMatch = some N ∧ N < oneMatch.log.length ∧
      IsGreatest {i | HeldByMajority oneMatch i} N :=
  commitCandidate_is_majority_index oneMatch (by decide) (by decide)
    (by unfold MatchesInside; decide)

/-! ## Clusters of any size -/

/-- The commit rule reads inside the log, and raises `committedIndex` only to an index
    that a strict majority holds. -/
def CommitSafe (rf : Raft n Command Bytes) : Prop :=
  ∃ commit, leaderCommitIndex rf = some commit ∧
    (rf.committedIndex < commit → HeldByMajority rf commit)

/-- The servers whose match is at `i` or later; the leader is taken to be at `len(log)`. -/
def reaching (rf : Raft n Command Bytes) (i : Int) : Finset (Fin n) :=
  Finset.univ.filter fun v => if v = rf.me then i ≤ rf.log.length else i ≤ rf.matchIndex v

/-- No entry of the leader's term, behind the committed ones, is the last one that half of
    the servers hold and held by no more than half. -/
def NoHalfWay (rf : Raft n Command Bytes) : Prop :=
  ∀ k < rf.log.length, rf.committedIndex < k →
    (rf.log[k]?.map LogEntry.term = some rf.currentTerm) → 2 * (reaching rf k).card = n →
    2 * (reaching rf (k + 1)).card = n

instance (rf : Raft n Command Bytes) : Decidable (NoHalfWay rf) :=
  inferInstanceAs (Decidable (∀ k < _, _))

/-- When it is safe: fewer than half of the servers are past `committedIndex`; or at least
    half have a match, fewer than half are past the log, and the number of servers is odd or
    no entry is half way. -/
def CommitFits (rf : Raft n Command Bytes) : Prop :=
  2 * (reaching rf (rf.committedIndex + 1)).card < n ∨
    (n ≤ 2 * (reaching rf 0).card ∧ 2 * (reaching rf rf.log.length).card < n ∧
      (Odd n ∨ NoHalfWay rf))

instance (rf : Raft n Command Bytes) : Decidable (CommitFits rf) :=
  inferInstanceAs (Decidable (_ ∨ (_ ∧ _ ∧ (_ ∨ _))))

/-- A later index is reached by no more servers. -/
theorem card_reaching_le {i k : Int} (hik : i ≤ k) :
    (reaching rf k).card ≤ (reaching rf i).card := by
  refine Finset.card_le_card fun v hv => ?_
  have hle := (Finset.mem_filter.mp hv).2
  refine Finset.mem_filter.mpr ⟨Finset.mem_univ v, ?_⟩
  split at hle
  · next hme => rw [if_pos hme]; omega
  · next hme => rw [if_neg hme]; omega

/-- **`N` AS A COUNT**: `i ≤ N` means that at least half of the servers reach `i`. -/
theorem le_commitCandidate_iff_reaching (hN : commitCandidate rf = some N) (i : Int) :
    i ≤ N ↔ n ≤ 2 * (reaching rf i).card := by
  have hreach : (Finset.univ.filter fun v => i ≤ copyMatchIndex rf v) = reaching rf i := by
    refine Finset.filter_congr fun v _ => ?_
    rw [copyMatchIndex]
    by_cases hv : v = rf.me
    · subst hv
      rw [Function.update_self, if_pos rfl]
    · rw [Function.update_of_ne hv, if_neg hv]
  rw [commitCandidate_eq] at hN
  rw [le_kth_iff hN, hreach]
  omega

/-- The servers that hold an index of the log are those that reach it. -/
theorem holders_eq_reaching {i : Int} (hi : i < rf.log.length) : holders rf i = reaching rf i := by
  refine Finset.filter_congr fun v _ => ?_
  rw [held]
  by_cases hv : v = rf.me
  · rw [if_pos hv, if_pos hv]
    omega
  · rw [if_neg hv, if_neg hv]

/-- In an even cluster `N` is not held by a strict majority just when it is half way. -/
theorem heldByMajority_iff (hN : commitCandidate rf = some N) (hlt : N < rf.log.length) :
    HeldByMajority rf N ↔ Odd n ∨ 2 * (reaching rf N).card ≠ n := by
  have hhalf := (le_commitCandidate_iff_reaching hN N).mp le_rfl
  rw [HeldByMajority, holders_eq_reaching hlt]
  rcases Nat.even_or_odd' n with ⟨m, rfl | rfl⟩
  · have hnot : ¬ Odd (2 * m) := by simp
    rw [or_iff_right hnot]
    omega
  · exact iff_of_true (by omega) (.inl ⟨m, rfl⟩)

/-- The index that can be half way is `N`. -/
theorem noHalfWay_iff (hN : commitCandidate rf = some N) (hread : 0 ≤ N ∧ N < rf.log.length)
    (hgt : rf.committedIndex < N) {e : LogEntry Command} (he : rf.log[N.toNat]? = some e) :
    NoHalfWay rf ↔ e.term ≠ rf.currentTerm ∨ 2 * (reaching rf N).card ≠ n := by
  have hcast : (N.toNat : Int) = N := Int.toNat_of_nonneg hread.1
  have hnext : ¬ n ≤ 2 * (reaching rf (N + 1)).card := by
    rw [← le_commitCandidate_iff_reaching hN]
    omega
  constructor
  · intro h
    by_contra hboth
    push Not at hboth
    have hlast := h N.toNat (by omega) (by omega) (by rw [he, Option.map_some, hboth.1])
      (by rw [hcast]; exact hboth.2)
    rw [hcast] at hlast
    omega
  · intro h k hk hcommitted hterm hhalf
    -- half of the servers reach `k`, so it is not behind `N`
    have hkN : (k : Int) ≤ N := (le_commitCandidate_iff_reaching hN k).mpr hhalf.ge
    rcases hkN.lt_or_eq with hlt | heq
    · have hsucc : n ≤ 2 * (reaching rf (k + 1)).card :=
        (le_commitCandidate_iff_reaching hN (k + 1)).mp (by omega)
      have hle : (reaching rf (k + 1)).card ≤ (reaching rf k).card := card_reaching_le (by omega)
      omega
    · -- `k` is `N`
      obtain rfl : k = N.toNat := by omega
      rw [he, Option.map_some, Option.some.injEq] at hterm
      rw [hcast] at hhalf
      exact absurd hhalf (h.resolve_left (absurd hterm))

/-- **WHEN THE COMMIT RULE IS SAFE**, for two servers or more. -/
theorem commitSafe_iff (hn : 2 ≤ n) (rf : Raft n Command Bytes) :
    CommitSafe rf ↔ CommitFits rf := by
  obtain ⟨N, hN⟩ : ∃ N, commitCandidate rf = some N := by
    rw [commitCandidate_eq]
    exact exists_kth _ (by omega)
  have hold : 2 * (reaching rf (rf.committedIndex + 1)).card < n ↔ N ≤ rf.committedIndex := by
    rw [← not_le, ← le_commitCandidate_iff_reaching hN]
    omega
  have hstart : n ≤ 2 * (reaching rf 0).card ↔ 0 ≤ N :=
    (le_commitCandidate_iff_reaching hN 0).symm
  have hend : 2 * (reaching rf rf.log.length).card < n ↔ N < rf.log.length := by
    rw [← not_le, ← le_commitCandidate_iff_reaching hN, not_le]
  rw [CommitFits, hold, hstart, hend, CommitSafe, leaderCommitIndex, hN]
  simp only [Option.bind_eq_bind, Option.bind_some]
  by_cases hgt : N > rf.committedIndex
  · rw [if_pos hgt, or_iff_right (by omega)]
    by_cases hread : 0 ≤ N ∧ N < rf.log.length
    · -- the read is inside the log
      obtain ⟨e, he⟩ : ∃ e, rf.log[N.toNat]? = some e :=
        ⟨_, List.getElem?_eq_getElem (by omega)⟩
      have hget : goIndex rf.log N = some e := by
        rw [goIndex, if_pos hread.1, he]
      rw [hget, noHalfWay_iff hN hread hgt he]
      simp only [Option.bind_some, Option.some.injEq, exists_eq_left']
      by_cases hterm : e.term = rf.currentTerm
      · rw [if_pos hterm, heldByMajority_iff hN hread.2]
        simp [hgt, hread, hterm]
      · rw [if_neg hterm]
        simp [hread, hterm]
    · -- the read panics
      have hget : goIndex rf.log N = none := by
        rw [goIndex]
        split
        · exact List.getElem?_eq_none (by omega)
        · rfl
      rw [hget]
      refine iff_of_false ?_ fun h => hread ⟨h.1, h.2.1⟩
      rintro ⟨commit, h, -⟩
      cases h
  · rw [if_neg hgt]
    exact iff_of_true ⟨_, rfl, fun h => absurd h (lt_irrefl _)⟩ (.inl (not_lt.mp hgt))

/-- With the matches inside of the log the leader alone is past it. -/
theorem MatchesInside.reaching_length (hin : MatchesInside rf) :
    reaching rf rf.log.length = {rf.me} := by
  ext v
  rw [reaching, Finset.mem_filter, Finset.mem_singleton]
  by_cases hv : v = rf.me
  · rw [if_pos hv]
    simp [hv]
  · have := (hin v hv).2
    rw [if_neg hv]
    exact iff_of_false (fun h => by omega) hv

/-- **AN ODD CLUSTER IS SAFE** when the matches are inside of the log. -/
theorem commitFits_of_odd (hn : 2 ≤ n) (hodd : Odd n) (hin : MatchesInside rf)
    (hcommitted : -1 ≤ rf.committedIndex) : CommitFits rf := by
  obtain ⟨m, hm⟩ := hodd
  by_cases hhalf : 2 * (reaching rf (rf.committedIndex + 1)).card < n
  · exact .inl hhalf
  refine .inr ⟨?_, ?_, .inl ⟨m, hm⟩⟩
  · have hle : (reaching rf (rf.committedIndex + 1)).card ≤ (reaching rf 0).card :=
      card_reaching_le (by omega)
    omega
  · rw [hin.reaching_length, Finset.card_singleton]
    omega

/-- With two servers the rule reads past the log unless everything is committed. -/
theorem commitFits_of_two (htwo : n = 2) (hin : MatchesInside rf) :
    CommitFits rf ↔ rf.log.length ≤ rf.committedIndex := by
  have hpast : ¬ 2 * (reaching rf rf.log.length).card < n := by
    rw [hin.reaching_length, Finset.card_singleton]
    omega
  rw [CommitFits, or_iff_left fun h => hpast h.2.1]
  constructor
  · intro h
    by_contra hlt
    -- the leader is past `committedIndex`
    have hmem : rf.me ∈ reaching rf (rf.committedIndex + 1) := by
      refine Finset.mem_filter.mpr ⟨Finset.mem_univ _, ?_⟩
      rw [if_pos rfl]
      omega
    have := Finset.card_pos.mpr ⟨_, hmem⟩
    omega
  · intro h
    have hnone : reaching rf (rf.committedIndex + 1) = ∅ := by
      refine Finset.filter_false_of_mem fun v _ => ?_
      split
      · omega
      · next hv =>
          have := (hin v hv).2
          omega
    rw [hnone, Finset.card_empty]
    omega

/-- A reply that reports a match inside of the log keeps all of them inside. -/
theorem MatchesInside.recordMatch (hin : MatchesInside rf) {j : Fin n}
    {args : AppendEntriesArgs Command} (hlow : -1 ≤ args.prevLogIndex + args.entries.length)
    (hhigh : args.prevLogIndex + args.entries.length ≤ (rf.log.length : Int) - 1) :
    MatchesInside (recordMatch rf j args) := by
  intro v hv
  show -1 ≤ Function.update rf.matchIndex j _ v ∧
    Function.update rf.matchIndex j _ v ≤ (rf.log.length : Int) - 1
  by_cases hvj : v = j
  · subst hvj
    rw [Function.update_self]
    exact ⟨hlow, hhigh⟩
  · rw [Function.update_of_ne hvj]
    exact hin v hv

/-- **THE COMMIT STEP**: a successful reply is handled by recording the match, applying the
    commit rule and applying the log.  For every number of servers, two or more, and every
    leader state the commit rule is safe just when the matches fit.  If all of them are inside
    of the log, the one that the reply reports included, an odd cluster is safe, and two
    servers are so only if everything is committed. -/
theorem commit_step_safe_iff (gob : Gob Command Bytes) (rf : Raft n Command Bytes) (j : Fin n)
    (args : AppendEntriesArgs Command) (reply : AppendEntriesReply) (hn : 2 ≤ n)
    (hlead : rf.state = .leader) (hterm : rf.currentTerm = args.term)
    (hreply : reply.term ≤ rf.currentTerm) (hsuc : reply.success = true) :
    (appendReply gob rf j args reply = do
      let committedIndex ← leaderCommitIndex (recordMatch rf j args)
      startApplyLogs { recordMatch rf j args with committedIndex }) ∧
    (CommitSafe (recordMatch rf j args) ↔ CommitFits (recordMatch rf j args)) ∧
    (MatchesInside rf → -1 ≤ args.prevLogIndex + args.entries.length →
      args.prevLogIndex + args.entries.length ≤ (rf.log.length : Int) - 1 →
      (Odd n → -1 ≤ rf.committedIndex → CommitSafe (recordMatch rf j args)) ∧
      (n = 2 → (CommitSafe (recordMatch rf j args) ↔ rf.log.length ≤ rf.committedIndex))) := by
  have hsafe := commitSafe_iff hn (recordMatch rf j args)
  refine ⟨?_, hsafe, fun hin hlow hhigh => ?_⟩
  · rw [appendReply, if_neg (not_lt_of_ge hreply), if_neg (by simp [hterm, hlead]), if_pos hsuc]
    rfl
  · have hin' := hin.recordMatch (j := j) hlow hhigh
    refine ⟨fun hodd hcommitted => hsafe.mpr (commitFits_of_odd hn hodd hin' hcommitted), ?_⟩
    intro htwo
    rw [hsafe, commitFits_of_two htwo hin']
    rfl

/-- Server `1` reports the second entry to the leader of three. -/
theorem commit_step_safe_of_three :
    CommitSafe (recordMatch oneMatch 1 ⟨1, 0, 0, 1, [⟨8, 1⟩], -1⟩) :=
  (commit_step_safe_iff (plainGob Nat) oneMatch 1 ⟨1, 0, 0, 1, [⟨8, 1⟩], -1⟩
    ⟨1, true, 0, 0⟩ (by decide) rfl rfl (by decide) rfl).2.1.mpr (by decide +kernel)

/-- A leader of term `1` that has started its first command. -/
def firstCommand (me : Fin n) : Raft n Nat (List (GobValue Nat)) :=
  { make (plainGob Nat) me ⟨none⟩ with
    currentTerm := 1, state := .leader, log := [⟨7, 1⟩], matchIndex := fun _ => -1 }

/-- **TOO FEW AND TOO MANY**: with two servers the first successful reply reads `rf.log[1]`
    of a log of one entry; with four, `committedIndex` is raised to an index that two
    servers hold. -/
theorem commit_step_of_two_and_four :
    (appendReply (plainGob Nat) (firstCommand (⟨0, by decide⟩ : Fin 2)) ⟨1, by decide⟩
      ⟨1, 0, -1, -1, [⟨7, 1⟩], -1⟩ ⟨1, true, 0, 0⟩).isNone = true ∧
    (appendReply (plainGob Nat) (firstCommand (⟨0, by decide⟩ : Fin 4)) ⟨1, by decide⟩
      ⟨1, 0, -1, -1, [⟨7, 1⟩], -1⟩ ⟨1, true, 0, 0⟩).map (fun r => r.1.committedIndex) = some 0 ∧
    (holders (recordMatch (firstCommand (⟨0, by decide⟩ : Fin 4)) ⟨1, by decide⟩
      ⟨1, 0, -1, -1, [⟨7, 1⟩], -1⟩) 0).card = 2 := by
  decide +kernel

end RaftQuorum
