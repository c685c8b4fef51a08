import UniqueFreshman.OrderStatisticProofs
import UniqueFreshman.RaftTermOrderProofs
import UniqueFreshman.TermLogSafetyProofs

/-! # Commit and vote comparisons — what the arithmetic of `raft.go` decides

    The code compares indices and terms in three places that carry the safety
    argument: the sorted copy of `matchIndex` (how many servers hold index `N`),
    the clipped `LeaderCommit` of a follower, and the up-to-date test of
    `RequestVote`.  Each gets the one fact the argument uses. -/

namespace RaftCommit

open GoSlice OrderStatistic RaftServer RaftTermOrder TermLogSafety

variable {n : Nat} {Command Bytes : Type}

/-! ## The commit rule -/

/-- The copy of `matchIndex` that is sorted: the leader's own slot holds `len(log)`. -/
def copyMatchIndex (rf : Raft n Command Bytes) : Fin n → Int :=
  Function.update rf.matchIndex rf.me (rf.log.length : Int)

/-- `N` is the value of the copy at position `n / 2`, from the smallest up. -/
theorem commitCandidate_eq (rf : Raft n Command Bytes) :
    commitCandidate rf = kth (copyMatchIndex rf) (n / 2) :=
  goIndex_natCast ..

/-- **THE COMMIT RULE**: a new `committedIndex` is an index of the leader's log
    with an entry of its term, which at least half of the servers, the leader
    counted in, are known to hold.  (For an even number of servers it is half
    and not a majority.) -/
theorem leaderCommitIndex_cases {rf : Raft n Command Bytes} {commit : Int}
    (h : leaderCommitIndex rf = some commit) :
    commit = rf.committedIndex ∨ ∃ (N : Nat) (e : LogEntry Command),
      commit = N ∧ rf.log[N]? = some e ∧ e.term = rf.currentTerm ∧
      Half (Finset.univ.filter fun v => v = rf.me ∨ (N : Int) ≤ rf.matchIndex v) := by
  rw [leaderCommitIndex] at h
  obtain ⟨N, hN, h⟩ := Option.bind_eq_some_iff.mp h
  split at h
  · obtain ⟨e, he, h⟩ := Option.bind_eq_some_iff.mp h
    obtain ⟨hlo, -, hget⟩ := goIndex_eq_some he
    by_cases hterm : e.term = rf.currentTerm
    · rw [if_pos hterm] at h
      right
      refine ⟨N.toNat, e, by rw [← Option.some.inj h]; omega, hget, hterm, ?_⟩
      rw [commitCandidate_eq] at hN
      have hcard := (le_kth_iff hN N).mp le_rfl
      -- the leader's own slot holds `len(log)`, the others their `matchIndex`
      have hsub : (Finset.univ.filter fun v => N ≤ copyMatchIndex rf v) ⊆
          Finset.univ.filter fun v => v = rf.me ∨ ((N.toNat : Nat) : Int) ≤ rf.matchIndex v := by
        intro v hv
        have hle := (Finset.mem_filter.mp hv).2
        refine Finset.mem_filter.mpr ⟨Finset.mem_univ v, ?_⟩
        by_cases hme : v = rf.me
        · exact .inl hme
        · rw [copyMatchIndex, Function.update_of_ne hme] at hle
          right
          omega
      have hmono := Finset.card_le_card hsub
      show Fintype.card (Fin n) ≤ 2 * _
      rw [Fintype.card_fin]
      omega
    · rw [if_neg hterm] at h
      exact .inl (Option.some.inj h).symm
  · exact .inl (Option.some.inj h).symm

/-- The commit rule only raises `committedIndex`, and inside the log. -/
theorem leaderCommitIndex_bounds {rf : Raft n Command Bytes} {commit : Int}
    (h : leaderCommitIndex rf = some commit) (hlt : rf.committedIndex < rf.log.length) :
    commit < rf.log.length ∧ rf.committedIndex ≤ commit := by
  obtain ⟨N, -, h⟩ := Option.bind_eq_some_iff.mp h
  split at h
  · rename_i hgt
    obtain ⟨e, he, h⟩ := Option.bind_eq_some_iff.mp h
    obtain ⟨-, hhi, -⟩ := goIndex_eq_some he
    rw [← Option.some.inj h]
    split
    · exact ⟨hhi, le_of_lt hgt⟩
    · exact ⟨hlt, le_rfl⟩
  · rw [← Option.some.inj h]
    exact ⟨hlt, le_rfl⟩

/-- What a follower commits was committed before, or the leader says so and the
    request covers it. -/
theorem le_of_le_followCommit {committedIndex logLength i : Int}
    {args : AppendEntriesArgs Command}
    (h : i ≤ followCommit committedIndex logLength args) :
    i ≤ committedIndex ∨
      (i ≤ args.leaderCommit ∧ i ≤ args.prevLogIndex + args.entries.length) := by
  rw [followCommit] at h
  by_cases hgt : args.leaderCommit > committedIndex
  · rw [if_pos hgt] at h
    dsimp only at h
    split at h <;> split at h <;> omega
  · rw [if_neg hgt] at h
    exact .inl h

/-! ## The up-to-date test -/

/-- `RequestVote` compares the voter's log with the candidate's last entry as
    the abstract relation does; entries have positive terms, so that the `-1`
    sent for an empty log loses against every entry. -/
theorem upToDate_of_newer {C L : List (LogEntry Command)} {args : RequestVoteArgs} {t : Int}
    (hL : LogOrder L t) (hnewer : newer L args = true)
    (hindex : args.lastLogIndex = (C.length : Int) - 1)
    (hterm : args.lastLogTerm = lastLogTerm C) : UpToDate LogEntry.term C L := by
  intro e he
  have hpos : 1 ≤ e.term :=
    (hL.within e.term (List.mem_map_of_mem (List.mem_of_getLast? he))).1
  rw [newer, he] at hnewer
  simp only [Bool.or_eq_true, decide_eq_true_eq, Bool.and_eq_true, beq_iff_eq] at hnewer
  rw [hterm, hindex, lastLogTerm] at hnewer
  cases hC : C.getLast? with
  | none =>
      rw [hC] at hnewer
      dsimp only at hnewer
      omega
  | some f =>
      rw [hC] at hnewer
      refine ⟨f, rfl, ?_⟩
      dsimp only at hnewer
      omega

end RaftCommit
