import UniqueFreshman.RaftServerProofs

/-! # What each handler does — one specification per function

    Every later invariant is derived from the lemmas of this file and never
    unfolds a handler again.  Steps that only move goroutines around keep the
    CORE of a server (`SameCore`); the others are described field by field or
    by an inversion lemma with one disjunct per path through the code. -/

namespace RaftHandler

open GoSlice RaftServer

variable {n : Nat} {Command Bytes : Type} {gob : Gob Command Bytes}
variable {rf rf' : Raft n Command Bytes}

/-! ## Steps that keep the core -/

/-- The fields the protocol's safety is about are unchanged. -/
structure SameCore (rf rf' : Raft n Command Bytes) : Prop where
  me : rf'.me = rf.me
  currentTerm : rf'.currentTerm = rf.currentTerm
  votedFor : rf'.votedFor = rf.votedFor
  log : rf'.log = rf.log
  state : rf'.state = rf.state
  voteGranted : rf'.voteGranted = rf.voteGranted
  voteNotGranted : rf'.voteNotGranted = rf.voteNotGranted
  committedIndex : rf'.committedIndex = rf.committedIndex
  lastApplied : rf'.lastApplied = rf.lastApplied
  matchIndex : rf'.matchIndex = rf.matchIndex
  nextIndex : rf'.nextIndex = rf.nextIndex

/-- A `startRequestVote` goroutine reads the server and changes no core field;
    only a candidate sends, and it sends its own last entry. -/
theorem startRequestVote_spec {out : Option (Nat × RequestVoteArgs)}
    (h : startRequestVote rf = some (rf', out)) :
    SameCore rf rf' ∧ rf'.persister = rf.persister ∧
      ∀ round args, out = some (round, args) →
        rf.state = .candidate ∧
        args = ⟨rf.currentTerm, (rf.me : Nat), (rf.log.length : Int) - 1,
          lastLogTerm rf.log⟩ := by
  rw [startRequestVote] at h
  split at h
  · exact nomatch h
  · dsimp only at h
    split at h
    · cases h
      exact ⟨⟨rfl, rfl, rfl, rfl, rfl, rfl, rfl, rfl, rfl, rfl, rfl⟩, rfl,
        fun _ _ h => nomatch h⟩
    · rename_i hstate
      cases h
      refine ⟨⟨rfl, rfl, rfl, rfl, rfl, rfl, rfl, rfl, rfl, rfl, rfl⟩, rfl, ?_⟩
      intro round args hout
      obtain ⟨-, rfl⟩ := Prod.mk.inj (Option.some.inj hout)
      exact ⟨not_not.mp hstate, rfl⟩

/-- A `startAppendEntries` goroutine changes no core field; only a leader
    sends, and only to another server. -/
theorem runAppendEntries_spec {j : Fin n} {out : Option (AppendEntriesArgs Command)}
    (h : runAppendEntries rf j = some (rf', out)) :
    SameCore rf rf' ∧ rf'.persister = rf.persister ∧
      ∀ args, out = some args →
        j ≠ rf.me ∧ rf.state = .leader ∧ appendRequest rf j = some args := by
  rw [runAppendEntries] at h
  split at h
  · exact nomatch h
  · dsimp only at h
    split at h
    · cases h
      exact ⟨⟨rfl, rfl, rfl, rfl, rfl, rfl, rfl, rfl, rfl, rfl, rfl⟩, rfl,
        fun _ h => nomatch h⟩
    · rename_i hsend
      cases hreq : appendRequest rf j with
      | none => rw [hreq] at h; exact nomatch h
      | some args =>
          rw [hreq] at h
          cases h
          refine ⟨⟨rfl, rfl, rfl, rfl, rfl, rfl, rfl, rfl, rfl, rfl, rfl⟩, rfl, ?_⟩
          intro args' hout
          rw [Option.some.inj hout]
          exact ⟨fun hj => hsend (.inl hj), not_not.mp fun hs => hsend (.inr hs), rfl⟩

/-- The request a leader builds: everything after `PrevLogIndex`. -/
theorem appendRequest_spec {j : Fin n} {args : AppendEntriesArgs Command}
    (h : appendRequest rf j = some args) :
    ∃ k : Nat, k ≤ rf.log.length ∧ args.prevLogIndex = (k : Int) - 1 ∧
      args.entries = rf.log.drop k ∧
      (∀ m : Nat, k = m + 1 → (rf.log[m]?).map LogEntry.term = some args.prevLogTerm) ∧
      (k = 0 → args.prevLogTerm = -1) ∧
      args.term = rf.currentTerm ∧ args.leaderID = (rf.me : Nat) ∧
      args.leaderCommit = rf.committedIndex := by
  rw [appendRequest] at h
  simp only [Option.bind_eq_bind, Option.bind_eq_some_iff] at h
  obtain ⟨prevTerm, hprev, entries, hentries, hargs⟩ := h
  obtain ⟨hlo, hhi, hdrop⟩ := goSliceFrom_eq_some hentries
  cases hargs
  refine ⟨(rf.nextIndex j - 1 + 1).toNat, by omega, ?_, hdrop, ?_, ?_, rfl, rfl, rfl⟩
  · show rf.nextIndex j - 1 = _
    omega
  · intro m hm
    rw [termAt, if_pos (by omega)] at hprev
    obtain ⟨e, he, hterm⟩ := Option.map_eq_some_iff.mp hprev
    obtain ⟨-, -, hget⟩ := goIndex_eq_some he
    have hm' : (rf.nextIndex j - 1).toNat = m := by omega
    rw [hm'] at hget
    rw [hget, Option.map_some, hterm]
  · intro h0
    rw [termAt, if_neg (by omega)] at hprev
    exact (Option.some.inj hprev).symm

theorem appendRequest_prevLogIndex {j : Fin n} {args : AppendEntriesArgs Command}
    (h : appendRequest rf j = some args) : args.prevLogIndex = rf.nextIndex j - 1 := by
  obtain ⟨prevTerm, -, h⟩ := Option.bind_eq_some_iff.mp h
  obtain ⟨entries, -, h⟩ := Option.bind_eq_some_iff.mp h
  obtain rfl := Option.some.inj h
  rfl

/-- Everything the `heartBeat` loop can do to the core: nothing, forget the
    vote and follow in the same term, or stand as a candidate in the next. -/
theorem loopStep_cases {e : LoopEvent} (h : loopStep gob rf e = some rf') :
    (SameCore rf rf' ∧ (rf'.persister = rf.persister
        ∨ rf'.persister = ⟨some (gob.encode (persisted rf'))⟩)) ∨
    ((e = .candidateHeartBeat ∨
        (e = .candidateTimer ∧ rf.state ≠ .follower ∧ ¬ rf.voteNotGranted * 2 < (n : Int)))
      ∧ ∃ hb, rf' = { convertToFollower gob rf rf.currentTerm (-1) with
          heartBeatCh := hb, loopAt := .top }) ∨
    ((e = .followerTimer ∨ (e = .candidateTimer ∧ rf.state ≠ .follower))
      ∧ rf' = { convertToCandidate gob rf with loopAt := .top }) := by
  cases e with
  | top =>
      simp only [loopStep] at h
      split at h
      · cases hst : rf.state <;> rw [hst] at h <;> cases h <;>
          exact .inl ⟨⟨rfl, rfl, rfl, rfl, rfl, rfl, rfl, rfl, rfl, rfl, rfl⟩, .inr rfl⟩
      · exact nomatch h
  | appendRound =>
      simp only [loopStep] at h
      split at h
      · split at h <;> cases h <;>
          exact .inl ⟨⟨rfl, rfl, rfl, rfl, rfl, rfl, rfl, rfl, rfl, rfl, rfl⟩, .inl rfl⟩
      · exact nomatch h
  | candidateHeartBeat =>
      simp only [loopStep] at h
      split at h
      · cases h
        exact .inr (.inl ⟨.inl rfl, _, rfl⟩)
      · exact nomatch h
  | candidateTimer =>
      simp only [loopStep] at h
      split at h
      · split at h
        · cases h
          exact .inl ⟨⟨rfl, rfl, rfl, rfl, rfl, rfl, rfl, rfl, rfl, rfl, rfl⟩, .inl rfl⟩
        · rename_i hstate
          split at h
          · cases h
            exact .inr (.inr ⟨.inr ⟨rfl, hstate⟩, rfl⟩)
          · rename_i hvotes
            cases h
            exact .inr (.inl ⟨.inr ⟨rfl, hstate, hvotes⟩, rf.heartBeatCh, rfl⟩)
      · exact nomatch h
  | followerTimer =>
      simp only [loopStep] at h
      split at h
      · cases h
        exact .inr (.inr ⟨.inl rfl, rfl⟩)
      · exact nomatch h
  | candidateLeader | followerGrantVote | followerHeartBeat =>
      simp only [loopStep] at h
      split at h
      · cases h
        exact .inl ⟨⟨rfl, rfl, rfl, rfl, rfl, rfl, rfl, rfl, rfl, rfl, rfl⟩, .inl rfl⟩
      · exact nomatch h
  | steal c =>
      cases c <;>
      · simp only [loopStep] at h
        split at h
        · cases h
          exact .inl ⟨⟨rfl, rfl, rfl, rfl, rfl, rfl, rfl, rfl, rfl, rfl, rfl⟩, .inl rfl⟩
        · exact nomatch h

/-! ## `RequestVote` -/

/-- What `RequestVote` leaves behind, field by field. -/
structure VoteOutcome (gob : Gob Command Bytes) (rf : Raft n Command Bytes)
    (args : RequestVoteArgs) (rf' : Raft n Command Bytes) (reply : RequestVoteReply) :
    Prop where
  me : rf'.me = rf.me
  log : rf'.log = rf.log
  committedIndex : rf'.committedIndex = rf.committedIndex
  lastApplied : rf'.lastApplied = rf.lastApplied
  matchIndex : rf'.matchIndex = rf.matchIndex
  nextIndex : rf'.nextIndex = rf.nextIndex
  currentTerm : rf'.currentTerm = max rf.currentTerm args.term
  state : rf'.state = if args.term > rf.currentTerm then .follower else rf.state
  voteGranted : rf'.state ≠ .follower → rf'.voteGranted = rf.voteGranted
  replyTerm : reply.term = rf'.currentTerm
  /-- A granted vote is a fresh or a repeated one, to an up-to-date candidate. -/
  grant : reply.voteGranted = true →
    rf.currentTerm ≤ args.term ∧ newer rf.log args = true ∧
    (rf.currentTerm < args.term ∨ rf.votedFor = -1 ∨ rf.votedFor = args.candidateID) ∧
    rf'.votedFor = args.candidateID
  /-- Within a term, only a request of the recorded candidate with an
      up-to-date log leaves the record alone. -/
  keep : newer rf.log args = true → rf.votedFor = args.candidateID →
    rf'.votedFor = args.candidateID
  saved : rf'.persister = ⟨some (gob.encode (persisted rf'))⟩

theorem requestVote_spec (gob : Gob Command Bytes) (rf : Raft n Command Bytes)
    (args : RequestVoteArgs) :
    VoteOutcome gob rf args (requestVote gob rf args).1 (requestVote gob rf args).2 := by
  by_cases hgt : args.term > rf.currentTerm
  · have hmax : max rf.currentTerm args.term = args.term := by omega
    by_cases hst : rf.state = .follower
    · constructor <;>
        simp [requestVote, hgt, hst, hmax, persist, persisted, not_lt_of_gt hgt]
      · intro hn
        exact ⟨by omega, hn, fun h => absurd (hn.symm.trans h) (by simp)⟩
      · intro hn _ h
        exact absurd (hn.symm.trans h) (by simp)
    · constructor <;>
        simp [requestVote, hgt, hst, hmax, persist, persisted, convertToFollower,
          not_lt_of_gt hgt]
      · intro hn
        exact ⟨by omega, hn, fun h => absurd (hn.symm.trans h) (by simp)⟩
      · intro hn _ h
        exact absurd (hn.symm.trans h) (by simp)
  · have hmax : max rf.currentTerm args.term = rf.currentTerm := by omega
    constructor <;> simp [requestVote, hgt, hmax, persist, persisted]
    · intro hle hn hv
      exact ⟨hle, hn, by tauto, fun h => by simp_all⟩
    · intro hn hv h
      exact absurd (h hn) (by tauto)

/-! ## Replies to a candidate and to a leader -/

/-- Every path through the candidate's goroutine with a vote reply: step down,
    ignore, count a refusal, count a grant, or count the deciding grant. -/
theorem voteReply_cases (gob : Gob Command Bytes) (rf : Raft n Command Bytes)
    (round : Nat) (args : RequestVoteArgs) (reply : RequestVoteReply) :
    (rf.currentTerm < reply.term ∧
      voteReply gob rf round args reply = convertToFollower gob rf reply.term (-1)) ∨
    ((rf.currentTerm ≠ args.term ∨ rf.state ≠ .candidate) ∧
      voteReply gob rf round args reply = rf) ∨
    (rf.currentTerm = args.term ∧ rf.state = .candidate ∧ reply.voteGranted = false ∧
      voteReply gob rf round args reply
        = persist gob { rf with voteNotGranted := rf.voteNotGranted + 1 }) ∨
    (reply.term ≤ rf.currentTerm ∧ rf.currentTerm = args.term ∧ rf.state = .candidate ∧
      reply.voteGranted = true ∧
      voteReply gob rf round args reply
        = persist gob { rf with voteGranted := rf.voteGranted + 1 }) ∨
    (reply.term ≤ rf.currentTerm ∧ rf.currentTerm = args.term ∧ rf.state = .candidate ∧
      reply.voteGranted = true ∧ (rf.voteGranted + 1) * 2 > (n : Int) ∧
      ∃ ch rounds, voteReply gob rf round args reply
        = persist gob { rf with
            voteGranted := rf.voteGranted + 1, state := .leader
            nextIndex := fun _ => rf.log.length, matchIndex := fun _ => -1
            leaderCh := ch, nLeader := rounds }) := by
  rw [voteReply]
  by_cases hterm : reply.term > rf.currentTerm
  · rw [if_pos hterm]
    exact .inl ⟨hterm, rfl⟩
  · rw [if_neg hterm]
    by_cases hign : rf.currentTerm ≠ args.term ∨ rf.state ≠ .candidate
    · rw [if_pos hign]
      exact .inr (.inl ⟨hign, rfl⟩)
    · rw [if_neg hign]
      rw [not_or, not_not, not_not] at hign
      by_cases hgr : reply.voteGranted = true
      · rw [if_pos hgr]
        dsimp only
        split
        · rename_i hwin
          exact .inr (.inr (.inr (.inr ⟨by omega, hign.1, hign.2, hgr, hwin.2.1,
            _, _, rfl⟩)))
        · exact .inr (.inr (.inr (.inl ⟨by omega, hign.1, hign.2, hgr, rfl⟩)))
      · rw [if_neg hgr]
        exact .inr (.inr (.inl ⟨hign.1, hign.2, by simpa using hgr, rfl⟩))

/-- `startApplyLogs` moves `lastApplied` only, forward and not beyond
    `committedIndex`, and what it sends are the log's own commands up to there. -/
theorem applyLoop_spec {log : List (LogEntry Command)} {committedIndex : Int} :
    ∀ {fuel : Nat} {lastApplied last : Int} {msgs : List (ApplyMsg Command)},
      applyLoop log committedIndex fuel lastApplied = some (last, msgs) →
      lastApplied ≤ last ∧ last ≤ max lastApplied committedIndex ∧
      ∀ msg ∈ msgs, ∃ (i : Nat) (e : LogEntry Command), log[i]? = some e ∧
        (i : Int) ≤ committedIndex ∧ msg = ⟨true, e.command, i⟩ := by
  intro fuel
  induction fuel with
  | zero =>
      intro lastApplied last msgs h
      obtain ⟨rfl, rfl⟩ := Prod.mk.inj (Option.some.inj h)
      exact ⟨le_refl _, le_max_left .., fun _ hm => nomatch hm⟩
  | succ fuel ih =>
      intro lastApplied last msgs h
      rw [applyLoop] at h
      split at h
      · rename_i hguard
        obtain ⟨e, he, h⟩ := Option.bind_eq_some_iff.mp h
        obtain ⟨⟨last', msgs'⟩, hrec, h⟩ := Option.bind_eq_some_iff.mp h
        obtain ⟨rfl, rfl⟩ := Prod.mk.inj (Option.some.inj h)
        obtain ⟨hle, hmax, hmsgs⟩ := ih hrec
        obtain ⟨hlo, hhi, hget⟩ := goIndex_eq_some he
        refine ⟨by omega, by omega, ?_⟩
        intro msg hm
        rcases List.mem_cons.mp hm with rfl | hm
        · refine ⟨(lastApplied + 1).toNat, e, hget, by omega, ?_⟩
          rw [Int.toNat_of_nonneg hlo]
        · exact hmsgs msg hm
      · obtain ⟨rfl, rfl⟩ := Prod.mk.inj (Option.some.inj h)
        exact ⟨le_refl _, le_max_left .., fun _ hm => nomatch hm⟩

theorem startApplyLogs_spec {msgs : List (ApplyMsg Command)}
    (h : startApplyLogs rf = some (rf', msgs)) :
    ∃ last, rf' = { rf with lastApplied := last } ∧ rf.lastApplied ≤ last ∧
      last ≤ max rf.lastApplied rf.committedIndex ∧
      ∀ msg ∈ msgs, ∃ (i : Nat) (e : LogEntry Command), rf.log[i]? = some e ∧
        (i : Int) ≤ rf.committedIndex ∧ msg = ⟨true, e.command, i⟩ := by
  rw [startApplyLogs] at h
  obtain ⟨⟨last, msgs'⟩, hloop, h⟩ := Option.bind_eq_some_iff.mp h
  obtain ⟨rfl, rfl⟩ := Prod.mk.inj (Option.some.inj h)
  exact ⟨last, rfl, applyLoop_spec hloop⟩

/-- `startApplyLogs` does not panic on a server that counts from `-1`. -/
theorem applyLoop_returns {log : List (LogEntry Command)} {committedIndex : Int} :
    ∀ {fuel : Nat} {lastApplied : Int}, -1 ≤ lastApplied →
      ∃ r, applyLoop log committedIndex fuel lastApplied = some r := by
  intro fuel
  induction fuel with
  | zero =>
      intro lastApplied _
      exact ⟨_, rfl⟩
  | succ fuel ih =>
      intro lastApplied hlast
      rw [applyLoop]
      split
      · rename_i hguard
        obtain ⟨⟨last, msgs⟩, hr⟩ := ih (show -1 ≤ lastApplied + 1 by omega)
        have hget : goIndex log (lastApplied + 1) = some log[(lastApplied + 1).toNat] := by
          rw [goIndex, if_pos (by omega), List.getElem?_eq_getElem (by omega)]
        rw [hget, hr]
        exact ⟨_, rfl⟩
      · exact ⟨_, rfl⟩

theorem startApplyLogs_returns (hlast : -1 ≤ rf.lastApplied) :
    ∃ r, startApplyLogs rf = some r := by
  obtain ⟨⟨last, msgs⟩, hr⟩ : ∃ r, applyLoop rf.log rf.committedIndex
      (rf.committedIndex - rf.lastApplied).toNat rf.lastApplied = some r :=
    applyLoop_returns hlast
  rw [startApplyLogs]
  rw [hr]
  exact ⟨_, rfl⟩

/-- The match a positive reply records for peer `j`. -/
def recordMatch (rf : Raft n Command Bytes) (j : Fin n) (args : AppendEntriesArgs Command) :
    Raft n Command Bytes :=
  { rf with
    matchIndex := Function.update rf.matchIndex j (args.prevLogIndex + args.entries.length)
    nextIndex := Function.update rf.nextIndex j
      (args.prevLogIndex + args.entries.length + 1) }

/-- Every path through the leader's goroutine with an append reply: step down,
    ignore, back up and retry, or record the match and commit. -/
theorem appendReply_cases {j : Fin n} {args : AppendEntriesArgs Command}
    {reply : AppendEntriesReply} {msgs : List (ApplyMsg Command)}
    (h : appendReply gob rf j args reply = some (rf', msgs)) :
    (rf.currentTerm < reply.term ∧ rf' = convertToFollower gob rf reply.term (-1)
      ∧ msgs = []) ∨
    ((rf.currentTerm ≠ args.term ∨ rf.state ≠ .leader) ∧ rf' = rf ∧ msgs = []) ∨
    (reply.term ≤ rf.currentTerm ∧ rf.currentTerm = args.term ∧ rf.state = .leader ∧
      reply.success = false ∧ msgs = [] ∧
      ∃ go, rf' = { rf with
        nextIndex := Function.update rf.nextIndex j
          (max 0 (conflictScan reply (rf.nextIndex j) 0 false rf.log))
        appendGo := go }) ∨
    (reply.term ≤ rf.currentTerm ∧ rf.currentTerm = args.term ∧ rf.state = .leader ∧
      reply.success = true ∧
      ∃ commit last, leaderCommitIndex (recordMatch rf j args) = some commit ∧
        rf.lastApplied ≤ last ∧ last ≤ max rf.lastApplied commit ∧
        rf' = { recordMatch rf j args with committedIndex := commit, lastApplied := last } ∧
        ∀ msg ∈ msgs, ∃ (i : Nat) (e : LogEntry Command), rf.log[i]? = some e ∧
          (i : Int) ≤ commit ∧ msg = ⟨true, e.command, i⟩) := by
  rw [appendReply] at h
  by_cases hterm : reply.term > rf.currentTerm
  · rw [if_pos hterm] at h
    obtain ⟨rfl, rfl⟩ := Prod.mk.inj (Option.some.inj h)
    exact .inl ⟨hterm, rfl, rfl⟩
  · rw [if_neg hterm] at h
    by_cases hign : rf.currentTerm ≠ args.term ∨ rf.state ≠ .leader
    · rw [if_pos hign] at h
      obtain ⟨rfl, rfl⟩ := Prod.mk.inj (Option.some.inj h)
      exact .inr (.inl ⟨hign, rfl, rfl⟩)
    · rw [if_neg hign] at h
      rw [not_or, not_not, not_not] at hign
      by_cases hsuc : reply.success = true
      · rw [if_pos hsuc] at h
        obtain ⟨commit, hcommit, h⟩ := Option.bind_eq_some_iff.mp h
        obtain ⟨last, rfl, hlast, hmax, hmsgs⟩ := startApplyLogs_spec h
        exact .inr (.inr (.inr ⟨by omega, hign.1, hign.2, hsuc, commit, last, hcommit,
          hlast, hmax, rfl, hmsgs⟩))
      · rw [if_neg hsuc] at h
        obtain ⟨rfl, rfl⟩ := Prod.mk.inj (Option.some.inj h)
        refine .inr (.inr (.inl ⟨by omega, hign.1, hign.2, by simpa using hsuc, rfl,
          Function.update rf.appendGo j (rf.appendGo j + 1), ?_⟩))
        have hclip : (if conflictScan reply (rf.nextIndex j) 0 false rf.log < 0 then 0
            else conflictScan reply (rf.nextIndex j) 0 false rf.log) =
            max 0 (conflictScan reply (rf.nextIndex j) 0 false rf.log) := by
          split <;> omega
        rw [hclip]

/-! ## `AppendEntries` -/

/-- A reply of the consistency check carries the term it was made in, and a
    positive one found `PrevLogTerm` at `PrevLogIndex`. -/
theorem consistencyCheck_spec {log : List (LogEntry Command)} {currentTerm : Int}
    {args : AppendEntriesArgs Command} {reply : AppendEntriesReply}
    (h : consistencyCheck log currentTerm args = some reply) :
    reply.term = currentTerm ∧ (reply.success = true → currentTerm ≤ args.term ∧
      ∃ k : Nat, k ≤ log.length ∧ args.prevLogIndex = (k : Int) - 1 ∧
        ∀ m, k = m + 1 → (log[m]?).map LogEntry.term = some args.prevLogTerm) := by
  rw [consistencyCheck] at h
  split at h
  · cases h
    exact ⟨rfl, fun h => nomatch h⟩
  · rename_i hterm
    split at h
    · cases h
      exact ⟨rfl, fun h => nomatch h⟩
    · rename_i hlen
      split at h
      · rename_i hprev
        cases h
        exact ⟨rfl, fun _ => ⟨by omega, 0, Nat.zero_le _, by omega, fun m hm => nomatch hm⟩⟩
      · obtain ⟨prev, hget, h⟩ := Option.bind_eq_some_iff.mp h
        obtain ⟨hlo, hhi, hget⟩ := goIndex_eq_some hget
        dsimp only at h
        split at h
        · split at h <;> cases h <;> exact ⟨rfl, fun h => nomatch h⟩
        · rename_i heq
          cases h
          refine ⟨rfl, fun _ => ⟨by omega, args.prevLogIndex.toNat + 1, by omega, by omega, ?_⟩⟩
          intro m hm
          obtain rfl : args.prevLogIndex.toNat = m := by omega
          rw [hget, Option.map_some, not_not.mp heq]

/-- What `AppendEntries` leaves behind, field by field. -/
structure AppendOutcome (gob : Gob Command Bytes) (rf : Raft n Command Bytes)
    (args : AppendEntriesArgs Command) (rf' : Raft n Command Bytes)
    (reply : AppendEntriesReply) (msgs : List (ApplyMsg Command)) : Prop where
  me : rf'.me = rf.me
  votedFor : rf'.votedFor = rf.votedFor
  matchIndex : rf'.matchIndex = rf.matchIndex
  nextIndex : rf'.nextIndex = rf.nextIndex
  currentTerm : rf'.currentTerm = max rf.currentTerm args.term
  state : rf'.state = if args.term > rf.currentTerm then .follower else rf.state
  voteGranted : rf'.state ≠ .follower → rf'.voteGranted = rf.voteGranted
  check : consistencyCheck rf.log rf'.currentTerm args = some reply
  refused : reply.success = false →
    rf'.log = rf.log ∧ rf'.committedIndex = rf.committedIndex ∧ msgs = []
  accepted : reply.success = true →
    appendLog rf.log args.prevLogIndex args.entries = some rf'.log ∧
    rf'.committedIndex = followCommit rf.committedIndex rf'.log.length args ∧
    ∀ msg ∈ msgs, ∃ (i : Nat) (e : LogEntry Command), rf'.log[i]? = some e ∧
      (i : Int) ≤ rf'.committedIndex ∧ msg = ⟨true, e.command, i⟩
  saved : rf'.persister = ⟨some (gob.encode (persisted rf'))⟩

/-- Adopting a term touches the term, the role and the vote counters only. -/
theorem adoptTerm_spec (gob : Gob Command Bytes) (rf : Raft n Command Bytes) (t : Int) :
    (adoptTerm gob rf t).me = rf.me ∧ (adoptTerm gob rf t).votedFor = rf.votedFor ∧
    (adoptTerm gob rf t).matchIndex = rf.matchIndex ∧
    (adoptTerm gob rf t).nextIndex = rf.nextIndex ∧ (adoptTerm gob rf t).log = rf.log ∧
    (adoptTerm gob rf t).committedIndex = rf.committedIndex ∧
    (adoptTerm gob rf t).currentTerm = max rf.currentTerm t ∧
    ((adoptTerm gob rf t).state = if t > rf.currentTerm then .follower else rf.state) ∧
    ((adoptTerm gob rf t).state ≠ .follower →
      (adoptTerm gob rf t).voteGranted = rf.voteGranted) := by
  rw [adoptTerm]
  by_cases hgt : t > rf.currentTerm
  · rw [if_pos hgt, if_pos hgt]
    dsimp only
    split
    · refine ⟨rfl, rfl, rfl, rfl, rfl, rfl, ?_, rfl, fun h => absurd rfl h⟩
      show t = _
      omega
    · rename_i hst
      have hf : rf.state = .follower := not_not.mp hst
      refine ⟨rfl, rfl, rfl, rfl, rfl, rfl, ?_, hf, fun h => absurd hf h⟩
      show t = _
      omega
  · rw [if_neg hgt, if_neg hgt]
    exact ⟨rfl, rfl, rfl, rfl, rfl, rfl, by omega, rfl, fun _ => rfl⟩

theorem appendEntries_spec {args : AppendEntriesArgs Command}
    {reply : AppendEntriesReply} {msgs : List (ApplyMsg Command)}
    (h : appendEntries gob rf args = some (rf', reply, msgs)) :
    AppendOutcome gob rf args rf' reply msgs := by
  obtain ⟨hme, hvoted, hmatch, hnext, hlog, hcommit, hterm, hstate, hvotes⟩ :=
    adoptTerm_spec gob rf args.term
  rw [appendEntries] at h
  obtain ⟨reply', hcheck, h⟩ := Option.bind_eq_some_iff.mp h
  obtain ⟨⟨rf2, msgs'⟩, hacc, h⟩ := Option.bind_eq_some_iff.mp h
  obtain ⟨rfl, hpair⟩ := Prod.mk.inj (Option.some.inj h)
  obtain ⟨rfl, rfl⟩ := Prod.mk.inj hpair
  rw [hlog] at hcheck
  rw [acceptEntries] at hacc
  cases hsuc : reply'.success with
  | true =>
      rw [hsuc, if_pos rfl] at hacc
      obtain ⟨log, happ, hacc⟩ := Option.bind_eq_some_iff.mp hacc
      obtain ⟨last, rfl, -, -, hmsgs⟩ := startApplyLogs_spec hacc
      rw [hlog] at happ
      rw [hcommit] at hmsgs
      refine ⟨hme, hvoted, hmatch, hnext, hterm, hstate, hvotes, hcheck,
        fun hf => absurd (hsuc.symm.trans hf) (by simp), ?_, rfl⟩
      intro _
      refine ⟨happ, ?_, ?_⟩
      · show followCommit (adoptTerm gob rf args.term).committedIndex _ args = _
        rw [hcommit]
        rfl
      · intro msg hm
        obtain ⟨i, e, hget, hle, heq⟩ := hmsgs msg hm
        refine ⟨i, e, hget, ?_, heq⟩
        show _ ≤ followCommit (adoptTerm gob rf args.term).committedIndex _ args
        rw [hcommit]
        exact hle
  | false =>
      rw [hsuc, if_neg (by simp)] at hacc
      obtain ⟨rfl, rfl⟩ := Prod.mk.inj (Option.some.inj hacc)
      exact ⟨hme, hvoted, hmatch, hnext, hterm, hstate, hvotes, hcheck,
        fun _ => ⟨hlog, hcommit, rfl⟩, fun ht => absurd (hsuc.symm.trans ht) (by simp), rfl⟩

/-- A handler that adopts a term leaves a follower, or touches neither the term
    nor the role. -/
theorem role_of_adopt {t : Int}
    (hterm : rf'.currentTerm = max rf.currentTerm t)
    (hstate : rf'.state = if t > rf.currentTerm then .follower else rf.state) :
    rf'.state = .follower ∨
      (rf'.currentTerm = rf.currentTerm ∧ rf'.state = rf.state) := by
  by_cases hgt : t > rf.currentTerm
  · rw [if_pos hgt] at hstate
    exact .inl hstate
  · rw [if_neg hgt] at hstate
    exact .inr ⟨by omega, hstate⟩

end RaftHandler
