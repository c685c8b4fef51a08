import UniqueFreshman.RaftAppendEntriesProofs

/-! # The indices of a server — `lastApplied ≤ committedIndex < len(log)`

    A follower clips `committedIndex` to the entries it was sent and to its log,
    a leader takes it from the commit rule, and applying never passes it.  What
    can break the order is the log becoming shorter: an accepted request that
    cuts the log at or below `committedIndex`.

    * a conflict at a later entry leaves `PrevLogIndex + len(Entries)` as the
      last index;
    * a conflict at the first entry leaves `PrevLogIndex - 1`, one index less
      than even the entry both logs have in common.

    Requests in flight never name a `LeaderCommit` beyond what they carry, so
    the two clips themselves never lower `committedIndex`. -/

namespace RaftCommitIndex

open GuardedRun GoSlice RaftServer RaftHandler RaftMove RaftAppendLog RaftCluster
open RaftSafety RaftCommit RaftAppendEntries

variable {n : Nat} {Command Bytes : Type} {gob : Gob Command Bytes}
variable {rf rf' : Raft n Command Bytes}

/-- The indices of a server are in order. -/
structure InOrder (rf : Raft n Command Bytes) : Prop where
  start : -1 ≤ rf.lastApplied
  applied : rf.lastApplied ≤ rf.committedIndex
  committed : rf.committedIndex < rf.log.length

/-- The step accepts no request that cuts the log at or below `committedIndex`. -/
def KeepsCommitted (rf : Raft n Command Bytes) : Input n Command → Prop
  | .appendEntries args =>
      rf.currentTerm ≤ args.term → PrevMatches rf.log args →
        (FirstConflict rf.log args → rf.committedIndex < args.prevLogIndex) ∧
        (¬ TermsAgree rf.log (args.prevLogIndex + 1).toNat args.entries →
          rf.committedIndex ≤ args.prevLogIndex + args.entries.length)
  | _ => True

instance (log entries : List (LogEntry Command)) (k i : Nat) :
    Decidable (ConflictAt log k entries i) :=
  decidable_of_iff (∃ x ∈ log[k + i]?, ∃ e ∈ entries[i]?, x.term ≠ e.term)
    ⟨fun ⟨x, hx, e, he, hne⟩ => ⟨x, e, hx, he, hne⟩,
      fun ⟨x, e, hx, he, hne⟩ => ⟨x, hx, e, he, hne⟩⟩

theorem termsAgree_iff {log entries : List (LogEntry Command)} {k : Nat} :
    (∀ i < entries.length, ¬ ConflictAt log k entries i) ↔ TermsAgree log k entries := by
  constructor
  · intro h i x e hx he
    by_contra hne
    exact h i (List.getElem?_eq_some_iff.mp he).1 ⟨x, e, hx, he, hne⟩
  · rintro h i - ⟨x, e, hx, he, hne⟩
    exact hne (h i x e hx he)

instance (log entries : List (LogEntry Command)) (k : Nat) :
    Decidable (TermsAgree log k entries) :=
  decidable_of_iff _ termsAgree_iff

instance (rf : Raft n Command Bytes) : ∀ i, Decidable (KeepsCommitted rf i)
  | .appendEntries args =>
      inferInstanceAs (Decidable (rf.currentTerm ≤ args.term → PrevMatches rf.log args →
        (ConflictAt rf.log (args.prevLogIndex + 1).toNat args.entries 0 →
          rf.committedIndex < args.prevLogIndex) ∧
        (¬ TermsAgree rf.log (args.prevLogIndex + 1).toNat args.entries →
          rf.committedIndex ≤ args.prevLogIndex + args.entries.length)))
  | .requestVote .. | .start .. | .voteReply .. | .appendReply .. | .loop .. |
    .startRequestVote | .runAppendEntries .. | .restart => isTrue trivial

/-! ## One server -/

/-- The clip to the log is the only one that matters, when the request carries what its
    `LeaderCommit` names. -/
theorem followCommit_iff {committedIndex logLength : Int} {args : AppendEntriesArgs Command}
    (hcommit : args.leaderCommit ≤ args.prevLogIndex + args.entries.length) :
    (followCommit committedIndex logLength args < logLength ∧
      committedIndex ≤ followCommit committedIndex logLength args) ↔
      committedIndex < logLength := by
  rw [followCommit]
  by_cases hgt : args.leaderCommit > committedIndex
  · rw [if_pos hgt, if_neg (not_lt_of_ge hcommit)]
    dsimp only
    split <;> omega
  · rw [if_neg hgt]
    omega

/-- **WHAT IS CUT**: an accepted request keeps `committedIndex` inside the log just when
    its first conflict, if any, lies behind. -/
theorem committed_lt_iff {log log' : List (LogEntry Command)}
    {args : AppendEntriesArgs Command} {committedIndex : Int}
    (hmatch : PrevMatches log args)
    (happ : appendLog log args.prevLogIndex args.entries = some log')
    (hlt : committedIndex < log.length) :
    committedIndex < log'.length ↔
      (FirstConflict log args → committedIndex < args.prevLogIndex) ∧
      (¬ TermsAgree log (args.prevLogIndex + 1).toNat args.entries →
        committedIndex ≤ args.prevLogIndex + args.entries.length) := by
  obtain ⟨k, hk, hkprev, hknat⟩ := PrevMatches.exists_start hmatch
  rw [FirstConflict, hknat]
  rw [hkprev] at happ
  by_cases hfirst : ConflictAt log k args.entries 0
  · have hk0 : k ≠ 0 := by
      rintro rfl
      exact (appendLog_returns_iff hk).mp ⟨log', happ⟩ ⟨rfl, hfirst⟩
    rw [appendLog_first (by omega) hfirst] at happ
    have hlen : (log'.length : Int) = args.prevLogIndex := by
      rw [← Option.some.inj happ, List.length_take]
      omega
    rw [hlen]
    refine ⟨fun h => ⟨fun _ => h, fun _ => by omega⟩, fun h => h.1 hfirst⟩
  rcases appendLog_cases hk happ with ⟨hagree, hlog'⟩ | ⟨i, hconf, hlog'⟩ | ⟨hconf, -, -⟩
  · -- nothing is cut
    have hlen : log.length ≤ log'.length := by
      rw [hlog']
      simp
      omega
    refine iff_of_true (by omega) ⟨fun h => absurd h hfirst, fun h => absurd hagree h⟩
  · have hlen : (log'.length : Int) = args.prevLogIndex + args.entries.length + 1 := by
      rw [hlog', List.length_append, List.length_take]
      omega
    have hnot : ¬ TermsAgree log k args.entries := by
      obtain ⟨x, e, hx, he, hne⟩ := hconf
      exact fun hagree => hne (hagree (i + 1) x e hx he)
    rw [hlen]
    refine ⟨fun h => ⟨fun h' => absurd h' hfirst, fun _ => by omega⟩, fun h => ?_⟩
    have := h.2 hnot
    omega
  · exact absurd hconf hfirst

/-- Applying goes up to `committedIndex`, so the rest of the order decides. -/
theorem InOrder.iff_of_applied (h : InOrder rf) (hle : rf.lastApplied ≤ rf'.lastApplied)
    (hmax : rf'.lastApplied ≤ max rf.lastApplied rf'.committedIndex) :
    (InOrder rf' ∧ rf.committedIndex ≤ rf'.committedIndex) ↔
      rf'.committedIndex < rf'.log.length ∧ rf.committedIndex ≤ rf'.committedIndex := by
  have hstart := h.start
  have happlied := h.applied
  constructor
  · rintro ⟨h', hcommit⟩
    exact ⟨h'.committed, hcommit⟩
  · rintro ⟨hlt, hcommit⟩
    exact ⟨⟨by omega, by omega, hlt⟩, hcommit⟩

/-- A move that keeps `lastApplied` and `committedIndex`, and what the log has. -/
theorem InOrder.keep (h : InOrder rf) (happlied : rf'.lastApplied = rf.lastApplied)
    (hcommit : rf'.committedIndex = rf.committedIndex)
    (hlog : rf.log.length ≤ rf'.log.length) :
    InOrder rf' ∧ rf.committedIndex ≤ rf'.committedIndex := by
  rw [h.iff_of_applied happlied.ge (happlied.le.trans (le_max_left ..)), hcommit]
  have := h.committed
  exact ⟨by omega, le_rfl⟩

/-- `AppendEntries` keeps the order just when it cuts nothing committed. -/
theorem InOrder.accept_iff (h : InOrder rf) {args : AppendEntriesArgs Command}
    {reply : AppendEntriesReply} {msgs : List (ApplyMsg Command)}
    (happ : appendEntries gob rf args = some (rf', reply, msgs))
    (hprev : -1 ≤ args.prevLogIndex)
    (hcommit : args.leaderCommit ≤ args.prevLogIndex + args.entries.length) :
    (InOrder rf' ∧ rf.committedIndex ≤ rf'.committedIndex) ↔
      KeepsCommitted rf (.appendEntries args) := by
  have hout := appendEntries_spec happ
  obtain ⟨hle, hmax⟩ := appendEntries_lastApplied happ
  rw [h.iff_of_applied hle hmax, KeepsCommitted]
  cases hsuc : reply.success with
  | true =>
      obtain ⟨hterm, hmatch⟩ := (success_iff hout hprev).mp hsuc
      obtain ⟨hlog, hfollow, -⟩ := hout.accepted hsuc
      rw [hfollow, followCommit_iff hcommit, committed_lt_iff hmatch hlog h.committed]
      exact ⟨fun hkeep _ _ => hkeep, fun hkeep => hkeep hterm hmatch⟩
  | false =>
      obtain ⟨hlog, hsame, -⟩ := hout.refused hsuc
      rw [hlog, hsame]
      refine iff_of_true ⟨h.committed, le_rfl⟩ fun hterm hmatch => ?_
      rw [(success_iff hout hprev).mpr ⟨hterm, hmatch⟩] at hsuc
      cases hsuc

/-- Every other input of a running server keeps the order. -/
theorem InOrder.move (h : InOrder rf) {input : Input n Command} (hmove : Move gob rf input rf')
    (haccept : ∀ args, input ≠ .appendEntries args) (hrestart : input ≠ .restart) :
    InOrder rf' ∧ rf.committedIndex ≤ rf'.committedIndex := by
  cases hmove with
  | still hcore _ => exact h.keep hcore.lastApplied hcore.committedIndex (by rw [hcore.log])
  | vote hout => exact h.keep hout.lastApplied hout.committedIndex (by rw [hout.log])
  | accept _ _ => exact absurd rfl (haccept _)
  | append _ =>
      refine h.keep rfl rfl ?_
      show rf.log.length ≤ (rf.log ++ [_]).length
      rw [List.length_append]
      omega
  | stepDown | count | win | backUp | forget | stand => exact h.keep rfl rfl le_rfl
  | matched _ _ _ _ hcommit hlast hmax =>
      exact (h.iff_of_applied hlast hmax).mpr (leaderCommitIndex_bounds hcommit h.committed)
  | restart => exact absurd rfl hrestart

/-- **ONE STEP of a server** keeps the order of its indices, and `committedIndex` up to a
    crash, just when it cuts nothing committed. -/
theorem InOrder.step_iff (h : InOrder rf) {input : Input n Command}
    (hreq : ∀ args, input = .appendEntries args → -1 ≤ args.prevLogIndex ∧
      args.leaderCommit ≤ args.prevLogIndex + args.entries.length)
    (hs : serverStep gob rf input = some rf') :
    (InOrder rf' ∧ (input ≠ .restart → rf.committedIndex ≤ rf'.committedIndex)) ↔
      KeepsCommitted rf input := by
  have hmove := move_of_step hs
  cases input with
  | appendEntries args =>
      obtain ⟨⟨rf', reply, msgs⟩, happ, rfl⟩ := Option.map_eq_some_iff.mp hs
      obtain ⟨hprev, hcommit⟩ := hreq args rfl
      rw [← h.accept_iff happ hprev hcommit]
      exact and_congr_right fun _ => ⟨fun hle => hle (by rintro ⟨⟩), fun hle _ => hle⟩
  | restart =>
      obtain rfl := Option.some.inj hs
      refine iff_of_true ⟨⟨le_rfl, le_rfl, ?_⟩, fun hne => absurd rfl hne⟩ trivial
      show (-1 : Int) < ((make gob rf.me rf.persister).log.length : Int)
      omega
  | requestVote | start | voteReply | appendReply | loop | startRequestVote |
    runAppendEntries =>
      obtain ⟨ho, hle⟩ := h.move hmove (by rintro _ ⟨⟩) (by rintro ⟨⟩)
      exact iff_of_true ⟨ho, fun _ => hle⟩ trivial

/-! ## The cluster -/

/-- The servers' indices are in order, and no request in flight names a `LeaderCommit`
    behind its last entry. -/
structure CommitOrder (c : Cluster n Command Bytes) : Prop where
  servers : ∀ s, InOrder (c.servers s)
  requests : ∀ caller dst inc args, Msg.appendEntries caller dst inc args ∈ c.net →
    args.leaderCommit ≤ args.prevLogIndex + args.entries.length

variable {c c' : Cluster n Command Bytes} {cs : List (Cluster n Command Bytes)}

/-- After the step from `c` to `c'` all indices are in order, and no `committedIndex` has
    fallen but in a crash. -/
def Disciplined (c' c : Cluster n Command Bytes) : Prop :=
  (∀ s, InOrder (c'.servers s)) ∧
    ∀ s, c'.inc s = c.inc s → (c.servers s).committedIndex ≤ (c'.servers s).committedIndex

/-- **ONE STEP of the cluster.** -/
theorem CommitOrder.step_iff (h : CommitOrder c) (hb : InBounds c) {e : Event n Command}
    (hme : ∀ s, (c.servers s).me = s) (hs : clusterStep gob c e = some c') :
    Disciplined c' c ↔ Serves KeepsCommitted c e := by
  rw [Disciplined, ← forall_and]
  refine forall_servers_iff_serves hme hs ?_ ?_
  · intro s _ heq
    rw [heq]
    exact ⟨h.servers s, fun _ => le_rfl⟩
  · intro s input hserved hstep
    have hreq : ∀ args, input = .appendEntries args → -1 ≤ args.prevLogIndex ∧
        args.leaderCommit ≤ args.prevLogIndex + args.entries.length := by
      intro args hinput
      obtain ⟨caller, inc, hmem⟩ := (served_deliver hserved).1 args hinput
      exact ⟨hb.prevLogIndex caller s inc args hmem, h.requests caller s inc args hmem⟩
    rw [inc_eq_iff hs, hserved, ← (h.servers s).step_iff hreq hstep]
    simp only [ne_eq, Option.some.injEq, Prod.mk.injEq, true_and]

/-- A request names the leader's `committedIndex` and carries the leader's log to its end. -/
theorem CommitOrder.requests_step (h : CommitOrder c) {e : Event n Command}
    (ht : Transition gob c e c') {caller dst : Fin n} {inc : Nat}
    {args : AppendEntriesArgs Command}
    (hmem : Msg.appendEntries caller dst inc args ∈ c'.net) :
    args.leaderCommit ≤ args.prevLogIndex + args.entries.length := by
  rcases newlySent_of_transition ht hmem with hold | ⟨-, hargs⟩
  · exact h.requests caller dst inc args hold
  · obtain ⟨k, hk, hprev, hentries, -, -, -, -, hcommit⟩ := appendRequest_spec hargs
    have := (h.servers caller).committed
    rw [hcommit, hprev, hentries, List.length_drop]
    omega

theorem commitOrder_initial (gob : Gob Command Bytes) :
    CommitOrder (n := n) (initial gob) :=
  ⟨fun _ => ⟨le_rfl, le_rfl, by show (-1 : Int) < 0; omega⟩, fun _ _ _ _ hm => nomatch hm⟩

/-- Along a run that cuts nothing committed the indices are in order. -/
theorem run_commitOrder (h : ClusterRun gob (Serves KeepsCommitted) cs) :
    ∀ c ∈ cs, CommitOrder c := by
  refine (run_of_inBounds h).invariant (I := CommitOrder) (commitOrder_initial gob) ?_
  rintro c e c' hI ⟨⟨hok, hd⟩, hb⟩ hs
  refine ⟨((hI.step_iff hb (fun s => (hd s).1) hs).mpr hok).1, ?_⟩
  intro caller dst inc args hmem
  exact hI.requests_step (transition_of_step hd hs) hmem

/-- **COMMIT INDEX DISCIPLINE** holds after every step of a run just when no step of it
    accepts a request that cuts a log at or below `committedIndex`. -/
theorem commit_discipline_iff (gob : Gob Command Bytes) (cs : List (Cluster n Command Bytes))
    (h : ClusterRun gob Always cs) :
    cs.IsChain Disciplined ↔ ClusterRun gob (Serves KeepsCommitted) cs := by
  refine Run.isChain_iff (fun c ds e c' hrun hs => ?_) h
  have hmem : c ∈ c :: ds := List.mem_cons_self ..
  have hall : ClusterRun gob Always (c :: ds) := hrun.weaken fun _ _ _ => trivial
  have hd := run_serversDurable hall c hmem
  exact (run_commitOrder hrun c hmem).step_iff (run_inBounds hall c hmem) (fun s => (hd s).1) hs

theorem commit_discipline_of_first_command :
    ∃ (c : SmallCluster 3) (cs : List (SmallCluster 3)),
      ClusterRun (plainGob Nat) Always (c :: cs) ∧ (c.servers 1).committedIndex = 0 ∧
      (c :: cs).IsChain Disciplined := by
  obtain ⟨c, cs, hrun, hcommit⟩ : ∃ (c : SmallCluster 3) (cs : List (SmallCluster 3)),
      ClusterRun (plainGob Nat) (Serves KeepsCommitted) (c :: cs) ∧
        (c.servers 1).committedIndex = 0 :=
    run_reaches electAndReplicate (by decide +kernel)
  have hall : ClusterRun (plainGob Nat) Always (c :: cs) := hrun.weaken fun _ _ _ => trivial
  exact ⟨c, cs, hall, hcommit, (commit_discipline_iff (plainGob Nat) (c :: cs) hall).mpr hrun⟩

/-- Server `0` has committed `7` and starts `8`, which it never sends; server `1` leads
    term `2`, starts `9` and sends it to server `0`. -/
def overwriteOldLeader : List (Event 3 Nat) :=
  electAndReplicate ++ ([.start 0 8,
    .loop 1 .top, .loop 1 .followerTimer, .loop 1 .top, .startRequestVote 1,
    .deliver 3, .deliver 3, .start 1 9,
    .loop 1 .candidateLeader, .loop 1 .top, .loop 1 .appendRound, .runAppendEntries 1 0,
    .deliver 3] : List (Event 3 Nat))

/-- **A COMMITTED ENTRY LOST**: `committedIndex` is `0` and the log is empty. -/
theorem committed_entry_cut_off :
    ∃ (c : SmallCluster 3) (cs : List (SmallCluster 3)),
      ClusterRun (plainGob Nat) Always (c :: cs) ∧
      (c.servers 0).committedIndex = 0 ∧ (c.servers 0).log = [] ∧
      ¬ (c :: cs).IsChain Disciplined := by
  obtain ⟨c', c, cs, hrun, hcommit, hlog⟩ : ∃ (c c' : SmallCluster 3)
      (cs : List (SmallCluster 3)), ClusterRun (plainGob Nat) Always (c' :: c :: cs) ∧
        (c'.servers 0).committedIndex = 0 ∧ (c'.servers 0).log = [] :=
    run_steps overwriteOldLeader (by decide +kernel)
  refine ⟨c, c' :: cs, hrun, hcommit, hlog, fun hchain => ?_⟩
  have hlt := ((List.isChain_cons_cons.mp hchain).1.1 0).committed
  rw [hcommit, hlog] at hlt
  exact absurd hlt (by decide)

end RaftCommitIndex
