import UniqueFreshman.RaftSafetyProofs

/-! # `AppendEntries` — what it promises, and when it returns at all

    The leader takes `Success` as the promise that the follower's log has its
    entries.  The promise is kept unless the first entry sent is in conflict:
    then the cut is one entry too low and the second loop is skipped.

    * behind a matching entry (`PrevLogIndex ≥ 0`) the follower replies
      `Success` with a log that ends below `PrevLogIndex`;
    * in front of the whole log (`PrevLogIndex = -1`) the cut is at `-1`, and
      the handler panics.  No other index of the handler leaves its slice. -/

namespace RaftAppendEntries

open GuardedRun GoSlice RaftServer RaftHandler RaftMove RaftRecovery RaftAppendLog RaftCluster
open RaftTermOrder RaftElection RaftSafety

variable {n : Nat} {Command Bytes : Type} {gob : Gob Command Bytes}

/-- The first entry sent differs in term from the entry at its place. -/
def FirstConflict (log : List (LogEntry Command)) (args : AppendEntriesArgs Command) : Prop :=
  ConflictAt log (args.prevLogIndex + 1).toNat args.entries 0

/-- What `Success` stands for: the log before is `log`, the log after is `log'`. -/
structure Appended (log log' : List (LogEntry Command)) (args : AppendEntriesArgs Command) :
    Prop where
  length : args.prevLogIndex + 1 + args.entries.length ≤ log'.length
  before : ∀ m : Nat, (m : Int) ≤ args.prevLogIndex → log'[m]? = log[m]?
  written : ∀ (k : Nat) e, args.entries[k]? = some e →
    log'[(args.prevLogIndex + 1).toNat + k]? = some e
  /-- An entry behind those sent is kept exactly if no entry was in conflict. -/
  tail : ∀ (m : Nat) x, args.prevLogIndex + args.entries.length < m → log[m]? = some x →
    (log'[m]? = some x ↔ TermsAgree log (args.prevLogIndex + 1).toNat args.entries)

/-! ## The reply -/

/-- The consistency check indexes inside the log. -/
theorem consistencyCheck_returns (log : List (LogEntry Command)) (currentTerm : Int)
    {args : AppendEntriesArgs Command} (hprev : -1 ≤ args.prevLogIndex) :
    ∃ reply, consistencyCheck log currentTerm args = some reply ∧
      (reply.success = true ↔ currentTerm ≤ args.term ∧ PrevMatches log args) := by
  rw [consistencyCheck, PrevMatches]
  by_cases hterm : args.term < currentTerm
  · rw [if_pos hterm]
    exact ⟨_, rfl, by rintro ⟨⟩, fun h => absurd h.1 (by omega)⟩
  rw [if_neg hterm]
  by_cases hlen : (log.length : Int) ≤ args.prevLogIndex
  · rw [if_pos hlen]
    refine ⟨_, rfl, by rintro ⟨⟩, ?_⟩
    rintro ⟨-, h | ⟨-, h⟩⟩
    · omega
    · rw [List.getElem?_eq_none (by omega)] at h
      cases h
  rw [if_neg hlen]
  by_cases hfront : args.prevLogIndex = -1
  · rw [if_pos hfront]
    exact ⟨_, rfl, fun _ => ⟨by omega, .inl hfront⟩, fun _ => rfl⟩
  rw [if_neg hfront]
  obtain ⟨x, hx⟩ : ∃ x, log[args.prevLogIndex.toNat]? = some x :=
    ⟨_, List.getElem?_eq_getElem (by omega)⟩
  have hget : goIndex log args.prevLogIndex = some x := by
    rw [goIndex, if_pos (by omega), hx]
  rw [hget, hx]
  simp only [Option.bind_eq_bind, Option.bind_some]
  by_cases heq : x.term = args.prevLogTerm
  · rw [if_neg (not_not.mpr heq)]
    exact ⟨_, rfl, fun _ => ⟨by omega, .inr ⟨by omega, congrArg some heq⟩⟩, fun _ => rfl⟩
  · rw [if_pos heq]
    have hno : ¬ (args.prevLogIndex = -1 ∨
        (0 ≤ args.prevLogIndex ∧ Option.map LogEntry.term (some x) = some args.prevLogTerm)) := by
      rintro (h | ⟨-, h⟩)
      · exact hfront h
      · exact heq (Option.some.inj h)
    rw [if_pos (show args.prevLogIndex ≥ 0 by omega), if_pos (Ne.symm heq)]
    exact ⟨_, rfl, by rintro ⟨⟩, fun h => absurd h.2 hno⟩

/-- A matching request starts inside the log. -/
theorem PrevMatches.exists_start {log : List (LogEntry Command)}
    {args : AppendEntriesArgs Command} (h : PrevMatches log args) :
    ∃ k : Nat, k ≤ log.length ∧ args.prevLogIndex = (k : Int) - 1 ∧
      (args.prevLogIndex + 1).toNat = k := by
  rcases h with h | ⟨hlo, h⟩
  · exact ⟨0, Nat.zero_le _, by omega, by omega⟩
  · obtain ⟨x, hx, -⟩ := Option.map_eq_some_iff.mp h
    have := (List.getElem?_eq_some_iff.mp hx).1
    exact ⟨args.prevLogIndex.toNat + 1, by omega, by omega, by omega⟩

/-- A reply is positive for a request of the follower's term or later that matches at
    `PrevLogIndex`. -/
theorem success_iff {rf rf' : Raft n Command Bytes} {args : AppendEntriesArgs Command}
    {reply : AppendEntriesReply} {msgs : List (ApplyMsg Command)}
    (hout : AppendOutcome gob rf args rf' reply msgs) (hprev : -1 ≤ args.prevLogIndex) :
    reply.success = true ↔ rf.currentTerm ≤ args.term ∧ PrevMatches rf.log args := by
  obtain ⟨reply', hcheck, hsuc⟩ := consistencyCheck_returns rf.log rf'.currentTerm hprev
  obtain rfl : reply' = reply := Option.some.inj (hcheck.symm.trans hout.check)
  rw [hsuc, hout.currentTerm, max_le_iff]
  exact and_congr_left fun _ => and_iff_left le_rfl

theorem adoptTerm_lastApplied (gob : Gob Command Bytes) (rf : Raft n Command Bytes) (t : Int) :
    (adoptTerm gob rf t).lastApplied = rf.lastApplied := by
  rw [adoptTerm]
  split
  · dsimp only
    split <;> rfl
  · rfl

/-- After the consistency check only accepting the entries can fail. -/
theorem appendEntries_returns_of_check (gob : Gob Command Bytes) {rf : Raft n Command Bytes}
    {args : AppendEntriesArgs Command} {reply : AppendEntriesReply}
    (hcheck : consistencyCheck rf.log (adoptTerm gob rf args.term).currentTerm args =
      some reply) :
    (∃ r, appendEntries gob rf args = some r) ↔
      ∃ r, acceptEntries (adoptTerm gob rf args.term) args reply.success = some r := by
  obtain ⟨-, -, -, -, hlog, -⟩ := adoptTerm_spec gob rf args.term
  have heq : appendEntries gob rf args =
      (acceptEntries (adoptTerm gob rf args.term) args reply.success).bind fun r =>
        some ({ persist gob r.1 with heartBeatCh := (persist gob r.1).heartBeatCh + 1 },
          reply, r.2) := by
    rw [appendEntries]
    dsimp only
    rw [hlog, hcheck]
    rfl
  rw [heq]
  constructor
  · rintro ⟨r, hr⟩
    obtain ⟨r', hr', -⟩ := Option.bind_eq_some_iff.mp hr
    exact ⟨r', hr'⟩
  · rintro ⟨r, hr⟩
    rw [hr]
    exact ⟨_, rfl⟩

/-- A matching request is accepted, but for a conflict in front of the whole log. -/
theorem acceptEntries_returns_iff {rf : Raft n Command Bytes}
    {args : AppendEntriesArgs Command} (hlast : -1 ≤ rf.lastApplied)
    (hmatch : PrevMatches rf.log args) :
    (∃ r, acceptEntries rf args true = some r) ↔
      ¬ (args.prevLogIndex = -1 ∧ FirstConflict rf.log args) := by
  obtain ⟨k, hk, hkprev, hknat⟩ := PrevMatches.exists_start hmatch
  have hfront : (args.prevLogIndex = -1 ∧ FirstConflict rf.log args) ↔
      k = 0 ∧ ConflictAt rf.log 0 args.entries 0 := by
    rw [FirstConflict, hknat]
    constructor
    · rintro ⟨hfront, hconf⟩
      obtain rfl : k = 0 := by omega
      exact ⟨rfl, hconf⟩
    · rintro ⟨rfl, hconf⟩
      exact ⟨by omega, hconf⟩
  rw [hfront, ← appendLog_returns_iff hk, acceptEntries, if_pos rfl, hkprev]
  constructor
  · rintro ⟨r, hr⟩
    obtain ⟨log', hlog', -⟩ := Option.bind_eq_some_iff.mp hr
    exact ⟨log', hlog'⟩
  · rintro ⟨log', hlog'⟩
    rw [hlog']
    exact startApplyLogs_returns hlast

/-- **WHEN THE HANDLER RETURNS**: always, but for a conflict in front of the whole
    log. -/
theorem appendEntries_returns_iff (gob : Gob Command Bytes) {rf : Raft n Command Bytes}
    {args : AppendEntriesArgs Command} (hlast : -1 ≤ rf.lastApplied)
    (hprev : -1 ≤ args.prevLogIndex) :
    (∃ r, appendEntries gob rf args = some r) ↔
      ¬ (rf.currentTerm ≤ args.term ∧ args.prevLogIndex = -1 ∧
        FirstConflict rf.log args) := by
  obtain ⟨-, -, -, -, hlog, -, hterm, -⟩ := adoptTerm_spec gob rf args.term
  obtain ⟨reply, hcheck, hsuc⟩ :=
    consistencyCheck_returns rf.log (adoptTerm gob rf args.term).currentTerm hprev
  rw [appendEntries_returns_of_check gob hcheck]
  by_cases hs : reply.success = true
  · obtain ⟨hle, hmatch⟩ := hsuc.mp hs
    have hle : rf.currentTerm ≤ args.term := by omega
    rw [hs, acceptEntries_returns_iff ((adoptTerm_lastApplied gob rf args.term).symm ▸ hlast)
      (hlog.symm ▸ hmatch), hlog, and_iff_right hle]
  · rw [acceptEntries, if_neg hs]
    refine ⟨fun _ => ?_, fun _ => ⟨_, rfl⟩⟩
    rintro ⟨hle, hfront, -⟩
    exact hs (hsuc.mpr ⟨by omega, .inl hfront⟩)

/-! ## The promise -/

/-- The entries in place, with what was behind them or without. -/
theorem appended_of_eq {log log' rest : List (LogEntry Command)}
    {args : AppendEntriesArgs Command} {k : Nat} (hk : k ≤ log.length)
    (hkprev : args.prevLogIndex = (k : Int) - 1) (hknat : (args.prevLogIndex + 1).toNat = k)
    (hlog' : log' = log.take k ++ args.entries ++ rest)
    (htail : ∀ (m : Nat) x, k + args.entries.length ≤ m → log[m]? = some x →
      (rest[m - (k + args.entries.length)]? = some x ↔ TermsAgree log k args.entries)) :
    Appended log log' args := by
  have hfront : (log.take k ++ args.entries).length = k + args.entries.length := by
    rw [List.length_append, List.length_take, Nat.min_eq_left hk]
  have htake : (log.take k).length = k := List.length_take_of_le hk
  constructor
  · rw [hlog', List.length_append, hfront]
    omega
  · intro m hm
    have hmk : m < k := by omega
    rw [hlog', List.append_assoc, List.getElem?_append_left (by omega),
      List.getElem?_take_of_lt hmk]
  · intro i e he
    have hi : i < args.entries.length := (List.getElem?_eq_some_iff.mp he).1
    rw [hknat, hlog', List.getElem?_append_left (by omega),
      List.getElem?_append_right (by omega), htake, Nat.add_sub_cancel_left, he]
  · intro m x hm hx
    have hmk : k + args.entries.length ≤ m := by omega
    rw [hknat, hlog', List.getElem?_append_right (by omega), hfront]
    exact htail m x hmk hx

/-- The promise is kept without a conflict at the first entry, and broken with one. -/
theorem appended_iff {log log' : List (LogEntry Command)} {args : AppendEntriesArgs Command}
    (hmatch : PrevMatches log args)
    (happ : appendLog log args.prevLogIndex args.entries = some log') :
    Appended log log' args ↔ ¬ FirstConflict log args := by
  obtain ⟨k, hk, hkprev, hknat⟩ := PrevMatches.exists_start hmatch
  rw [hkprev] at happ
  rw [FirstConflict, hknat]
  constructor
  · intro hpost hconf
    have hk0 : k ≠ 0 := by
      rintro rfl
      exact (appendLog_returns_iff hk).mp ⟨log', happ⟩ ⟨rfl, hconf⟩
    -- the log ends in front of `PrevLogIndex`
    rw [appendLog_first (by omega) hconf] at happ
    have hlen := hpost.length
    rw [← Option.some.inj happ, List.length_take] at hlen
    omega
  · intro hno
    rcases appendLog_cases hk happ with ⟨hagree, rfl⟩ | ⟨i, hconf, rfl⟩ | ⟨hconf, -, -⟩
    · refine appended_of_eq hk hkprev hknat rfl fun m x hm hx => ?_
      rw [List.getElem?_drop, Nat.add_sub_cancel' hm]
      exact iff_of_true hx hagree
    · refine appended_of_eq hk hkprev hknat (List.append_nil _).symm fun m x hm hx => ?_
      obtain ⟨y, e, hy, he, hne⟩ := hconf
      exact iff_of_false nofun fun hagree => hne (hagree (i + 1) y e hy he)
    · exact absurd hconf hno

/-- The request finds its `PrevLogTerm` behind an entry of the follower, and its
    first entry is in conflict. -/
def LosesEntries (rf : Raft n Command Bytes) (args : AppendEntriesArgs Command) : Prop :=
  rf.currentTerm ≤ args.term ∧ 0 ≤ args.prevLogIndex ∧ PrevMatches rf.log args ∧
    FirstConflict rf.log args

/-- **`Success` KEEPS ITS PROMISE**, unless the first entry sent is in conflict behind
    a matching one. -/
theorem success_means_appended_iff (gob : Gob Command Bytes) (rf : Raft n Command Bytes)
    (args : AppendEntriesArgs Command) (hlast : -1 ≤ rf.lastApplied)
    (hprev : -1 ≤ args.prevLogIndex) :
    (∀ rf' reply msgs, appendEntries gob rf args = some (rf', reply, msgs) →
      reply.success = true → Appended rf.log rf'.log args) ↔ ¬ LosesEntries rf args := by
  constructor
  · rintro hpost ⟨hterm, hlo, hmatch, hconf⟩
    obtain ⟨⟨rf', reply, msgs⟩, hr⟩ :=
      (appendEntries_returns_iff gob hlast hprev).mpr fun h => by omega
    have hout := appendEntries_spec hr
    have hs : reply.success = true := (success_iff hout hprev).mpr ⟨hterm, hmatch⟩
    exact (appended_iff hmatch (hout.accepted hs).1).mp (hpost rf' reply msgs hr hs) hconf
  · intro hno rf' reply msgs hr hs
    have hout := appendEntries_spec hr
    obtain ⟨hterm, hmatch⟩ := (success_iff hout hprev).mp hs
    refine (appended_iff hmatch (hout.accepted hs).1).mpr fun hconf => hno ?_
    refine ⟨hterm, ?_, hmatch, hconf⟩
    -- in front of the whole log the handler would not have replied
    by_contra hneg
    exact (appendEntries_returns_iff gob hlast hprev).mp ⟨_, hr⟩ ⟨hterm, by omega, hconf⟩

/-- A follower of term `1` with two entries of term `1`. -/
def twoEntries : Raft 3 Nat (List (GobValue Nat)) :=
  { make (plainGob Nat) 0 ⟨none⟩ with currentTerm := 1, log := [⟨7, 1⟩, ⟨8, 1⟩] }

theorem success_means_appended_of_next_entry :
    ∃ rf' reply msgs, appendEntries (plainGob Nat) twoEntries
        ⟨2, 1, 1, 1, [⟨9, 2⟩], -1⟩ = some (rf', reply, msgs) ∧ reply.success = true ∧
      Appended twoEntries.log rf'.log ⟨2, 1, 1, 1, [⟨9, 2⟩], -1⟩ :=
  ⟨_, _, _, rfl, rfl, (success_means_appended_iff (plainGob Nat) twoEntries
    ⟨2, 1, 1, 1, [⟨9, 2⟩], -1⟩ (by decide) (by decide)).mpr
      (fun ⟨_, _, _, _, _, hx, _⟩ => nomatch hx) _ _ _ rfl rfl⟩

/-- **AN EMPTY PROMISE**: the entry at index `1` is in conflict with the one sent, the
    entry at index `0` is cut off too, and the reply is `Success`. -/
theorem success_with_an_empty_log :
    ∃ rf' reply msgs, appendEntries (plainGob Nat) twoEntries
        ⟨2, 1, 0, 1, [⟨9, 2⟩], -1⟩ = some (rf', reply, msgs) ∧ reply.success = true ∧
      rf'.log = [] ∧ ¬ Appended twoEntries.log rf'.log ⟨2, 1, 0, 1, [⟨9, 2⟩], -1⟩ := by
  refine ⟨_, _, _, rfl, rfl, rfl, fun hpost => ?_⟩
  exact absurd hpost.length (by decide)

/-! ## Requests in flight -/

/-- `lastApplied` moves forward, and not beyond the new `committedIndex`. -/
theorem appendEntries_lastApplied {rf rf' : Raft n Command Bytes}
    {args : AppendEntriesArgs Command} {reply : AppendEntriesReply}
    {msgs : List (ApplyMsg Command)} (h : appendEntries gob rf args = some (rf', reply, msgs)) :
    rf.lastApplied ≤ rf'.lastApplied ∧
      rf'.lastApplied ≤ max rf.lastApplied rf'.committedIndex := by
  rw [← adoptTerm_lastApplied gob rf args.term]
  obtain ⟨reply', -, h⟩ := Option.bind_eq_some_iff.mp h
  obtain ⟨⟨rf2, msgs'⟩, hacc, h⟩ := Option.bind_eq_some_iff.mp h
  obtain ⟨rfl, -⟩ := Prod.mk.inj (Option.some.inj h)
  show _ ≤ rf2.lastApplied ∧ rf2.lastApplied ≤ max _ rf2.committedIndex
  rw [acceptEntries] at hacc
  split at hacc
  · obtain ⟨log, -, hacc⟩ := Option.bind_eq_some_iff.mp hacc
    obtain ⟨last, rfl, hle, hmax, -⟩ := startApplyLogs_spec hacc
    exact ⟨hle, hmax⟩
  · obtain ⟨rfl, -⟩ := Prod.mk.inj (Option.some.inj hacc)
    exact ⟨le_rfl, le_max_left ..⟩

/-- `lastApplied` starts at `-1` and never falls below it. -/
theorem serverStep_lastApplied {rf rf' : Raft n Command Bytes} {input : Input n Command}
    (hlast : -1 ≤ rf.lastApplied) (h : serverStep gob rf input = some rf') :
    -1 ≤ rf'.lastApplied := by
  cases move_of_step h with
  | still hcore _ => exact hcore.lastApplied ▸ hlast
  | vote hout => exact hout.lastApplied ▸ hlast
  | accept happ _ => exact hlast.trans (appendEntries_lastApplied happ).1
  | matched _ _ _ _ _ hle _ => exact hlast.trans hle
  | append | stepDown | count | win | backUp | forget | stand => exact hlast
  | restart => exact le_rfl

/-- What the handler's bounds rest on: the servers count what they apply from `-1`, and
    no request starts before the log. -/
structure InBounds (c : Cluster n Command Bytes) : Prop where
  lastApplied : ∀ s, -1 ≤ (c.servers s).lastApplied
  prevLogIndex : ∀ caller dst inc args,
    Msg.appendEntries caller dst inc args ∈ c.net → -1 ≤ args.prevLogIndex

theorem inBounds_initial (gob : Gob Command Bytes) : InBounds (n := n) (initial gob) :=
  ⟨fun _ => le_rfl, nofun⟩

theorem inBounds_step {c c' : Cluster n Command Bytes} {e : Event n Command}
    (h : InBounds c) (hd : ServersDurable gob c) (hs : clusterStep gob c e = some c') :
    InBounds c' := by
  constructor
  · exact servers_of_clusterStep (P := fun _ rf => -1 ≤ rf.lastApplied) (fun s => (hd s).1) hs
      h.lastApplied fun _ _ _ _ hlast hstep => serverStep_lastApplied hlast hstep
  · intro caller dst inc args hm
    rcases newlySent_of_transition (transition_of_step hd hs) hm with hold | ⟨-, hargs⟩
    · exact h.prevLogIndex caller dst inc args hold
    -- a leader's own request starts at its `nextIndex`, inside its log
    · obtain ⟨k, -, hk, -⟩ := appendRequest_spec hargs
      omega

/-- Every step of a run starts in bounds. -/
theorem run_of_inBounds {ok : Cluster n Command Bytes → Event n Command → Prop}
    {cs : List (Cluster n Command Bytes)} (h : ClusterRun gob ok cs) :
    Run (clusterStep gob) (fun c e => (ok c e ∧ ServersDurable gob c) ∧ InBounds c)
      (initial gob) cs :=
  Run.assume (I := InBounds) (inBounds_initial gob)
    (fun _ _ _ hI hok hs => inBounds_step hI hok.2 hs) (run_of_transitions h)

theorem run_inBounds {cs : List (Cluster n Command Bytes)} (h : ClusterRun gob Always cs) :
    ∀ c ∈ cs, InBounds c :=
  Run.invariant (I := InBounds) (inBounds_initial gob)
    (fun _ _ _ hI hok hs => inBounds_step hI hok.2 hs) (run_of_transitions h)

/-- **`AppendEntries` RETURNS**, in every state of every run and for every request in
    flight, unless the follower's very first entry is in conflict with the very first
    one of a request for the whole log. -/
theorem appendEntries_in_bounds_iff (gob : Gob Command Bytes)
    (cs : List (Cluster n Command Bytes)) (h : ClusterRun gob Always cs)
    (c : Cluster n Command Bytes) (hc : c ∈ cs) (caller dst : Fin n) (inc : Nat)
    (args : AppendEntriesArgs Command)
    (hmsg : Msg.appendEntries caller dst inc args ∈ c.net) :
    (∃ rf' reply msgs, appendEntries gob (c.servers dst) args = some (rf', reply, msgs)) ↔
      ¬ ((c.servers dst).currentTerm ≤ args.term ∧ args.prevLogIndex = -1 ∧
        FirstConflict (c.servers dst).log args) := by
  obtain ⟨hlast, hprev⟩ := run_inBounds h c hc
  rw [← appendEntries_returns_iff gob (hlast dst) (hprev caller dst inc args hmsg)]
  constructor
  · rintro ⟨rf', reply, msgs, hr⟩
    exact ⟨_, hr⟩
  · rintro ⟨⟨rf', reply, msgs⟩, hr⟩
    exact ⟨rf', reply, msgs, hr⟩

deriving instance DecidableEq for Msg

theorem appendEntries_in_bounds_of_first_request :
    ∃ (c : SmallCluster 3) (cs : List (SmallCluster 3)),
      ClusterRun (plainGob Nat) Always (c :: cs) ∧
      Msg.appendEntries 0 1 0 ⟨1, 0, -1, -1, [⟨7, 1⟩], -1⟩ ∈ c.net ∧
      ∃ rf' reply msgs, appendEntries (plainGob Nat) (c.servers 1)
        ⟨1, 0, -1, -1, [⟨7, 1⟩], -1⟩ = some (rf', reply, msgs) := by
  obtain ⟨c, cs, hrun, hmsg, hlog⟩ : ∃ (c : SmallCluster 3) (cs : List (SmallCluster 3)),
      ClusterRun (plainGob Nat) Always (c :: cs) ∧
      Msg.appendEntries 0 1 0 ⟨1, 0, -1, -1, [⟨7, 1⟩], -1⟩ ∈ c.net ∧ (c.servers 1).log = [] :=
    run_reaches (electAndReplicate.take 11) (by decide +kernel)
  refine ⟨c, cs, hrun, hmsg, (appendEntries_in_bounds_iff (plainGob Nat) (c :: cs) hrun c
    (List.mem_cons_self ..) 0 1 0 _ hmsg).mpr ?_⟩
  rintro ⟨-, -, x, e, hx, -⟩
  rw [hlog] at hx
  nomatch hx

/-- Server `0` leads term `1` and starts a command that it never sends; server `1` leads
    term `2`, starts one, and sends it to server `0`. -/
def sendToOldLeader : List (Event 3 Nat) :=
  [.loop 0 .top, .loop 0 .followerTimer, .loop 0 .top, .startRequestVote 0,
    .deliver 0, .deliver 1, .start 0 7,
    .loop 1 .top, .loop 1 .followerTimer, .loop 1 .top, .startRequestVote 1,
    .deliver 2, .deliver 2, .start 1 8,
    .loop 1 .candidateLeader, .loop 1 .top, .loop 1 .appendRound, .runAppendEntries 1 0]

/-- **A PANIC**: the cut `rf.log[:-1]`. -/
theorem appendEntries_panics_on_old_leader :
    ∃ (c : SmallCluster 3) (cs : List (SmallCluster 3)),
      ClusterRun (plainGob Nat) Always (c :: cs) ∧
      Msg.appendEntries 1 0 0 ⟨2, 1, -1, -1, [⟨8, 2⟩], -1⟩ ∈ c.net ∧
      (appendEntries (plainGob Nat) (c.servers 0)
        ⟨2, 1, -1, -1, [⟨8, 2⟩], -1⟩).isNone = true :=
  run_reaches sendToOldLeader (by decide +kernel)

end RaftAppendEntries
