import UniqueFreshman.RaftAppendEntriesProofs

/-! # Backing up — does a rejection lower `nextIndex`?

    A follower rejects a request of the leader's own term with the index of its
    last entry, or with the term it has at `PrevLogIndex` and the first index of
    that term.  The leader scans its log for the first entry of a larger term,
    and takes that place, or the follower's index when it has no entry of the
    follower's term.  When there is no larger term it assigns nothing, and the
    retry loop sends the same request again.

    `BacksUp` is the condition under which `nextIndex` falls, in terms of the
    leader's log and of what it was told. -/

namespace RaftBackup

open GuardedRun GoSlice RaftServer RaftHandler RaftCluster RaftTermOrder RaftElection
open RaftAppendEntries

variable {n : Nat} {Command Bytes : Type} {gob : Gob Command Bytes}

/-- The leader has an entry of a larger term than the follower's at `PrevLogIndex` or
    before; or one anywhere, and none of the follower's term; or it has none at all, but
    another reply has lowered `nextIndex` meanwhile. -/
def BacksUp (rf : Raft n Command Bytes) (j : Fin n) (args : AppendEntriesArgs Command)
    (reply : AppendEntriesReply) : Prop :=
  (∃ (m : Nat) (e : LogEntry Command), (m : Int) ≤ args.prevLogIndex ∧
    rf.log[m]? = some e ∧ reply.conflictTerm < e.term) ∨
  ((∃ e ∈ rf.log, reply.conflictTerm < e.term) ∧
    ∀ e ∈ rf.log, e.term ≠ reply.conflictTerm) ∨
  ((∀ e ∈ rf.log, e.term ≤ reply.conflictTerm) ∧ rf.nextIndex j ≤ args.prevLogIndex)

/-! ## The scan -/

/-- Without a larger term the scan assigns nothing. -/
theorem conflictScan_none {reply : AppendEntriesReply} {next : Int} :
    ∀ {log : List (LogEntry Command)} {i : Nat} {has : Bool},
      (∀ e ∈ log, e.term ≤ reply.conflictTerm) → conflictScan reply next i has log = next := by
  intro log
  induction log with
  | nil =>
      intro i has _
      rfl
  | cons e log ih =>
      intro i has hle
      have hno : ¬ e.term > reply.conflictTerm := not_lt_of_ge (hle e (List.mem_cons_self ..))
      show (if e.term > reply.conflictTerm then _ else _) = next
      rw [if_neg hno]
      exact ih fun x hx => hle x (List.mem_cons_of_mem e hx)

/-- The scan stops at the first larger term. -/
theorem conflictScan_found {reply : AppendEntriesReply} {next : Int} {e : LogEntry Command}
    {post : List (LogEntry Command)} (hgt : reply.conflictTerm < e.term) :
    ∀ {pre : List (LogEntry Command)} {i : Nat} {has : Bool},
      (∀ x ∈ pre, x.term ≤ reply.conflictTerm) →
      conflictScan reply next i has (pre ++ e :: post) =
        if has = true ∨ ∃ x ∈ pre, x.term = reply.conflictTerm then ((i + pre.length : Nat) : Int)
        else reply.conflictIndex := by
  intro pre
  induction pre with
  | nil =>
      intro i has _
      have hne : (e.term == reply.conflictTerm) = false := beq_eq_false_iff_ne.mpr hgt.ne'
      show (if e.term > reply.conflictTerm then _ else _) = _
      rw [if_pos hgt, hne, Bool.or_false]
      simp
  | cons x pre ih =>
      intro i has hle
      have hno : ¬ x.term > reply.conflictTerm := not_lt_of_ge (hle x (List.mem_cons_self ..))
      show (if x.term > reply.conflictTerm then _ else _) = _
      rw [if_neg hno]
      show conflictScan reply next (i + 1) _ (pre ++ e :: post) = _
      rw [ih fun y hy => hle y (List.mem_cons_of_mem x hy)]
      have hlen : i + 1 + pre.length = i + (x :: pre).length := by
        rw [List.length_cons]
        omega
      rw [hlen]
      refine if_congr ?_ rfl rfl
      simp only [Bool.or_eq_true, beq_iff_eq, List.mem_cons, exists_eq_or_imp, or_assoc]

/-- The first entry of a larger term, if there is one. -/
theorem split_first_larger (t : Int) (log : List (LogEntry Command)) :
    (∀ e ∈ log, e.term ≤ t) ∨
      ∃ pre e post, log = pre ++ e :: post ∧ (∀ x ∈ pre, x.term ≤ t) ∧ t < e.term := by
  induction log with
  | nil => exact .inl nofun
  | cons e log ih =>
      by_cases hgt : t < e.term
      · exact .inr ⟨[], e, log, rfl, nofun, hgt⟩
      · rcases ih with hle | ⟨pre, e', post, rfl, hpre, hgt'⟩
        · exact .inl (List.forall_mem_cons.mpr ⟨not_lt.mp hgt, hle⟩)
        · exact .inr ⟨e :: pre, e', post, rfl,
            List.forall_mem_cons.mpr ⟨not_lt.mp hgt, hpre⟩, hgt'⟩

/-- What follows an entry has no smaller term. -/
theorem le_term_of_sorted {pre post : List (LogEntry Command)} {e : LogEntry Command}
    (h : (terms (pre ++ e :: post)).Pairwise (· ≤ ·)) : ∀ x ∈ e :: post, e.term ≤ x.term := by
  rw [terms, List.map_append, List.pairwise_append, List.map_cons, List.pairwise_cons] at h
  intro x hx
  rcases List.mem_cons.mp hx with rfl | hx
  · exact le_rfl
  · exact h.2.1.1 _ (List.mem_map_of_mem hx)

/-- **THE SCAN GOES DOWN** just when the leader's log backs up. -/
theorem conflictScan_le_iff {rf : Raft n Command Bytes} {j : Fin n}
    {args : AppendEntriesArgs Command} {reply : AppendEntriesReply}
    (hsorted : (terms rf.log).Pairwise (· ≤ ·))
    (hindex : reply.conflictIndex ≤ args.prevLogIndex) :
    conflictScan reply (rf.nextIndex j) 0 false rf.log ≤ args.prevLogIndex ↔
      BacksUp rf j args reply := by
  rcases split_first_larger reply.conflictTerm rf.log with hle | ⟨pre, e, post, hlog, hpre, hgt⟩
  · rw [conflictScan_none hle]
    constructor
    · exact fun h => .inr (.inr ⟨hle, h⟩)
    · rintro (⟨m, x, -, hx, hlt⟩ | ⟨⟨x, hx, hlt⟩, -⟩ | ⟨-, h⟩)
      · exact absurd (hle x (List.mem_of_getElem? hx)) (not_le_of_gt hlt)
      · exact absurd (hle x hx) (not_le_of_gt hlt)
      · exact h
  · have hmem : e ∈ rf.log := by rw [hlog]; simp
    have hnone : ¬ ∀ x ∈ rf.log, x.term ≤ reply.conflictTerm :=
      fun h => absurd (h e hmem) (not_le_of_gt hgt)
    rw [hlog, conflictScan_found hgt hpre, Nat.zero_add]
    by_cases hhas : ∃ x ∈ pre, x.term = reply.conflictTerm
    · -- the place of the first larger term
      rw [if_pos (.inr hhas)]
      constructor
      · intro h
        refine .inl ⟨pre.length, e, h, ?_, hgt⟩
        rw [hlog, List.getElem?_append_right le_rfl, Nat.sub_self]
        rfl
      · rintro (⟨m, x, hm, hx, hlt⟩ | ⟨-, hno⟩ | ⟨h, -⟩)
        · by_contra hneg
          rw [hlog, List.getElem?_append_left (by omega)] at hx
          exact absurd (hpre x (List.mem_of_getElem? hx)) (not_le_of_gt hlt)
        · obtain ⟨x, hx, heq⟩ := hhas
          exact absurd heq (hno x (hlog ▸ List.mem_append_left _ hx))
        · exact absurd h hnone
    · rw [if_neg (by simpa using hhas)]
      refine iff_of_true hindex (.inr (.inl ⟨⟨e, hmem, hgt⟩, fun x hx heq => ?_⟩))
      rw [hlog] at hx
      rcases List.mem_append.mp hx with hx | hx
      · exact hhas ⟨x, hx, heq⟩
      · have := le_term_of_sorted (hlog ▸ hsorted) x hx
        omega

/-! ## Rejections -/

/-- The first entry of a term is not behind another one of that term. -/
theorem findIdx_term_le {log : List (LogEntry Command)} {m : Nat} {x : LogEntry Command}
    (hx : log[m]? = some x) : (log.findIdx? fun e => e.term == x.term).getD 0 ≤ m := by
  cases hfind : log.findIdx? fun e => e.term == x.term with
  | none => exact Nat.zero_le m
  | some i =>
      obtain ⟨hi, -, hfirst⟩ := List.findIdx?_eq_some_iff_getElem.mp hfind
      rw [Option.getD_some]
      by_contra hneg
      have hval := hfirst m (by omega)
      rw [List.getElem?_eq_getElem (by omega)] at hx
      rw [Option.some.inj hx] at hval
      simp at hval

/-- What a rejection in the request's own term tells. -/
theorem rejection_spec {log : List (LogEntry Command)} {currentTerm : Int}
    {args : AppendEntriesArgs Command} {reply : AppendEntriesReply}
    (h : consistencyCheck log currentTerm args = some reply)
    (hprev : -1 ≤ args.prevLogIndex) (hrej : reply.success = false)
    (hterm : reply.term ≤ args.term) :
    0 ≤ args.prevLogIndex ∧ reply.conflictIndex ≤ args.prevLogIndex := by
  rw [consistencyCheck] at h
  split at h
  · rename_i hstale
    obtain rfl := Option.some.inj h
    exact absurd hterm (not_le_of_gt hstale)
  split at h
  · rename_i hshort
    obtain rfl := Option.some.inj h
    refine ⟨by omega, ?_⟩
    show (log.length : Int) - 1 ≤ args.prevLogIndex
    omega
  split at h
  · obtain rfl := Option.some.inj h
    cases hrej
  rename_i hfront
  obtain ⟨x, hx, h⟩ := Option.bind_eq_some_iff.mp h
  obtain ⟨hlo, hhi, hget⟩ := goIndex_eq_some hx
  dsimp only at h
  by_cases hne : x.term = args.prevLogTerm
  · rw [if_neg (not_not.mpr hne)] at h
    obtain rfl := Option.some.inj h
    cases hrej
  · rw [if_pos hne, if_pos (show args.prevLogIndex ≥ 0 from hlo), if_pos (Ne.symm hne)] at h
    obtain rfl := Option.some.inj h
    refine ⟨hlo, ?_⟩
    -- the entry at `PrevLogIndex` has the term that is looked for
    show (((log.findIdx? fun e => e.term == x.term).getD 0 : Nat) : Int) ≤ args.prevLogIndex
    have := findIdx_term_le hget
    omega

/-- What a leader makes of a rejection in its own term. -/
theorem appendReply_rejected {rf rf' : Raft n Command Bytes} {j : Fin n}
    {args : AppendEntriesArgs Command} {reply : AppendEntriesReply}
    {msgs : List (ApplyMsg Command)} (h : appendReply gob rf j args reply = some (rf', msgs))
    (hlead : rf.state = .leader) (hterm : rf.currentTerm = args.term)
    (hreply : reply.term ≤ rf.currentTerm) (hrej : reply.success = false) :
    rf'.log = rf.log ∧
      rf'.nextIndex j = max 0 (conflictScan reply (rf.nextIndex j) 0 false rf.log) := by
  rcases appendReply_cases h with ⟨hlt, -, -⟩ | ⟨hign, -, -⟩ | ⟨-, -, -, -, -, go, rfl⟩ |
    ⟨-, -, -, hsuc, -⟩
  · exact absurd hlt (not_lt_of_ge hreply)
  · exact absurd hign (by simp [hterm, hlead])
  · exact ⟨rfl, Function.update_self ..⟩
  · cases hrej.symm.trans hsuc

/-- **A REJECTION LOWERS `nextIndex`** just when the leader's log backs up. -/
theorem nextIndex_lt_iff {rf rf' : Raft n Command Bytes} {j : Fin n}
    {args : AppendEntriesArgs Command} {reply : AppendEntriesReply}
    {msgs : List (ApplyMsg Command)} (h : appendReply gob rf j args reply = some (rf', msgs))
    (hlead : rf.state = .leader) (hterm : rf.currentTerm = args.term)
    (hreply : reply.term ≤ rf.currentTerm) (hrej : reply.success = false)
    (hsorted : (terms rf.log).Pairwise (· ≤ ·)) (hprev : 0 ≤ args.prevLogIndex)
    (hindex : reply.conflictIndex ≤ args.prevLogIndex) :
    rf'.nextIndex j < args.prevLogIndex + 1 ↔ BacksUp rf j args reply := by
  obtain ⟨-, hnext⟩ := appendReply_rejected h hlead hterm hreply hrej
  rw [← conflictScan_le_iff hsorted hindex, hnext]
  omega

/-- What the rejections in flight tell. -/
def Rejections (c : Cluster n Command Bytes) : Prop :=
  ∀ s j inc args reply, Msg.appendEntriesReply s j inc args reply ∈ c.net →
    reply.success = false → reply.term ≤ args.term →
    0 ≤ args.prevLogIndex ∧ reply.conflictIndex ≤ args.prevLogIndex

theorem rejections_initial (gob : Gob Command Bytes) : Rejections (n := n) (initial gob) := by
  intro _ _ _ _ _ hm
  exact nomatch hm

theorem rejections_step {c c' : Cluster n Command Bytes} {e : Event n Command}
    (h : Rejections c) (hb : InBounds c) (ht : Transition gob c e c') : Rejections c' := by
  intro s j inc args reply hm hrej hterm
  rcases newlySent_of_transition ht hm with hold | ⟨hreq, rf', msgs, hout⟩
  · exact h s j inc args reply hold hrej hterm
  · exact rejection_spec hout.check (hb.prevLogIndex s j inc args hreq) hrej hterm

theorem run_rejections {cs : List (Cluster n Command Bytes)} (h : ClusterRun gob Always cs) :
    ∀ c ∈ cs, Rejections c :=
  (run_of_inBounds h).invariant (I := Rejections) (rejections_initial gob)
    fun _ _ _ hI hok hs => rejections_step hI hok.2 (transition_of_step hok.1.2 hs)

/-! ## The retry loop -/

/-- `k` rejections in a row: the leader `l` sends to the follower `f`, and takes the reply
    in its own term, with a log that backs up. -/
inductive Retries (gob : Gob Command Bytes) (j : Fin n) :
    Raft n Command Bytes → Raft n Command Bytes → Nat → Prop where
  | stop (l f : Raft n Command Bytes) : Retries gob j l f 0
  | again {l f l' f' : Raft n Command Bytes} {k : Nat} {args : AppendEntriesArgs Command}
      {reply : AppendEntriesReply} {msgs msgs' : List (ApplyMsg Command)} :
      appendRequest l j = some args → appendEntries gob f args = some (f', reply, msgs) →
      l.state = .leader → reply.success = false → reply.term ≤ l.currentTerm →
      BacksUp l j args reply → appendReply gob l j args reply = some (l', msgs') →
      Retries gob j l' f' k → Retries gob j l f (k + 1)

/-- **THE RETRY LOOP ENDS**: there are no more rejections than `nextIndex`. -/
theorem Retries.le_nextIndex {l f : Raft n Command Bytes} {j : Fin n} {k : Nat}
    (h : Retries gob j l f k) (hsorted : (terms l.log).Pairwise (· ≤ ·)) :
    k ≤ (l.nextIndex j).toNat := by
  induction h with
  | stop l f => exact Nat.zero_le _
  | @again l f l' f' k args reply msgs msgs' hreq happ hlead hrej hterm hback hrep _ ih =>
      obtain ⟨m, hm, hprev, -, -, -, hargs, -⟩ := appendRequest_spec hreq
      have hnext := appendRequest_prevLogIndex hreq
      obtain ⟨hlo, hindex⟩ := rejection_spec (appendEntries_spec happ).check (by omega) hrej
        (hargs ▸ hterm)
      obtain ⟨hlog, hmax⟩ := appendReply_rejected hrep hlead hargs.symm hterm hrej
      have hlt := (nextIndex_lt_iff hrep hlead hargs.symm hterm hrej hsorted hlo hindex).mpr hback
      have hk := ih (hlog ▸ hsorted)
      omega

/-- **BACKING UP.**  In every state of every run a rejection in the leader's own term
    lowers `nextIndex` below the one the request was built from, just when the leader's
    log backs up; and then the retry loop meets at most `nextIndex` rejections. -/
theorem backup_progress_iff (gob : Gob Command Bytes) (cs : List (Cluster n Command Bytes))
    (h : ClusterRun gob Always cs) (c : Cluster n Command Bytes) (hc : c ∈ cs) (s j : Fin n)
    (hlead : (c.servers s).state = .leader) :
    (∀ inc args reply, Msg.appendEntriesReply s j inc args reply ∈ c.net →
      (c.servers s).currentTerm = args.term → reply.success = false →
      reply.term ≤ (c.servers s).currentTerm →
      ∀ rf' msgs, appendReply gob (c.servers s) j args reply = some (rf', msgs) →
        (rf'.nextIndex j < args.prevLogIndex + 1 ↔ BacksUp (c.servers s) j args reply)) ∧
    ∀ k, Retries gob j (c.servers s) (c.servers j) k →
      k ≤ ((c.servers s).nextIndex j).toNat := by
  have hsorted := ((run_termOrder h c hc).servers s).log.sorted
  constructor
  · intro inc args reply hmsg hterm hrej hreply rf' msgs hrep
    obtain ⟨hlo, hindex⟩ := run_rejections h c hc s j inc args reply hmsg hrej (hterm ▸ hreply)
    exact nextIndex_lt_iff hrep hlead hterm hreply hrej hsorted hlo hindex
  · intro k hk
    exact hk.le_nextIndex hsorted

/-- Server `0` leads term `1` with a command `7` that it never sends, server `1` leads term
    `2` and starts `commands`, and then server `0` leads term `3` and sends to server `1`,
    which rejects the request. -/
def leadAgain (commands : List Nat) : List (Event 3 Nat) :=
  ([.loop 0 .top, .loop 0 .followerTimer, .loop 0 .top, .startRequestVote 0,
    .deliver 0, .deliver 1, .start 0 7,
    .loop 1 .top, .loop 1 .followerTimer, .loop 1 .top, .startRequestVote 1,
    .deliver 2, .deliver 2] : List (Event 3 Nat)) ++ commands.map (.start 1) ++
    ([.deliver 1, .loop 0 .candidateTimer, .loop 0 .top, .loop 0 .followerTimer, .loop 0 .top,
    .startRequestVote 0, .deliver 3, .deliver 3,
    .loop 0 .candidateLeader, .loop 0 .top, .loop 0 .appendRound, .runAppendEntries 0 1,
    .deliver 3] : List (Event 3 Nat))

theorem backup_progress_towards_empty_log :
    ∃ (c : SmallCluster 3) (cs : List (SmallCluster 3)),
      ClusterRun (plainGob Nat) Always (c :: cs) ∧
      Msg.appendEntriesReply 0 1 0 ⟨3, 0, 0, 1, [], -1⟩ ⟨3, false, -1, -1⟩ ∈ c.net ∧
      ∃ rf' msgs, appendReply (plainGob Nat) (c.servers 0) 1 ⟨3, 0, 0, 1, [], -1⟩
        ⟨3, false, -1, -1⟩ = some (rf', msgs) ∧ rf'.nextIndex 1 < 1 := by
  obtain ⟨c, cs, hrun, ⟨hlead, hterm, hlog⟩, hmsg, hrep⟩ :
      ∃ (c : SmallCluster 3) (cs : List (SmallCluster 3)),
        ClusterRun (plainGob Nat) Always (c :: cs) ∧
        ((c.servers 0).state = .leader ∧ (c.servers 0).currentTerm = 3 ∧
          (c.servers 0).log[0]? = some ⟨7, 1⟩) ∧
        Msg.appendEntriesReply 0 1 0 ⟨3, 0, 0, 1, [], -1⟩ ⟨3, false, -1, -1⟩ ∈ c.net ∧
        (appendReply (plainGob Nat) (c.servers 0) 1 ⟨3, 0, 0, 1, [], -1⟩
          ⟨3, false, -1, -1⟩).isSome = true :=
    run_reaches (leadAgain []) (by decide +kernel)
  obtain ⟨⟨rf', msgs⟩, hrep⟩ := Option.isSome_iff_exists.mp hrep
  refine ⟨c, cs, hrun, hmsg, rf', msgs, hrep, ?_⟩
  exact ((backup_progress_iff (plainGob Nat) (c :: cs) hrun c (List.mem_cons_self ..) 0 1
    hlead).1 0 _ _ hmsg hterm rfl hterm.ge rf' msgs hrep).mpr
      (.inl ⟨0, ⟨7, 1⟩, le_rfl, hlog, by decide⟩)

/-- **NO PROGRESS**: the leader of term `3` has an entry of term `1` where the follower has
    one of term `2`; its scan finds no larger term, and `nextIndex` stays at `1`. -/
theorem backup_stays_at_one :
    ∃ (c : SmallCluster 3) (cs : List (SmallCluster 3)),
      ClusterRun (plainGob Nat) Always (c :: cs) ∧
      ((c.servers 0).state = .leader ∧ (c.servers 0).currentTerm = 3) ∧
      Msg.appendEntriesReply 0 1 0 ⟨3, 0, 0, 1, [], -1⟩ ⟨3, false, 0, 2⟩ ∈ c.net ∧
      (appendReply (plainGob Nat) (c.servers 0) 1 ⟨3, 0, 0, 1, [], -1⟩
        ⟨3, false, 0, 2⟩).map (fun r => r.1.nextIndex 1) = some 1 :=
  run_reaches (leadAgain [8]) (by decide +kernel)

end RaftBackup
