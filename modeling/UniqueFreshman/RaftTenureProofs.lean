import UniqueFreshman.RaftClusterProofs

/-! # Tenure — how a leader loses its state

    The `heartBeat` loop decides by a state it read before its `select`.  A
    candidate that wins while the loop is blocked is leader already when the
    loop takes the next signal, and two of the three cases of the candidate's
    `select` then act on a leader: the heart beat turns it into a follower, and
    the timer into a candidate of the next term.

    The follower's `select` is harmless: nothing but the loop itself turns a
    follower into anything else. -/

namespace RaftTenure

open GuardedRun RaftServer RaftHandler RaftMove RaftCluster

variable {n : Nat} {Command Bytes : Type} {gob : Gob Command Bytes}
variable {rf rf' : Raft n Command Bytes}

/-! ## Where the loop stands -/

/-- Handlers do not move the loop. -/
theorem adoptTerm_loopAt (gob : Gob Command Bytes) (rf : Raft n Command Bytes) (t : Int) :
    (adoptTerm gob rf t).loopAt = rf.loopAt := by
  rw [adoptTerm]
  split
  · dsimp only
    split <;> rfl
  · rfl

theorem appendEntries_loopAt {args : AppendEntriesArgs Command} {reply : AppendEntriesReply}
    {msgs : List (ApplyMsg Command)} (h : appendEntries gob rf args = some (rf', reply, msgs)) :
    rf'.loopAt = rf.loopAt := by
  rw [← adoptTerm_loopAt gob rf args.term]
  obtain ⟨reply', -, h⟩ := Option.bind_eq_some_iff.mp h
  obtain ⟨⟨rf2, msgs'⟩, hacc, h⟩ := Option.bind_eq_some_iff.mp h
  obtain ⟨rfl, -⟩ := Prod.mk.inj (Option.some.inj h)
  show rf2.loopAt = _
  rw [acceptEntries] at hacc
  split at hacc
  · obtain ⟨log, -, hacc⟩ := Option.bind_eq_some_iff.mp hacc
    obtain ⟨last, rfl, -⟩ := startApplyLogs_spec hacc
    rfl
  · obtain ⟨rfl, -⟩ := Prod.mk.inj (Option.some.inj hacc)
    rfl

theorem requestVote_loopAt (gob : Gob Command Bytes) (rf : Raft n Command Bytes)
    (args : RequestVoteArgs) : (requestVote gob rf args).1.loopAt = rf.loopAt := by
  simp only [requestVote]
  split
  · split <;> rfl
  · rfl

/-- Only the `heartBeat` loop and a crash move the loop. -/
theorem serverStep_loopAt {input : Input n Command} (hs : serverStep gob rf input = some rf')
    (hloop : ∀ e, input ≠ .loop e) (hrestart : input ≠ .restart) : rf'.loopAt = rf.loopAt := by
  cases input with
  | requestVote args =>
      obtain rfl := Option.some.inj hs
      exact requestVote_loopAt gob rf args
  | appendEntries args =>
      obtain ⟨⟨rf', reply, msgs⟩, hr, rfl⟩ := Option.map_eq_some_iff.mp hs
      exact appendEntries_loopAt hr
  | start command =>
      obtain rfl := Option.some.inj hs
      rw [start]
      split <;> rfl
  | voteReply round args reply =>
      obtain rfl := Option.some.inj hs
      rcases voteReply_cases gob rf round args reply with
        ⟨-, heq⟩ | ⟨-, heq⟩ | ⟨-, -, -, heq⟩ | ⟨-, -, -, -, heq⟩ | ⟨-, -, -, -, -, _, _, heq⟩ <;>
      exact (congrArg Raft.loopAt heq).trans rfl
  | appendReply j args reply =>
      obtain ⟨⟨rf', msgs⟩, hr, rfl⟩ := Option.map_eq_some_iff.mp hs
      rcases appendReply_cases hr with ⟨-, rfl, -⟩ | ⟨-, rfl, -⟩ | ⟨-, -, -, -, -, go, rfl⟩ |
        ⟨-, -, -, -, commit, last, -, -, -, rfl, -⟩ <;> rfl
  | startRequestVote =>
      obtain ⟨⟨rf', out⟩, hr, rfl⟩ := Option.map_eq_some_iff.mp hs
      simp only [startRequestVote] at hr
      split at hr
      · cases hr
      · split at hr <;> cases hr <;> rfl
  | runAppendEntries j =>
      obtain ⟨⟨rf', out⟩, hr, rfl⟩ := Option.map_eq_some_iff.mp hs
      simp only [runAppendEntries] at hr
      split at hr
      · cases hr
      · split at hr
        · cases hr
          rfl
        · obtain ⟨args, -, hr⟩ := Option.bind_eq_some_iff.mp hr
          cases hr
          rfl
  | loop e => exact absurd rfl (hloop e)
  | restart => exact absurd rfl hrestart

/-- A server whose loop waits in the follower's `select` is a follower. -/
def SelectsAsFollower (rf : Raft n Command Bytes) : Prop :=
  rf.loopAt = .followerSelect → rf.state = .follower

/-- Nothing but its loop turns a follower into anything else. -/
theorem follower_step {input : Input n Command} (hs : serverStep gob rf input = some rf')
    (hloop : ∀ e, input ≠ .loop e) (hf : rf.state = .follower) : rf'.state = .follower := by
  cases move_of_step hs with
  | still hcore _ => exact hcore.state.trans hf
  | vote hout => exact (role_of_adopt hout.currentTerm hout.state).elim id fun h => h.2.trans hf
  | accept _ hout =>
      exact (role_of_adopt hout.currentTerm hout.state).elim id fun h => h.2.trans hf
  | append hlead | backUp _ _ hlead _ | matched _ _ hlead _ _ _ _ =>
      exact nomatch hf.symm.trans hlead
  | count hcand | win hcand => exact nomatch hf.symm.trans hcand
  | stepDown _ _ | restart => rfl
  | forget _ | stand _ => exact absurd rfl (hloop _)

/-- The loop enters the follower's `select` as a follower. -/
theorem loopStep_selectsAsFollower {e : LoopEvent} (h : SelectsAsFollower rf)
    (hs : loopStep gob rf e = some rf') : SelectsAsFollower rf' := by
  intro hat
  cases e with
  | top =>
      simp only [loopStep] at hs
      split at hs
      · cases hst : rf.state <;> rw [hst] at hs <;> cases hs
        · exact hst
        · cases hat
        · cases hat
      · cases hs
  | appendRound =>
      simp only [loopStep] at hs
      split at hs
      · split at hs <;> cases hs
        · cases hat
        · exact h hat
      · cases hs
  | candidateTimer =>
      simp only [loopStep] at hs
      split at hs
      · split at hs
        · cases hs
          cases hat
        · split at hs <;> cases hs <;> cases hat
      · cases hs
  | candidateHeartBeat | candidateLeader | followerGrantVote | followerHeartBeat |
    followerTimer =>
      simp only [loopStep] at hs
      split at hs
      · cases hs
        cases hat
      · cases hs
  | steal ch =>
      cases ch <;>
      · simp only [loopStep] at hs
        split at hs
        · cases hs
          exact h hat
        · cases hs

/-- One step of a server, -/
theorem serverStep_selectsAsFollower {input : Input n Command} (h : SelectsAsFollower rf)
    (hs : serverStep gob rf input = some rf') : SelectsAsFollower rf' := by
  by_cases hloop : ∃ e, input = .loop e
  · obtain ⟨e, rfl⟩ := hloop
    exact loopStep_selectsAsFollower h hs
  · have hno : ∀ e, input ≠ .loop e := fun e heq => hloop ⟨e, heq⟩
    by_cases hrestart : input = .restart
    · subst hrestart
      obtain rfl := Option.some.inj hs
      exact fun _ => rfl
    · intro hat
      exact follower_step hs hno (h (serverStep_loopAt hs hno hrestart ▸ hat))

/-! ## One step of a leader -/

/-- **WHAT ENDS A LEADERSHIP**: a higher term, one of the two cases of the candidate's
    `select`, or a crash. -/
theorem leader_step {input : Input n Command} (hselect : SelectsAsFollower rf)
    (hlead : rf.state = .leader) (hs : serverStep gob rf input = some rf') :
    (rf'.state = .leader ∧ rf'.currentTerm = rf.currentTerm) ∨
    (∃ t, shownTerm input = some t ∧ rf.currentTerm < t) ∨
    input = .loop .candidateHeartBeat ∨ input = .loop .candidateTimer ∨ input = .restart := by
  cases move_of_step hs with
  | still hcore _ => exact .inl ⟨hcore.state.trans hlead, hcore.currentTerm⟩
  | @vote args _ _ hout =>
      by_cases hgt : args.term > rf.currentTerm
      · exact .inr (.inl ⟨args.term, rfl, hgt⟩)
      · refine .inl ⟨?_, ?_⟩
        · rw [hout.state, if_neg hgt, hlead]
        · rw [hout.currentTerm, max_eq_left (not_lt.mp hgt)]
  | @accept args _ _ _ _ hout =>
      by_cases hgt : args.term > rf.currentTerm
      · exact .inr (.inl ⟨args.term, rfl, hgt⟩)
      · refine .inl ⟨?_, ?_⟩
        · rw [hout.state, if_neg hgt, hlead]
        · rw [hout.currentTerm, max_eq_left (not_lt.mp hgt)]
  | append | backUp | matched => exact .inl ⟨hlead, rfl⟩
  | @stepDown _ term hshown hlt => exact .inr (.inl ⟨term, hshown, hlt⟩)
  | count hcand | win hcand => cases hlead.symm.trans hcand
  | forget hwhy =>
      rcases hwhy with rfl | ⟨rfl, -⟩
      · exact .inr (.inr (.inl rfl))
      · exact .inr (.inr (.inr (.inl rfl)))
  | stand hwhy =>
      rcases hwhy with rfl | ⟨rfl, -⟩
      · -- the follower's timer does not run for a leader
        simp only [serverStep, loopStep] at hs
        split at hs
        · rename_i hat
          cases hlead.symm.trans (hselect hat)
        · cases hs
      · exact .inr (.inr (.inr (.inl rfl)))
  | restart => exact .inr (.inr (.inr (.inr rfl)))

/-- The two cases of the candidate's `select`, and a crash, do end it. -/
theorem leader_dismissed {input : Input n Command} (hs : serverStep gob rf input = some rf')
    (hlead : rf.state = .leader)
    (hinput : input = .loop .candidateHeartBeat ∨ input = .loop .candidateTimer ∨
      input = .restart) : rf'.state ≠ .leader := by
  rcases hinput with rfl | rfl | rfl
  · simp only [serverStep, loopStep] at hs
    split at hs
    · cases hs
      rintro ⟨⟩
    · cases hs
  · simp only [serverStep, loopStep, hlead] at hs
    split at hs
    · split at hs
      · rename_i hf
        cases hf
      · split at hs <;> cases hs <;> rintro ⟨⟩
    · cases hs
  · obtain rfl := Option.some.inj hs
    rintro ⟨⟩

/-! ## The cluster -/

variable {c c' : Cluster n Command Bytes}

/-- In event `e` server `s` learns of a term greater than `T` from a request or a reply. -/
def LearnsOfTermAbove (c : Cluster n Command Bytes) (e : Event n Command) (s : Fin n)
    (T : Int) : Prop :=
  ∃ input t, served c e = some (s, input) ∧ shownTerm input = some t ∧ T < t

/-- The inputs that do not come off the network are events of their own. -/
theorem served_local {e : Event n Command} {s : Fin n} {input : Input n Command}
    (h : served c e = some (s, input)) :
    (∀ l, input = .loop l → e = .loop s l) ∧ (input = .restart → e = .restart s) := by
  cases e with
  | loop v l =>
      cases h
      exact ⟨by rintro _ ⟨⟩; rfl, by rintro ⟨⟩⟩
  | restart v =>
      cases h
      exact ⟨by rintro _ ⟨⟩, fun _ => rfl⟩
  | deliver i =>
      obtain ⟨m, -, h⟩ := Option.bind_eq_some_iff.mp h
      cases m with
      | requestVote | appendEntries =>
          cases h
          exact ⟨by rintro _ ⟨⟩, by rintro ⟨⟩⟩
      | requestVoteReply | appendEntriesReply =>
          rw [taken] at h
          split at h
          · cases h
            exact ⟨by rintro _ ⟨⟩, by rintro ⟨⟩⟩
          · cases h
  | drop i => cases h
  | start | startRequestVote | runAppendEntries =>
      cases h
      exact ⟨by rintro _ ⟨⟩, by rintro ⟨⟩⟩

/-- and so every state of a run. -/
theorem run_selectsAsFollower {cs : List (Cluster n Command Bytes)}
    (h : ClusterRun gob Always cs) : ∀ c ∈ cs, ∀ s, SelectsAsFollower (c.servers s) := by
  refine Run.invariant (I := fun c => ∀ s, SelectsAsFollower (c.servers s)) ?_ ?_
    (run_of_transitions h)
  · intro s hat
    cases hat
  · intro c e c' hI hok hs
    exact servers_of_clusterStep (P := fun _ rf => SelectsAsFollower rf)
      (fun s => (hok.2 s).1) hs hI fun _ _ _ _ h hstep => serverStep_selectsAsFollower h hstep

/-- **DEPOSED ONLY BY A HIGHER TERM**: in every state of every run and for every step from
    it, a leader stays leader of its term or learns of a greater one, just when the step is
    not the heart beat or the timer of the candidate's `select`, nor its crash. -/
theorem leader_kept_iff (gob : Gob Command Bytes) (cs : List (Cluster n Command Bytes))
    (h : ClusterRun gob Always cs) (c : Cluster n Command Bytes) (hc : c ∈ cs)
    (e : Event n Command) (c' : Cluster n Command Bytes) (hs : clusterStep gob c e = some c')
    (s : Fin n) (hlead : (c.servers s).state = .leader) :
    (((c'.servers s).state = .leader ∧
        (c'.servers s).currentTerm = (c.servers s).currentTerm) ∨
      LearnsOfTermAbove c e s (c.servers s).currentTerm) ↔
      ¬ (e = .loop s .candidateHeartBeat ∨ e = .loop s .candidateTimer ∨ e = .restart s) := by
  have hme : ∀ s, (c.servers s).me = s := fun s => (run_serversDurable h c hc s).1
  rcases serverStep_of_clusterStep hme hs s with ⟨hnone, heq⟩ | ⟨input, hserved, hstep⟩
  · rw [heq]
    refine iff_of_true (.inl ⟨hlead, rfl⟩) ?_
    rintro (rfl | rfl | rfl)
    · exact hnone _ rfl
    · exact hnone _ rfl
    · exact hnone _ rfl
  · obtain ⟨hloop, hrestart⟩ := served_local hserved
    constructor
    · intro hkept hevent
      -- the event is one of the three, so no term was shown
      have hinput : input = .loop .candidateHeartBeat ∨ input = .loop .candidateTimer ∨
          input = .restart := by
        rcases hevent with rfl | rfl | rfl
        · exact .inl (Prod.mk.inj (Option.some.inj hserved)).2.symm
        · exact .inr (.inl (Prod.mk.inj (Option.some.inj hserved)).2.symm)
        · exact .inr (.inr (Prod.mk.inj (Option.some.inj hserved)).2.symm)
      rcases hkept with ⟨hlead', -⟩ | ⟨input', t, hserved', hshown, -⟩
      · exact leader_dismissed hstep hlead hinput hlead'
      · obtain rfl := (Prod.mk.inj (Option.some.inj (hserved.symm.trans hserved'))).2
        rcases hinput with rfl | rfl | rfl <;> cases hshown
    · intro hevent
      rcases leader_step (run_selectsAsFollower h c hc s) hlead hstep with
        hkept | ⟨t, hshown, hlt⟩ | hheart | htimer | hcrash
      · exact .inl hkept
      · exact .inr ⟨input, t, hserved, hshown, hlt⟩
      · exact absurd (.inl (hloop _ hheart)) hevent
      · exact absurd (.inr (.inl (hloop _ htimer))) hevent
      · exact absurd (.inr (.inr (hrestart hcrash))) hevent

/-- Server `0` stands in term `1` and wins with the vote of server `1`; its loop is still
    in the candidate's `select`. -/
def winWhileSelecting : List (Event 3 Nat) :=
  [.loop 0 .top, .loop 0 .followerTimer, .loop 0 .top, .startRequestVote 0,
    .deliver 0, .deliver 1]

theorem leader_kept_by_leader_signal :
    ∃ (c c' : SmallCluster 3) (cs : List (SmallCluster 3)),
      ClusterRun (plainGob Nat) Always (c :: cs) ∧ (c.servers 0).state = .leader ∧
      clusterStep (plainGob Nat) c (.loop 0 .candidateLeader) = some c' ∧
      (((c'.servers 0).state = .leader ∧
        (c'.servers 0).currentTerm = (c.servers 0).currentTerm) ∨
        LearnsOfTermAbove c (.loop 0 .candidateLeader) 0 (c.servers 0).currentTerm) := by
  obtain ⟨c, cs, hrun, hlead, hstep⟩ : ∃ (c : SmallCluster 3) (cs : List (SmallCluster 3)),
      ClusterRun (plainGob Nat) Always (c :: cs) ∧ (c.servers 0).state = .leader ∧
        (clusterStep (plainGob Nat) c (.loop 0 .candidateLeader)).isSome = true :=
    run_reaches winWhileSelecting (by decide +kernel)
  obtain ⟨c', hs⟩ := Option.isSome_iff_exists.mp hstep
  refine ⟨c, c', cs, hrun, hlead, hs, (leader_kept_iff (plainGob Nat) (c :: cs) hrun c
    (List.mem_cons_self ..) _ c' hs 0 hlead).mpr ?_⟩
  rintro (h | h | h) <;> cases h

/-- **DEPOSED BY A TIMER**: the leader of term `1` becomes a candidate of term `2`, in a
    step in which it learns nothing. -/
theorem leader_deposed_by_its_timer :
    ∃ (c c' : SmallCluster 3) (cs : List (SmallCluster 3)),
      ClusterRun (plainGob Nat) Always (c :: cs) ∧
      ((c.servers 0).state = .leader ∧ (c.servers 0).currentTerm = 1) ∧
      clusterStep (plainGob Nat) c (.loop 0 .candidateTimer) = some c' ∧
      ((c'.servers 0).state = .candidate ∧ (c'.servers 0).currentTerm = 2) ∧
      ¬ LearnsOfTermAbove c (.loop 0 .candidateTimer) 0 1 := by
  obtain ⟨c, cs, hrun, hlead, hstep⟩ : ∃ (c : SmallCluster 3) (cs : List (SmallCluster 3)),
      ClusterRun (plainGob Nat) Always (c :: cs) ∧
        ((c.servers 0).state = .leader ∧ (c.servers 0).currentTerm = 1) ∧
        ∃ r ∈ clusterStep (plainGob Nat) c (.loop 0 .candidateTimer),
          (r.servers 0).state = .candidate ∧ (r.servers 0).currentTerm = 2 :=
    run_reaches winWhileSelecting (by decide +kernel)
  obtain ⟨c', hs, hcand⟩ := hstep
  refine ⟨c, c', cs, hrun, hlead, hs, hcand, ?_⟩
  rintro ⟨input, t, hserved, hshown, -⟩
  cases hserved
  cases hshown

end RaftTenure
