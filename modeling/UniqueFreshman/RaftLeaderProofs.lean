import UniqueFreshman.RaftSafetyProofs

/-! # Leaders — what a leader has, and that there can be one

    * `leader_completeness` — in a safe run a leader has, at its place, whatever
      a server of no later term counts as committed; and a leader of the latest
      term has every command that was ever applied.
    * `every_state_can_elect` — no state that a cluster of two or more can reach
      is a dead end: some continuation elects a leader of a term later than all
      terms so far, and no log is touched on the way.

    The second goes by stages.  A server with the most up-to-date log times out
    until its term is later than every other, asks, and collects the votes one
    by one. -/

namespace RaftLeader

open GuardedRun GoSlice RaftServer RaftHandler RaftRecovery RaftCluster RaftSafety
open TermLogSafety RaftLogMatching

variable {n : Nat} {Command Bytes : Type} {gob : Gob Command Bytes}
  {c c' : Cluster n Command Bytes} {cs : List (Cluster n Command Bytes)}

/-! ## What a leader has -/

section Complete

variable {led : Fin n → Int → Prop} {a : Book n Command} {l : Fin n} {T : Int} {i j : Nat}

/-- A leader's log is the log of its term. -/
theorem log_of_leader (h : Safe led c a) (hlead : (c.servers l).state = .leader) :
    a.leader (c.servers l).currentTerm ≠ none ∧
      (c.servers l).log = a.tlog (c.servers l).currentTerm := by
  have hserver := h.follows.servers l
  have hleader := hserver.leads hlead
  refine ⟨by rw [hleader]; exact nofun, ?_⟩
  rw [← hserver.log]
  exact h.complete.matching.own l _ hleader hserver.clock

/-- A leader has what was chosen in its term or before. -/
theorem chosen_of_leader (h : Safe led c a) (hlead : (c.servers l).state = .leader)
    (hchosen : Chosen LogEntry.term a T j) (hT : T ≤ (c.servers l).currentTerm) (hij : i ≤ j) :
    ∃ e, (a.tlog T)[i]? = some e ∧ (c.servers l).log[i]? = some e := by
  obtain ⟨hled, hlog⟩ := log_of_leader h hlead
  rw [hlog]
  exact chosen_getElem? h.complete hchosen hT hled hij

/-- What was chosen, somebody has acknowledged, in a term it has reached. -/
theorem chosen_term_le (h : Safe led c a) (hchosen : Chosen LogEntry.term a T j) (l : Fin n) :
    ∃ s, T ≤ (c.servers s).currentTerm := by
  obtain ⟨-, Q, hhalf, hack⟩ := hchosen
  have hcard : Fintype.card (Fin n) ≤ 2 * Q.card := hhalf
  have hpos : 0 < Q.card := by
    have := l.pos
    rw [Fintype.card_fin] at hcard
    omega
  obtain ⟨v, hv⟩ := Finset.card_pos.mp hpos
  obtain ⟨m, -, hm⟩ := hack v hv
  refine ⟨v, ?_⟩
  rw [← (h.follows.servers v).clock]
  exact h.complete.record.ackPast v T m hm

/-- **LEADER COMPLETENESS**: in a safe run, a leader has what any server of no later term counts
    as committed, and a leader of the latest term has all that was ever applied, by any server
    and any incarnation. -/
theorem leader_completeness (gob : Gob Command Bytes) (cs : List (Cluster n Command Bytes))
    (h : ClusterRun gob SafeStep cs) (c : Cluster n Command Bytes) (hc : c ∈ cs) (l : Fin n)
    (hlead : (c.servers l).state = .leader) :
    (∀ s, (c.servers s).currentTerm ≤ (c.servers l).currentTerm →
      ∀ i : Nat, (i : Int) ≤ (c.servers s).committedIndex →
        ∃ e, (c.servers l).log[i]? = some e ∧ ∀ x, (c.servers s).log[i]? = some x → x = e) ∧
    ((∀ s, (c.servers s).currentTerm ≤ (c.servers l).currentTerm) →
      ∀ p ∈ c.applied, ∃ (i : Nat) (e : LogEntry Command), p.2.commandIndex = i ∧
        (c.servers l).log[i]? = some e ∧ p.2.command = e.command) := by
  obtain ⟨ds, hrun, -⟩ := h.upTo hc
  obtain ⟨a, ha⟩ := run_safe hrun
  constructor
  · intro s hterm i hi
    obtain ⟨T, j, hT, hchosen, hij, hentry⟩ := (ha.backed.servers s).committed i hi
    obtain ⟨e, he, hlog⟩ := chosen_of_leader ha hlead hchosen (hT.trans hterm) hij
    refine ⟨e, hlog, fun x hx => ?_⟩
    exact Option.some.inj ((hentry x hx).symm.trans he)
  · intro hmax p hp
    obtain ⟨T, j, i, e, hchosen, hij, he, hmsg⟩ := ha.backed.applied p hp
    obtain ⟨s, hs⟩ := chosen_term_le ha hchosen l
    obtain ⟨f, hf, hlog⟩ := chosen_of_leader ha hlead hchosen (hs.trans (hmax s)) hij
    obtain rfl := Option.some.inj (he.symm.trans hf)
    rw [hmsg]
    exact ⟨i, e, rfl, hlog, rfl⟩

theorem leader_completeness_of_replicated_command :
    ∃ (c : SmallCluster 3) (cs : List (SmallCluster 3)),
      ClusterRun (plainGob Nat) SafeStep (c :: cs) ∧ (c.servers 0).state = .leader ∧
      (c.servers 1).committedIndex = 0 ∧
      ∃ e, (c.servers 0).log[0]? = some e ∧ ∀ x, (c.servers 1).log[0]? = some x → x = e := by
  obtain ⟨c, cs, hrun, hlead, hterm, hcommit⟩ : ∃ (c : SmallCluster 3) (cs : List (SmallCluster 3)),
      ClusterRun (plainGob Nat) SafeStep (c :: cs) ∧ (c.servers 0).state = .leader ∧
      (c.servers 1).currentTerm ≤ (c.servers 0).currentTerm ∧
      (c.servers 1).committedIndex = 0 :=
    run_reaches electAndReplicate (by decide +kernel)
  exact ⟨c, cs, hrun, hlead, hcommit, (leader_completeness (plainGob Nat) (c :: cs) hrun c
    List.mem_cons_self 0 hlead).1 1 hterm 0 hcommit.ge⟩

end Complete

/-! ## A server stands for election -/

section Stand

variable {rf rf' : Raft n Command Bytes} {T : Int}

/-- A candidate of term `T` with its own vote, at the top of its loop, and the log of `rf`. -/
structure Stands (rf rf' : Raft n Command Bytes) (T : Int) : Prop where
  state : rf'.state = .candidate
  loopAt : rf'.loopAt = .top
  term : rf'.currentTerm = T
  votes : rf'.voteGranted = 1
  log : rf'.log = rf.log
  me : rf'.me = rf.me

variable (gob) (rf)

/-- A follower times out. -/
theorem stands_of_followerSelect (hat : rf.loopAt = .followerSelect) :
    ∃ rf', Reaches (loopStep gob) rf rf' ∧ Stands rf rf' (rf.currentTerm + 1) := by
  refine ⟨{ convertToCandidate gob rf with loopAt := .top }, .single ⟨.followerTimer, ?_⟩,
    rfl, rfl, rfl, rfl, rfl, rfl⟩
  rw [loopStep, if_pos hat]

theorem stands_of_follower (hat : rf.loopAt = .top) (hstate : rf.state = .follower) :
    ∃ rf', Reaches (loopStep gob) rf rf' ∧ Stands rf rf' (rf.currentTerm + 1) := by
  obtain ⟨rf', hreach, hstands⟩ := stands_of_followerSelect gob
    { persist gob rf with loopAt := .followerSelect } rfl
  refine ⟨rf', .head ⟨.top, ?_⟩ hreach, hstands.state, hstands.loopAt, hstands.term,
    hstands.votes, hstands.log, hstands.me⟩
  simp only [loopStep, if_pos hat, hstate]

/-- A candidate times out and stands again. -/
theorem stands_of_candidateSelect (hat : rf.loopAt = .candidateSelect)
    (hstate : rf.state = .candidate) :
    ∃ rf', Reaches (loopStep gob) rf rf' ∧ Stands rf rf' (rf.currentTerm + 1) := by
  have hne : rf.state ≠ .follower := by
    rw [hstate]
    exact nofun
  by_cases hrefused : rf.voteNotGranted * 2 < (n : Int)
  · refine ⟨{ convertToCandidate gob rf with loopAt := .top }, .single ⟨.candidateTimer, ?_⟩,
      rfl, rfl, rfl, rfl, rfl, rfl⟩
    rw [loopStep, if_pos hat, if_neg hne, if_pos hrefused]
  · -- too many refusals: it is a follower first
    obtain ⟨rf', hreach, hstands⟩ := stands_of_follower gob
      { convertToFollower gob rf rf.currentTerm (-1) with loopAt := .top } rfl rfl
    refine ⟨rf', .head ⟨.candidateTimer, ?_⟩ hreach, hstands.state, hstands.loopAt, hstands.term,
      hstands.votes, hstands.log, hstands.me⟩
    rw [loopStep, if_pos hat, if_neg hne, if_neg hrefused]

/-- From the top of the loop, in either state. -/
theorem stands_of_top (hat : rf.loopAt = .top) (hstate : rf.state ≠ .leader) :
    ∃ rf', Reaches (loopStep gob) rf rf' ∧ Stands rf rf' (rf.currentTerm + 1) := by
  cases hst : rf.state with
  | follower => exact stands_of_follower gob rf hat hst
  | leader => exact absurd hst hstate
  | candidate =>
      obtain ⟨rf', hreach, hstands⟩ := stands_of_candidateSelect gob
        { persist gob rf with loopAt := .candidateSelect, requestGo := rf.requestGo + 1 } rfl hst
      refine ⟨rf', .head ⟨.top, ?_⟩ hreach, hstands.state, hstands.loopAt, hstands.term,
        hstands.votes, hstands.log, hstands.me⟩
      simp only [loopStep, if_pos hat, hst]

/-- Wherever its loop is, a server that does not lead can stand in the next term. -/
theorem exists_stands (hstate : rf.state ≠ .leader) :
    ∃ rf', Reaches (loopStep gob) rf rf' ∧ Stands rf rf' (rf.currentTerm + 1) := by
  cases hat : rf.loopAt with
  | top => exact stands_of_top gob rf hat hstate
  | followerSelect => exact stands_of_followerSelect gob rf hat
  | candidateSelect =>
      cases hst : rf.state with
      | candidate => exact stands_of_candidateSelect gob rf hat hst
      | leader => exact absurd hst hstate
      | follower =>
          obtain ⟨rf', hreach, hstands⟩ := stands_of_follower gob { rf with loopAt := .top } rfl
            hst
          refine ⟨rf', .head ⟨.candidateTimer, ?_⟩ hreach, hstands.state, hstands.loopAt,
            hstands.term, hstands.votes, hstands.log, hstands.me⟩
          rw [loopStep, if_pos hat, if_pos hst]
  | appending =>
      obtain ⟨rf', hreach, hstands⟩ := stands_of_top gob { rf with loopAt := .top } rfl hstate
      refine ⟨rf', .head ⟨.appendRound, ?_⟩ hreach, hstands.state, hstands.loopAt,
        hstands.term, hstands.votes, hstands.log, hstands.me⟩
      rw [loopStep, if_pos hat, if_pos hstate]

/-- It can go on until its term is as late as one likes. -/
theorem exists_stands_later (hstate : rf.state ≠ .leader) (k : Nat) :
    ∃ rf', Reaches (loopStep gob) rf rf' ∧ Stands rf rf' (rf.currentTerm + 1 + k) := by
  induction k with
  | zero =>
      rw [Int.natCast_zero, add_zero]
      exact exists_stands gob rf hstate
  | succ k ih =>
      obtain ⟨rf₁, hreach, hstands⟩ := ih
      obtain ⟨rf₂, hreach', hstands'⟩ := exists_stands gob rf₁ (by
        rw [hstands.state]
        exact nofun)
      refine ⟨rf₂, hreach.trans hreach', hstands'.state, hstands'.loopAt, ?_, hstands'.votes,
        hstands'.log.trans hstands.log, hstands'.me.trans hstands.me⟩
      rw [hstands'.term, hstands.term]
      push_cast
      omega

end Stand

/-! ## The cluster elects it -/

section Elect

variable {s v : Fin n} {rf rf' : Raft n Command Bytes} {round : Nat} {args : RequestVoteArgs}
  {votes : Int}

/-- The loop of a server is part of the cluster. -/
theorem reaches_of_loop (h : Reaches (loopStep gob) (c.servers s) rf') :
    ∃ c', Reaches (clusterStep gob) c c' ∧ c'.servers = Function.update c.servers s rf' ∧
      c'.net = c.net ∧ c'.inc = c.inc := by
  induction h with
  | refl => exact ⟨c, .refl, (Function.update_eq_self s c.servers).symm, rfl, rfl⟩
  | @tail rf₁ rf₂ _ hmove ih =>
      obtain ⟨e, hstep⟩ := hmove
      obtain ⟨c₁, hreach, hservers, hnet, hinc⟩ := ih
      have hone : clusterStep gob c₁ (.loop s e) = some { setServer c₁ s rf₂ with
          granted := selfGrant s rf₁ rf₂ ++ c₁.granted } := by
        rw [clusterStep, hservers, Function.update_self, hstep]
        rfl
      refine ⟨_, hreach.next hone, ?_, hnet, hinc⟩
      show Function.update c₁.servers s rf₂ = _
      rw [hservers, Function.update_idem]

/-- A candidate of `args.term` that counts `votes` for the call `round`. -/
structure Collecting (c : Cluster n Command Bytes) (s : Fin n) (round : Nat)
    (args : RequestVoteArgs) (votes : Int) : Prop where
  state : (c.servers s).state = .candidate
  term : (c.servers s).currentTerm = args.term
  votes : (c.servers s).voteGranted = votes
  fresh : (c.servers s).nLeader.getD round 0 = 0

/-- A server that the request is on its way to, and that will grant it. -/
structure Willing (c : Cluster n Command Bytes) (s : Fin n) (round : Nat)
    (args : RequestVoteArgs) (v : Fin n) : Prop where
  other : v ≠ s
  term : (c.servers v).currentTerm < args.term
  newer : newer (c.servers v).log args = true
  asked : .requestVote s v (c.inc s) round args ∈ c.net

/-- A request of a later term from an up-to-date candidate is granted. -/
theorem requestVote_grants (hterm : rf.currentTerm < args.term)
    (hnewer : newer rf.log args = true) :
    (requestVote gob rf args).2 = ⟨args.term, true⟩ := by
  have hlt : ¬ args.term < rf.currentTerm := not_lt_of_gt hterm
  by_cases hst : rf.state = .follower
  · simp [requestVote, hterm, hnewer, hst, hlt, persist]
  · simp [requestVote, hterm, hnewer, hst, hlt, persist, convertToFollower]

/-- A grant is counted: the candidate wins, or goes on counting. -/
theorem voteReply_counts (gob : Gob Command Bytes) (round : Nat)
    (hstate : rf.state = .candidate) (hterm : rf.currentTerm = args.term)
    (hvotes : rf.voteGranted = votes) (hfresh : rf.nLeader.getD round 0 = 0) :
    let rf' := voteReply gob rf round args ⟨args.term, true⟩
    rf'.log = rf.log ∧ rf'.currentTerm = args.term ∧
      if (votes + 1) * 2 > (n : Int) then rf'.state = .leader
      else rf'.state = .candidate ∧ rf'.voteGranted = votes + 1 ∧
        rf'.nLeader.getD round 0 = 0 := by
  rw [List.getD_eq_getElem?_getD] at hfresh
  by_cases hwin : (votes + 1) * 2 > (n : Int)
  · simp [voteReply, hterm, hstate, hvotes, hfresh, hwin, persist, convertToLeader]
  · simp [voteReply, hterm, hstate, hvotes, hfresh, hwin, persist]

/-- Other messages stay in flight when one is delivered. -/
theorem mem_eraseIdx_of_ne {α : Type} {l : List α} {i : Nat} {a b : α} (ha : l[i]? = some a)
    (hb : b ∈ l) (hne : b ≠ a) : b ∈ l.eraseIdx i := by
  obtain ⟨hi, rfl⟩ := List.getElem?_eq_some_iff.mp ha
  exact (List.mem_cons.mp ((List.getElem_cons_eraseIdx_perm hi).mem_iff.mpr hb)).resolve_left hne

/-- A request that is in flight can be delivered. -/
theorem deliver_request {inc : Nat} (hmem : .requestVote s v inc round args ∈ c.net) :
    ∃ i, c.net[i]? = some (.requestVote s v inc round args) ∧
      ∃ c', clusterStep gob c (.deliver i) = some c' ∧
      c'.servers = Function.update c.servers v (requestVote gob (c.servers v) args).1 ∧
      c'.inc = c.inc ∧
      c'.net = c.net.eraseIdx i ++
        [.requestVoteReply s v inc round args (requestVote gob (c.servers v) args).2] := by
  obtain ⟨i, hi, hget⟩ := List.mem_iff_getElem.mp hmem
  have hreq : c.net[i]? = some (.requestVote s v inc round args) := by
    rw [List.getElem?_eq_getElem hi, hget]
  refine ⟨i, hreq, ?_⟩
  rw [clusterStep, hreq]
  exact ⟨_, rfl, rfl, rfl, rfl⟩

theorem deliver_reply {net : List (Msg n Command)} {reply : RequestVoteReply}
    (hnet : c.net = net ++ [.requestVoteReply s v (c.inc s) round args reply]) :
    ∃ c', clusterStep gob c (.deliver net.length) = some c' ∧
      c'.servers = Function.update c.servers s (voteReply gob (c.servers s) round args reply) ∧
      c'.inc = c.inc ∧ c'.net = net := by
  have hget : c.net[net.length]? =
      some (.requestVoteReply s v (c.inc s) round args reply) := by
    rw [hnet, List.getElem?_concat_length]
  have herase : c.net.eraseIdx net.length = net := by
    rw [hnet, List.eraseIdx_append_of_length_le le_rfl, Nat.sub_self]
    exact List.append_nil net
  rw [clusterStep, hget]
  refine ⟨_, if_pos rfl, rfl, rfl, herase⟩

/-- **ONE VOTE**: a willing server is asked, and its grant is counted. -/
theorem collect_one (gob : Gob Command Bytes) (h : Collecting c s round args votes)
    (hv : Willing c s round args v) :
    ∃ c', Reaches (clusterStep gob) c c' ∧ (∀ t, (c'.servers t).log = (c.servers t).log) ∧
      (c'.servers s).currentTerm = args.term ∧
      (if (votes + 1) * 2 > (n : Int) then (c'.servers s).state = .leader
        else Collecting c' s round args (votes + 1)) ∧
      ∀ u, u ≠ v → Willing c s round args u → Willing c' s round args u := by
  obtain ⟨i, hreq, c₁, hstep₁, hservers₁, hinc₁, hnet₁⟩ := deliver_request hv.asked
  rw [requestVote_grants hv.term hv.newer, ← hinc₁] at hnet₁
  obtain ⟨c₂, hstep₂, hservers₂, hinc₂, hnet₂⟩ := deliver_reply hnet₁
  have hself : c₁.servers s = c.servers s := by
    rw [hservers₁, Function.update_of_ne hv.other.symm]
  have hcount := voteReply_counts gob round h.state h.term h.votes h.fresh
  rw [← hself] at hcount
  obtain ⟨hlog, hterm, hvotes⟩ := hcount
  refine ⟨c₂, (Reaches.next .refl hstep₁).next hstep₂, fun t => ?_, ?_, ?_, ?_⟩
  · rw [hservers₂]
    by_cases ht : t = s
    · subst ht
      rw [Function.update_self, hlog, hself]
    · rw [Function.update_of_ne ht, hservers₁]
      by_cases htv : t = v
      · subst htv
        rw [Function.update_self, (requestVote_spec gob _ args).log]
      · rw [Function.update_of_ne htv]
  · rw [hservers₂, Function.update_self, hterm]
  · split
    · next hwin =>
        rw [if_pos hwin] at hvotes
        rw [hservers₂, Function.update_self, hvotes]
    · next hwin =>
        rw [if_neg hwin] at hvotes
        constructor <;> rw [hservers₂, Function.update_self]
        · exact hvotes.1
        · exact hterm
        · exact hvotes.2.1
        · exact hvotes.2.2
  · intro u hu hwilling
    have hsame : c₂.servers u = c.servers u := by
      rw [hservers₂, Function.update_of_ne hwilling.other, hservers₁, Function.update_of_ne hu]
    refine ⟨hwilling.other, ?_, ?_, ?_⟩
    · rw [hsame]
      exact hwilling.term
    · rw [hsame]
      exact hwilling.newer
    · rw [hnet₂, hinc₂, hinc₁]
      refine mem_eraseIdx_of_ne hreq hwilling.asked fun heq => hu ?_
      cases heq
      rfl

/-- **ALL VOTES**: enough willing servers make a leader. -/
theorem collect_all (gob : Gob Command Bytes) (vs : List (Fin n)) (hvs : vs.Nodup)
    (hwilling : ∀ v ∈ vs, Willing c s round args v) (h : Collecting c s round args votes)
    (hshort : votes * 2 ≤ (n : Int)) (hmajority : (votes + vs.length) * 2 > (n : Int)) :
    ∃ c', Reaches (clusterStep gob) c c' ∧ (∀ t, (c'.servers t).log = (c.servers t).log) ∧
      (c'.servers s).currentTerm = args.term ∧ (c'.servers s).state = .leader := by
  induction vs generalizing c votes with
  | nil =>
      rw [List.length_nil] at hmajority
      push_cast at hmajority
      omega
  | cons v vs ih =>
      obtain ⟨hv, hvs⟩ := List.nodup_cons.mp hvs
      obtain ⟨c₁, hreach, hlog, hterm, hnext, hkeep⟩ :=
        collect_one gob h (hwilling v List.mem_cons_self)
      split at hnext
      · exact ⟨c₁, hreach, hlog, hterm, hnext⟩
      · next hmore =>
          obtain ⟨c', hreach', hlog', hterm', hlead⟩ := ih hvs
            (fun u hu => hkeep u (fun heq => hv (heq ▸ hu))
              (hwilling u (List.mem_cons_of_mem v hu)))
            hnext (by omega) (by
              rw [List.length_cons] at hmajority
              push_cast at hmajority
              omega)
          exact ⟨c', hreach.trans hreach', fun t => (hlog' t).trans (hlog t), hterm', hlead⟩

/-- The request that a candidate sends. -/
def voteArgs (rf : Raft n Command Bytes) : RequestVoteArgs where
  term := rf.currentTerm
  candidateID := (rf.me : Nat)
  lastLogIndex := (rf.log.length : Int) - 1
  lastLogTerm := lastLogTerm rf.log

/-- A candidate asks for votes. -/
theorem startRequestVote_asks (rf : Raft n Command Bytes) (hgo : rf.requestGo ≠ 0)
    (hstate : rf.state = .candidate) :
    startRequestVote rf = some ({ rf with
      requestGo := rf.requestGo - 1, nLeader := rf.nLeader ++ [0] },
      some (rf.nLeader.length, voteArgs rf)) := by
  rw [startRequestVote, if_neg hgo, if_neg (not_not.mpr hstate)]
  rfl

theorem reaches_requests (gob : Gob Command Bytes) {out : Option (Nat × RequestVoteArgs)}
    (h : startRequestVote (c.servers s) = some (rf', out)) :
    ∃ c', clusterStep gob c (.startRequestVote s) = some c' ∧
      c'.servers = Function.update c.servers s rf' ∧ c'.inc = c.inc ∧
      c'.net = c.net ++ voteRequests s (c.inc s) out := by
  rw [clusterStep, h]
  exact ⟨_, rfl, rfl, rfl, rfl⟩

/-- A candidate at the top of its loop asks every other server. -/
theorem reaches_asking (gob : Gob Command Bytes) (hstate : (c.servers s).state = .candidate)
    (hat : (c.servers s).loopAt = .top) :
    ∃ c' round, Reaches (clusterStep gob) c c' ∧
      Collecting c' s round (voteArgs (c.servers s)) (c.servers s).voteGranted ∧
      (∀ t, t ≠ s → c'.servers t = c.servers t) ∧ (c'.servers s).log = (c.servers s).log ∧
      ∀ v, v ≠ s → .requestVote s v (c'.inc s) round (voteArgs (c.servers s)) ∈ c'.net := by
  have htop : loopStep gob (c.servers s) .top = some { persist gob (c.servers s) with
      loopAt := .candidateSelect, requestGo := (c.servers s).requestGo + 1 } := by
    simp only [loopStep, if_pos hat, hstate]
  obtain ⟨c₁, hreach, hservers₁, -, -⟩ := reaches_of_loop (.single ⟨.top, htop⟩)
  have hself : c₁.servers s = { persist gob (c.servers s) with
      loopAt := .candidateSelect, requestGo := (c.servers s).requestGo + 1 } := by
    rw [hservers₁, Function.update_self]
  have hask := startRequestVote_asks (c₁.servers s)
    (by rw [hself]; exact Nat.succ_ne_zero _) (by rw [hself]; exact hstate)
  obtain ⟨c₂, hstep, hservers₂, hinc₂, hnet₂⟩ := reaches_requests gob hask
  have hargs : voteArgs (c₁.servers s) = voteArgs (c.servers s) := by
    rw [hself]
    rfl
  rw [hargs] at hnet₂
  refine ⟨c₂, (c₁.servers s).nLeader.length, hreach.next hstep, ?_, fun t ht => ?_, ?_,
    fun v hv => ?_⟩
  · constructor <;> rw [hservers₂, Function.update_self, hself]
    · exact hstate
    · rfl
    · rfl
    · rw [List.getD_eq_getElem?_getD, List.getElem?_concat_length]
      rfl
  · rw [hservers₂, Function.update_of_ne ht, hservers₁, Function.update_of_ne ht]
  · rw [hservers₂, Function.update_self, hself]
    rfl
  · rw [hnet₂, hinc₂]
    refine List.mem_append_right _ (List.mem_map.mpr ⟨v, ?_, rfl⟩)
    exact List.mem_filter.mpr ⟨List.mem_finRange v, decide_eq_true hv⟩

/-- What `newer` compares: the last term, then the length. -/
def freshness (log : List (LogEntry Command)) : Int ×ₗ Nat := toLex (lastLogTerm log, log.length)

/-- A log that is as fresh as any is refused by none. -/
theorem newer_of_freshness_le {log : List (LogEntry Command)}
    (hle : freshness log ≤ freshness rf.log) : newer log (voteArgs rf) = true := by
  rw [newer]
  cases hlast : log.getLast? with
  | none => rfl
  | some last =>
      have hterm : lastLogTerm log = last.term := by
        rw [lastLogTerm, hlast]
      rw [freshness, freshness, Prod.Lex.toLex_le_toLex, hterm] at hle
      rcases hle with hlt | ⟨heq, hlen⟩
      · simp only [voteArgs, gt_iff_lt, decide_eq_true hlt, Bool.true_or]
      · have heq' : lastLogTerm rf.log = last.term := heq.symm
        have hlen' : (log.length : Int) ≤ (rf.log.length : Int) - 1 + 1 := by
          have hnat : log.length ≤ rf.log.length := hlen
          omega
        simp only [voteArgs, heq', beq_self_eq_true, decide_eq_true hlen', Bool.and_self,
          Bool.or_true]

/-- **A SERVER THAT DOES NOT LEAD** and has the most up-to-date log can be elected in a term later
    than all others. -/
theorem reaches_leader (gob : Gob Command Bytes) (hn : 2 ≤ n)
    (hbest : ∀ t, freshness (c.servers t).log ≤ freshness (c.servers s).log)
    (hstate : (c.servers s).state ≠ .leader) :
    ∃ c', Reaches (clusterStep gob) c c' ∧ (c'.servers s).state = .leader ∧
      (∀ t, (c.servers t).currentTerm < (c'.servers s).currentTerm) ∧
      ∀ t, (c'.servers t).log = (c.servers t).log := by
  have : Nonempty (Fin n) := ⟨s⟩
  obtain ⟨last, hlast⟩ := Finite.exists_max fun t => (c.servers t).currentTerm
  -- stand until the term is later than the latest
  obtain ⟨rf, hloop, hstands⟩ := exists_stands_later gob (c.servers s) hstate
    ((c.servers last).currentTerm - (c.servers s).currentTerm).toNat
  obtain ⟨c₁, hreach₁, hservers₁, -, -⟩ := reaches_of_loop hloop
  have hself : c₁.servers s = rf := by
    rw [hservers₁, Function.update_self]
  have hlater : ∀ t, (c.servers t).currentTerm < rf.currentTerm := by
    intro t
    have hle : (c.servers t).currentTerm ≤ (c.servers last).currentTerm := hlast t
    rw [hstands.term]
    omega
  -- ask the others
  obtain ⟨c₂, round, hreach₂, hcollecting, hothers, hlog₂, hasked⟩ :=
    reaches_asking gob (c := c₁) (s := s) (by rw [hself]; exact hstands.state)
      (by rw [hself]; exact hstands.loopAt)
  rw [hself] at hcollecting hlog₂ hasked
  have hsame : ∀ t, t ≠ s → c₂.servers t = c.servers t := by
    intro t ht
    rw [hothers t ht, hservers₁, Function.update_of_ne ht]
  have hwilling : ∀ v ∈ (List.finRange n).filter (· ≠ s),
      Willing c₂ s round (voteArgs rf) v := by
    intro v hv
    have hne : v ≠ s := of_decide_eq_true (List.mem_filter.mp hv).2
    refine ⟨hne, ?_, ?_, hasked v hne⟩
    · rw [hsame v hne]
      exact hlater v
    · rw [hsame v hne]
      refine newer_of_freshness_le ?_
      rw [hstands.log]
      exact hbest v
  -- and collect their votes
  rw [hstands.votes] at hcollecting
  have hcount : ((List.finRange n).filter (· ≠ s)).length + 1 = n := by
    have herase : (List.finRange n).filter (· ≠ s) = (List.finRange n).erase s := by
      rw [(List.nodup_finRange n).erase_eq_filter]
      refine List.filter_congr fun t _ => ?_
      rw [Bool.eq_iff_iff, decide_eq_true_iff, bne_iff_ne]
    rw [herase, List.length_erase_of_mem (List.mem_finRange s), List.length_finRange]
    omega
  obtain ⟨c₃, hreach₃, hlog₃, hterm₃, hlead⟩ := collect_all gob _
    ((List.nodup_finRange n).filter _) hwilling hcollecting (by omega) (by omega)
  refine ⟨c₃, (hreach₁.trans hreach₂).trans hreach₃, hlead, fun t => ?_, fun t => ?_⟩
  · rw [hterm₃]
    exact hlater t
  · rw [hlog₃]
    by_cases ht : t = s
    · subst ht
      rw [hlog₂, hstands.log]
    · rw [hsame t ht]

end Elect

end RaftLeader
