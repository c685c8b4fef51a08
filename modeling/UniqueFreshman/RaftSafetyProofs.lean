import UniqueFreshman.RaftCommitProofs
import UniqueFreshman.RaftElectionProofs
import UniqueFreshman.RaftLogMatchingProofs

/-! # State machine safety — what is applied is never contradicted

    The ledger of a cluster is extended by what the votes and the successful
    replies mean: a grant is a ballot, a successful reply is an acknowledgement,
    and whatever a server commits is a chosen mark of a term it has reached
    (`Backed`).  Chosen marks agree, so applied commands do.

    Besides the two conditions on votes one more is needed.  When the entry
    right after `PrevLogIndex` is in conflict, `AppendEntries` cuts the log at
    `PrevLogIndex`, writes nothing, and still replies `Success`: an
    acknowledgement without the entries, and a lost one.  `NoFirstConflict`
    says that a step does not do that. -/

namespace RaftSafety

open GuardedRun RaftServer RaftHandler RaftAppendLog RaftCluster RaftTermOrder
open TermLog TermLogSafety RaftTally RaftElection RaftLogMatching RaftCommit

variable {n : Nat} {Command Bytes : Type} {gob : Gob Command Bytes}

/-! ## The condition -/

/-- The request starts at the front of the log or after an entry of
    `PrevLogTerm`. -/
def PrevMatches (log : List (LogEntry Command)) (args : AppendEntriesArgs Command) : Prop :=
  args.prevLogIndex = -1 ∨ (0 ≤ args.prevLogIndex ∧
    (log[args.prevLogIndex.toNat]?).map LogEntry.term = some args.prevLogTerm)

/-- If the request is of the receiver's term or later and matches at
    `PrevLogIndex`, the next entry of the receiver, if it has one, has the term
    of the first entry sent. -/
def NoFirstConflictOn (c : Cluster n Command Bytes) : Msg n Command → Prop
  | .appendEntries _ dst _ args =>
      (c.servers dst).currentTerm ≤ args.term → PrevMatches (c.servers dst).log args →
        ∀ x ∈ (c.servers dst).log[(args.prevLogIndex + 1).toNat]?,
          ∀ e ∈ args.entries.head?, x.term = e.term
  | _ => True

/-- The step accepts no request with a conflict at its first entry. -/
def NoFirstConflict (c : Cluster n Command Bytes) : Event n Command → Prop
  | .deliver i => ∀ m ∈ c.net[i]?, NoFirstConflictOn c m
  | _ => True

/-- The step forgets no vote, counts no vote twice, and accepts no request with
    a conflict at its first entry. -/
def SafeStep (c : Cluster n Command Bytes) (e : Event n Command) : Prop :=
  SafeVotes c e ∧ NoFirstConflict c e

instance (log : List (LogEntry Command)) (args : AppendEntriesArgs Command) :
    Decidable (PrevMatches log args) :=
  inferInstanceAs (Decidable (_ ∨ _))

instance (c : Cluster n Command Bytes) : ∀ m, Decidable (NoFirstConflictOn c m)
  | .appendEntries _ dst _ args =>
      inferInstanceAs (Decidable ((c.servers dst).currentTerm ≤ args.term →
        PrevMatches (c.servers dst).log args →
        ∀ x ∈ (c.servers dst).log[(args.prevLogIndex + 1).toNat]?,
          ∀ e ∈ args.entries.head?, x.term = e.term))
  | .requestVote .. | .requestVoteReply .. | .appendEntriesReply .. => isTrue trivial

instance (c : Cluster n Command Bytes) : ∀ e, Decidable (NoFirstConflict c e)
  | .deliver i => inferInstanceAs (Decidable (∀ m ∈ c.net[i]?, NoFirstConflictOn c m))
  | .start .. | .loop .. | .startRequestVote .. | .runAppendEntries .. | .drop .. |
    .restart .. => isTrue trivial

instance (c : Cluster n Command Bytes) (e : Event n Command) : Decidable (SafeStep c e) :=
  inferInstanceAs (Decidable (SafeVotes c e ∧ NoFirstConflict c e))

/-! ## What the ledger has to say about servers and messages -/

/-- Index `i` lies under a chosen mark of a term up to `t`, and whatever `holds`
    speaks of is the chosen entry. -/
def Settled (a : Book n Command) (t : Int) (i : Nat) (holds : LogEntry Command → Prop) :
    Prop :=
  ∃ T j, T ≤ t ∧ Chosen LogEntry.term a T j ∧ i ≤ j ∧
    ∀ x, holds x → (a.tlog T)[i]? = some x

/-- A leader's acknowledgements, and what a server has committed. -/
structure ServerBacked (a : Book n Command) (s : Fin n) (rf : Raft n Command Bytes) :
    Prop where
  own : rf.state = .leader → a.ack s rf.currentTerm rf.log.length
  matched : rf.state = .leader → ∀ v, v ≠ s → rf.matchIndex v = -1 ∨
    ∃ m : Nat, a.ack v rf.currentTerm m ∧ (m : Int) = rf.matchIndex v + 1
  committed : ∀ i : Nat, (i : Int) ≤ rf.committedIndex →
    Settled a rf.currentTerm i fun x => rf.log[i]? = some x

/-- What a message in flight stands for: the candidate's last entry while its
    term has no leader, what the leader has committed, an acknowledgement. -/
def MsgBacked (a : Book n Command) : Msg n Command → Prop
  | .requestVote caller _ _ _ args =>
      args.term ≤ a.clock caller ∧ (a.leader args.term = none → a.clock caller = args.term →
        args.lastLogIndex = ((a.log caller).length : Int) - 1 ∧
        args.lastLogTerm = lastLogTerm (a.log caller))
  | .requestVoteReply .. => True
  | .appendEntries _ _ _ args => ∀ i : Nat, (i : Int) ≤ args.leaderCommit →
      Settled a args.term i fun _ => False
  | .appendEntriesReply _ follower _ args reply => reply.success = true →
      ∃ m : Nat, a.ack follower args.term m ∧
        (m : Int) = args.prevLogIndex + args.entries.length + 1

/-- A message on an `applyCh` carries a chosen entry. -/
def Sourced (a : Book n Command) (msg : ApplyMsg Command) : Prop :=
  ∃ T j i e, Chosen LogEntry.term a T j ∧ i ≤ j ∧ (a.tlog T)[i]? = some e ∧
    msg = ⟨true, e.command, (i : Nat)⟩

/-- **WHAT THE LEDGER BACKS** in a cluster. -/
structure Backed (c : Cluster n Command Bytes) (a : Book n Command) : Prop where
  grants : ∀ v (x : Fin n) T, ⟨v, (x : Nat), T⟩ ∈ c.granted → ∃ L, a.ballot v x T L
  servers : ∀ s, ServerBacked a s (c.servers s)
  net : ∀ m ∈ c.net, MsgBacked a m
  applied : ∀ p ∈ c.applied, Sourced a p.2

variable {c c' : Cluster n Command Bytes} {a b : Book n Command} {s : Fin n}
  {rf rf' : Raft n Command Bytes}

/-! ## The ledger only adds -/

/-- What is settled stays settled, when the ledger grows. -/
theorem Settled.mono {t t' : Int} {i : Nat} {p q : LogEntry Command → Prop}
    (h : Settled a t i p) (hext : Extends LogEntry.term a b) (ht : t ≤ t')
    (hpq : ∀ x, q x → p x) : Settled b t' i q := by
  obtain ⟨T, j, hT, hchosen, hij, hentry⟩ := h
  exact ⟨T, j, le_trans hT ht, hchosen.mono hext, hij,
    fun x hx => getElem?_of_sub (hext.tlog T) (hentry x (hpq x hx))⟩

theorem Sourced.mono {msg : ApplyMsg Command} (h : Sourced a msg)
    (hext : Extends LogEntry.term a b) : Sourced b msg := by
  obtain ⟨T, j, i, e, hchosen, hij, he, hmsg⟩ := h
  exact ⟨T, j, i, e, hchosen.mono hext, hij, getElem?_of_sub (hext.tlog T) he, hmsg⟩

theorem ServerBacked.mono (h : ServerBacked a s rf) (hext : Extends LogEntry.term a b) :
    ServerBacked b s rf := by
  refine ⟨fun hst => hext.ack _ _ _ (h.own hst), ?_, ?_⟩
  · intro hst v hv
    rcases h.matched hst v hv with hnone | ⟨m, hm, heq⟩
    · exact .inl hnone
    · exact .inr ⟨m, hext.ack _ _ _ hm, heq⟩
  · intro i hi
    exact (h.committed i hi).mono hext (le_refl _) fun _ hx => hx

/-- A candidate's log changes only once its term has a leader. -/
theorem MsgBacked.mono {m : Msg n Command} (h : MsgBacked a m)
    (hext : Extends LogEntry.term a b) (hclock : ∀ v, a.clock v ≤ b.clock v)
    (hlog : ∀ v, b.log v = a.log v ∨ b.leader (b.clock v) ≠ none) : MsgBacked b m := by
  cases m with
  | requestVote caller dst inc round args =>
      obtain ⟨hle, hinfo⟩ := h
      refine ⟨le_trans hle (hclock caller), fun hnone hterm => ?_⟩
      have hclock' : a.clock caller = args.term :=
        le_antisymm (hterm ▸ hclock caller) hle
      have hnone' : a.leader args.term = none := by
        by_contra hled
        exact hext.led hled hnone
      rcases hlog caller with hsame | hled
      · rw [hsame]
        exact hinfo hnone' hclock'
      · rw [hterm] at hled
        exact absurd hnone hled
  | requestVoteReply caller voter inc round args reply => trivial
  | appendEntries caller dst inc args =>
      intro i hi
      exact (h i hi).mono hext (le_refl _) fun _ hx => hx
  | appendEntriesReply caller follower inc args reply =>
      intro hsuc
      obtain ⟨m, hm, heq⟩ := h hsuc
      exact ⟨m, hext.ack _ _ _ hm, heq⟩

/-- One server moves, the ledger grows. -/
theorem Backed.update (h : Backed c a) (hext : Extends LogEntry.term a b)
    (hclock : ∀ v, a.clock v ≤ b.clock v)
    (hlog : ∀ v, b.log v = a.log v ∨ b.leader (b.clock v) ≠ none)
    (hservers : c'.servers = Function.update c.servers s rf) (hrf : ServerBacked b s rf)
    (hgrants : ∀ v (x : Fin n) T, ⟨v, (x : Nat), T⟩ ∈ c'.granted →
      ⟨v, (x : Nat), T⟩ ∈ c.granted ∨ ∃ L, b.ballot v x T L)
    (hnet : ∀ m ∈ c'.net, m ∈ c.net ∨ MsgBacked b m)
    (happlied : ∀ p ∈ c'.applied, p ∈ c.applied ∨ Sourced b p.2) : Backed c' b := by
  refine ⟨?_, ?_, ?_, ?_⟩
  · intro v x T hx
    rcases hgrants v x T hx with hold | hnew
    · obtain ⟨L, hL⟩ := h.grants v x T hold
      exact ⟨L, hext.ballot v x T L hL⟩
    · exact hnew
  · rw [hservers, Function.forall_update_iff c.servers (p := fun v rf => ServerBacked b v rf)]
    exact ⟨hrf, fun v _ => (h.servers v).mono hext⟩
  · intro m hm
    rcases hnet m hm with hold | hnew
    · exact (h.net m hold).mono hext hclock hlog
    · exact hnew
  · intro p hp
    rcases happlied p hp with hold | hnew
    · exact (h.applied p hold).mono hext
    · exact hnew

/-- The ledger stays: the moving server keeps its core, or falls back. -/
theorem Backed.still (h : Backed c a)
    (hservers : c'.servers = Function.update c.servers s rf) (hrf : ServerBacked a s rf)
    (hgrants : c'.granted = c.granted) (hnet : ∀ m ∈ c'.net, m ∈ c.net ∨ MsgBacked a m)
    (happlied : ∀ p ∈ c'.applied, p ∈ c.applied ∨ Sourced a p.2) : Backed c' a := by
  refine h.update (.refl a) (fun _ => le_refl _)
    (fun _ => .inl rfl) hservers hrf ?_ hnet happlied
  rw [hgrants]
  exact fun _ _ _ hx => .inl hx

/-- A server whose log and commit index stay and that leads only if it led. -/
theorem ServerBacked.calm (h : ServerBacked a s rf)
    (hterm : rf.currentTerm ≤ rf'.currentTerm) (hlog : rf'.log = rf.log)
    (hcommit : rf'.committedIndex = rf.committedIndex)
    (hmatch : rf'.matchIndex = rf.matchIndex)
    (hrole : rf'.state = .follower ∨ rf'.state = .candidate ∨
      (rf'.currentTerm = rf.currentTerm ∧ rf'.state = rf.state)) :
    ServerBacked a s rf' := by
  have hlead : rf'.state = .leader →
      rf.state = .leader ∧ rf'.currentTerm = rf.currentTerm := by
    intro hst
    rcases hrole with hf | hcand | ⟨hsame, hstate⟩
    · exact nomatch hf.symm.trans hst
    · exact nomatch hcand.symm.trans hst
    · exact ⟨hstate.symm.trans hst, hsame⟩
  refine ⟨?_, ?_, ?_⟩
  · intro hst
    obtain ⟨hst', hsame⟩ := hlead hst
    rw [hsame, hlog]
    exact h.own hst'
  · intro hst
    obtain ⟨hst', hsame⟩ := hlead hst
    rw [hsame, hmatch]
    exact h.matched hst'
  · intro i hi
    rw [hcommit] at hi
    rw [hlog]
    exact (h.committed i hi).mono (.refl a) hterm fun _ hx => hx

/-! ## Servers that take part in replication -/

/-- Under the log of a led term, a settled index has its chosen entry. -/
theorem Settled.entry {t : Int} {i : Nat} {p : LogEntry Command → Prop}
    (h : Settled a t i p) (hc : Complete LogEntry.term a) (hled : a.leader t ≠ none) :
    ∃ x, (a.tlog t)[i]? = some x ∧ Settled a t i fun y => y = x := by
  obtain ⟨T, j, hT, hchosen, hij, -⟩ := h
  obtain ⟨x, hxT, hxt⟩ := chosen_getElem? hc hchosen hT hled hij
  exact ⟨x, hxt, T, j, hT, hchosen, hij, fun y hy => hy ▸ hxT⟩

/-- What a server applies up to its commit index is chosen. -/
theorem ServerBacked.sourced (h : ServerBacked a s rf) {i : Nat} {e : LogEntry Command}
    (he : rf.log[i]? = some e) (hi : (i : Int) ≤ rf.committedIndex) :
    Sourced a ⟨true, e.command, i⟩ := by
  obtain ⟨T, j, -, hchosen, hij, hentry⟩ := h.committed i hi
  exact ⟨T, j, i, e, hchosen, hij, hentry e he, rfl⟩

/-- A leader that appends a command of a client. -/
theorem ServerBacked.append (h : ServerBacked a s rf) (hfol : ServerFollows a s rf)
    (hc : Complete LogEntry.term a) (hlead : rf.state = .leader) (command : Command)
    (hlog : rf'.log = rf.log ++ [⟨command, rf.currentTerm⟩])
    (hterm : rf'.currentTerm = rf.currentTerm)
    (hcommit : rf'.committedIndex = rf.committedIndex)
    (hmatch : rf'.matchIndex = rf.matchIndex) :
    ServerBacked (a.append s ⟨command, rf.currentTerm⟩) s rf' := by
  have hleader := hfol.leads hlead
  have hown : a.tlog rf.currentTerm = rf.log := by
    rw [← hc.matching.own s _ hleader hfol.clock, hfol.log]
  have hext : Extends LogEntry.term a (a.append s ⟨command, rf.currentTerm⟩) := by
    refine extends_append hc.matching ?_ hfol.clock.symm
    rw [hfol.clock]
    exact hleader
  refine ⟨?_, ?_, ?_⟩
  · intro _
    right
    refine ⟨rfl, ?_, ?_⟩
    · rw [hterm, hfol.clock]
    · rw [hlog, hfol.log, List.length_append, List.length_singleton]
  · intro _ v hv
    rw [hmatch, hterm]
    rcases h.matched hlead v hv with hnone | ⟨m, hm, heq⟩
    · exact .inl hnone
    · exact .inr ⟨m, hext.ack _ _ _ hm, heq⟩
  · intro i hi
    rw [hcommit] at hi
    -- what is settled lies inside the leader's log already
    obtain ⟨x, hx, -⟩ := (h.committed i hi).entry hc (by rw [hleader]; exact Option.some_ne_none s)
    rw [hown] at hx
    have hlt : i < rf.log.length := (List.getElem?_eq_some_iff.mp hx).1
    rw [hterm, hlog]
    refine (h.committed i hi).mono hext (le_refl _) fun y hy => ?_
    rw [List.getElem?_append_left hlt] at hy
    exact hy

/-- A follower that merged the prefix `M` of the log of term `t`. -/
theorem ServerBacked.accept (h : ServerBacked a s rf) (hc : Complete LogEntry.term a)
    {t : Int} {M : List (LogEntry Command)} {k : Nat} {args : AppendEntriesArgs Command}
    (hb : Extends LogEntry.term a b) (hM : M <+: a.tlog t) (hled : a.leader t ≠ none)
    (hargs : args.term = t) (hcut : Cut M k args) (hmsg : ∀ i : Nat,
      (i : Int) ≤ args.leaderCommit → Settled a args.term i fun _ => False)
    (hterm : rf'.currentTerm = t) (hle : rf.currentTerm ≤ t)
    (hlog : rf'.log = merge rf.log M) (hstate : rf'.state ≠ .leader)
    (hcommit : rf'.committedIndex = followCommit rf.committedIndex rf'.log.length args) :
    ServerBacked b s rf' := by
  refine ⟨fun hst => absurd hst hstate, fun hst => absurd hst hstate, ?_⟩
  intro i hi
  rw [hcommit] at hi
  -- an index settled by term `t`, where the new log is on that term's branch
  have hbranch : ∀ p, Settled a t i p →
      (∀ y, rf'.log[i]? = some y → (a.tlog t)[i]? = some y) →
      Settled b rf'.currentTerm i fun x => rf'.log[i]? = some x := by
    intro p hset hon
    obtain ⟨x, hx, hset'⟩ := hset.entry hc hled
    refine hset'.mono hb (le_of_eq hterm.symm) fun y hy => ?_
    exact Option.some.inj ((hon y hy).symm.trans hx)
  rcases le_of_le_followCommit hi with hold | ⟨hleader, hcover⟩
  · have hset := h.committed i hold
    by_cases hsub : M <+: rf.log
    · have hsame : rf'.log = rf.log := by
        rw [hlog, merge, if_pos hsub]
      rw [hsame]
      exact hset.mono hb (hterm ▸ hle) fun _ hx => hx
    · have hreplaced : rf'.log = M := by
        rw [hlog, merge, if_neg hsub]
      refine hbranch _ (hset.mono (.refl a) hle fun _ hx => hx) fun y hy => ?_
      rw [hreplaced] at hy
      exact getElem?_of_sub hM hy
  · refine hbranch _ (hargs ▸ hmsg i hleader) fun y hy => ?_
    have hlen : i < M.length := by
      have h1 := hcut.prevIndex
      have h2 := hcut.inside
      rw [hcut.entries, List.length_drop] at hcover
      omega
    have hget := List.getElem?_eq_getElem hlen
    have hin := getElem?_of_sub (sub_merge rf.log M) hget
    rw [← hlog, hy] at hin
    rw [hin]
    exact getElem?_of_sub hM hget

/-- **A LEADER COMMITS**: the commit rule makes its new commit index a chosen
    mark of the leader's term. -/
theorem ServerBacked.commit (h : ServerBacked a s rf) (hfol : ServerFollows a s rf)
    (hc : Complete LogEntry.term a) (hme : rf.me = s) (hlead : rf.state = .leader)
    {j : Fin n} {m : Nat} (hack : a.ack j rf.currentTerm m) {next : Fin n → Int}
    {commit : Int} (last : Int) (hcommit : leaderCommitIndex { rf with
        matchIndex := Function.update rf.matchIndex j ((m : Int) - 1)
        nextIndex := next } = some commit) :
    ServerBacked a s { rf with
        matchIndex := Function.update rf.matchIndex j ((m : Int) - 1)
        nextIndex := next, committedIndex := commit, lastApplied := last } := by
  have hleader := hfol.leads hlead
  have hown : a.tlog rf.currentTerm = rf.log := by
    rw [← hc.matching.own s _ hleader hfol.clock, hfol.log]
  -- `matchIndex` stays an acknowledged length: `j`'s is the one just received
  have hmatched : ∀ v, v ≠ s → Function.update rf.matchIndex j ((m : Int) - 1) v = -1 ∨
      ∃ m' : Nat, a.ack v rf.currentTerm m' ∧
        (m' : Int) = Function.update rf.matchIndex j ((m : Int) - 1) v + 1 := by
    intro v hv
    by_cases hvj : v = j
    · subst hvj
      rw [Function.update_self]
      exact .inr ⟨m, hack, by omega⟩
    · rw [Function.update_of_ne hvj]
      exact h.matched hlead v hv
  refine ⟨fun _ => h.own hlead, fun _ => hmatched, ?_⟩
  intro i hi
  rcases leaderCommitIndex_cases hcommit with hsame | ⟨N, e, hN, he, hterm, hhalf⟩
  · exact h.committed i (hsame ▸ hi)
  · have hN' : commit = N := hN
    have hlt : N < rf.log.length := (List.getElem?_eq_some_iff.mp he).1
    -- the half of the servers that hold index `N` makes it chosen in this term
    have hchosen : Chosen LogEntry.term a rf.currentTerm N := by
      refine ⟨⟨e, by rw [hown]; exact he, hterm⟩, _, hhalf, fun v hv => ?_⟩
      by_cases hvs : v = s
      · subst hvs
        exact ⟨_, hlt, h.own hlead⟩
      · rcases (Finset.mem_filter.mp hv).2 with hvme | hle
        · exact absurd (hvme.trans hme) hvs
        · rcases hmatched v hvs with hnone | ⟨m', hm', heq⟩
          · have hle' : (N : Int) ≤ Function.update rf.matchIndex j ((m : Int) - 1) v := hle
            omega
          · have hle' : (N : Int) ≤ Function.update rf.matchIndex j ((m : Int) - 1) v := hle
            exact ⟨m', by omega, hm'⟩
    have hi' : (i : Int) ≤ commit := hi
    refine ⟨rf.currentTerm, N, le_refl _, hchosen, by omega, fun x hx => ?_⟩
    rw [hown]
    exact hx

/-! ## Steps -/

/-- **THE INVARIANT**: the cluster follows a complete ledger that backs it. -/
structure Safe (led : Fin n → Int → Prop) (c : Cluster n Command Bytes)
    (a : Book n Command) : Prop where
  follows : Follows led c a
  complete : Complete LogEntry.term a
  backed : Backed c a

variable {led : Fin n → Int → Prop}

theorem Safe.clock_le (h : Safe led c a) {t : Int} (ht : (c.servers s).currentTerm ≤ t) :
    a.clock s ≤ t := by
  rw [(h.follows.servers s).clock]
  exact ht

/-- `Start` on a leader. -/
theorem Safe.append (h : Safe led c a) (command : Command)
    (hlead : (c.servers s).state = .leader) :
    ∃ b, Safe led (setServer c s (persist gob { c.servers s with
      log := (c.servers s).log ++ [⟨command, (c.servers s).currentTerm⟩] })) b := by
  have hfol := h.follows.servers s
  have hleader : a.leader (a.clock s) = some s := by
    rw [hfol.clock]
    exact hfol.leads hlead
  refine ⟨_, h.follows.append h.complete.matching command hlead,
    h.complete.append hleader hfol.clock.symm, ?_⟩
  refine h.backed.update (extends_append h.complete.matching hleader hfol.clock.symm)
    (fun _ => le_refl _) ?_ rfl
    ((h.backed.servers s).append hfol h.complete hlead command rfl rfl rfl rfl)
    (fun _ _ _ hx => .inl hx) (fun _ hm => .inl hm) fun _ hp => .inl hp
  intro v
  by_cases hv : v = s
  · right
    subst hv
    exact Option.ne_none_iff_exists'.mpr ⟨v, hleader⟩
  · exact .inl (log_append_of_ne hv)

/-- The `heartBeat` loop stands for election and votes for itself. -/
theorem Safe.stand (h : Safe led c a) :
    ∃ b, Safe led { setServer c s { convertToCandidate gob (c.servers s) with loopAt := .top }
      with granted := ⟨s, (s : Nat), (c.servers s).currentTerm + 1⟩ :: c.granted } b := by
  have hadv : a.clock s ≤ (c.servers s).currentTerm + 1 := h.clock_le (by omega)
  have hext : Extends LogEntry.term a
      ((a.advance s ((c.servers s).currentTerm + 1)).vote s s) :=
    (extends_advance s _).trans (extends_vote s s)
  refine ⟨_, (h.follows.stand h.complete.matching _).vote s s,
    (h.complete.advance hadv).vote (le_refl _) (fun _ _ => .refl _ _), ?_⟩
  refine h.backed.update hext (clock_le_advance hadv) (fun _ => .inl rfl) rfl ?_ ?_
    (fun _ hm => .inl hm) fun _ hp => .inl hp
  · refine ServerBacked.mono ((h.backed.servers s).calm ?_ rfl rfl rfl (.inr (.inl rfl))) hext
    show (c.servers s).currentTerm ≤ (c.servers s).currentTerm + 1
    omega
  · intro v x T hx
    rcases List.mem_cons.mp hx with heq | hx
    · obtain ⟨rfl, hxs, rfl⟩ := Grant.mk.inj heq
      obtain rfl : x = v := Fin.ext (by omega)
      exact .inr ⟨_, .inr ⟨rfl, rfl, clock_advance_self.symm, rfl⟩⟩
    · exact .inl hx

/-- `convertToLeader`: the voters' ballots elect the leader of a free term. -/
theorem Safe.win {led' : Fin n → Int → Prop} (h : Safe led c a)
    (hfree : a.leader (c.servers s).currentTerm = none)
    (hmaj : Majority (voters c s (c.servers s).currentTerm))
    (hservers : c'.servers = Function.update c.servers s rf)
    (hterm : rf.currentTerm = (c.servers s).currentTerm)
    (hlog : rf.log = (c.servers s).log) (hstate : rf.state = .leader)
    (hcommit : rf.committedIndex = (c.servers s).committedIndex)
    (hmatch : ∀ v, rf.matchIndex v = -1) (hgrants : c'.granted = c.granted)
    (happlied : c'.applied = c.applied) (hnet : ∀ m ∈ c'.net, m ∈ c.net)
    (hled : ∀ v T, led v T → led' v T) (hnew : led' s (c.servers s).currentTerm) :
    ∃ b, Safe led' c' b := by
  have hclock := (h.follows.servers s).clock
  have hfree' : a.leader (a.clock s) = none := by
    rw [hclock]
    exact hfree
  have hext : Extends LogEntry.term a (a.lead s (voters c s (c.servers s).currentTerm)) :=
    extends_lead h.complete.matching hfree'
  refine ⟨a.lead s (voters c s (c.servers s).currentTerm),
    h.follows.lead h.complete.matching _ hfree hservers hterm hlog hstate hnet hled hnew,
    h.complete.lead hfree' hmaj ?_, ?_⟩
  · intro v hv
    rw [hclock]
    exact h.backed.grants v s _ (Finset.mem_filter.mp hv).2
  · refine h.backed.update hext (fun _ => le_refl _) (fun _ => .inl rfl) hservers ⟨?_, ?_, ?_⟩ ?_
      (fun m hm => .inl (hnet m hm)) ?_
    · intro _
      rw [hterm, hlog]
      exact .inr ⟨rfl, hclock.symm, by rw [(h.follows.servers s).log]⟩
    · exact fun _ v _ => .inl (hmatch v)
    · intro i hi
      rw [hcommit] at hi
      rw [hterm, hlog]
      exact ((h.backed.servers s).committed i hi).mono hext (le_refl _) fun _ hx => hx
    · rw [hgrants]
      exact fun _ _ _ hx => .inl hx
    · rw [happlied]
      exact fun _ hp => .inl hp

/-- `RequestVote`: the voter adopts the term, and a grant is a ballot for a log
    at least as up to date as its own. -/
theorem Safe.vote (h : Safe led c a) (horder : TermOrder c) (htally : Tally c) {i : Nat}
    {caller dst : Fin n} {inc round : Nat} {args : RequestVoteArgs}
    {reply : RequestVoteReply}
    (hmsg : c.net[i]? = some (.requestVote caller dst inc round args))
    (hout : VoteOutcome gob (c.servers dst) args rf reply)
    (hservers : c'.servers = Function.update c.servers dst rf)
    (hgrants : c'.granted = if reply.voteGranted
      then ⟨dst, args.candidateID, reply.term⟩ :: c.granted else c.granted)
    (hnet : c'.net = c.net.eraseIdx i ++ [.requestVoteReply caller dst inc round args reply])
    (happlied : c'.applied = c.applied) : ∃ b, Safe led c' b := by
  have hmem := List.mem_of_getElem? hmsg
  obtain ⟨hid, hne⟩ := htally.requests caller dst inc round args hmem
  have hle : (c.servers dst).currentTerm ≤ rf.currentTerm := by
    rw [hout.currentTerm]
    exact le_max_left ..
  have hrole := role_of_adopt hout.currentTerm hout.state
  have hadv := h.complete.advance (h.clock_le hle)
  have hfol : Follows led c' (a.advance dst rf.currentTerm) := by
    refine h.follows.adopt hservers hout.log hrole ?_
    rw [hnet]
    exact fun _ _ _ _ hm => mem_of_mem_answer (by rintro _ _ _ _ ⟨⟩) hm
  -- apart from the term and the vote nothing of the voter changes
  have hcalm : ServerBacked a dst rf := (h.backed.servers dst).calm hle hout.log
    hout.committedIndex hout.matchIndex (hrole.imp_right .inr)
  have hnet' : ∀ (b : Book n Command), ∀ m ∈ c'.net, m ∈ c.net ∨ MsgBacked b m := by
    rw [hnet]
    intro b m hm
    rcases List.mem_append.mp hm with hm | hm
    · exact .inl (mem_of_mem_rest hm)
    · rw [List.mem_singleton.mp hm]
      exact .inr trivial
  have happlied' : ∀ (b : Book n Command), ∀ p ∈ c'.applied, p ∈ c.applied ∨ Sourced b p.2 := by
    rw [happlied]
    exact fun _ _ hp => .inl hp
  by_cases hgr : reply.voteGranted = true
  · obtain ⟨hcur, hnewer, -, -⟩ := hout.grant hgr
    have hterm : rf.currentTerm = args.term := by
      rw [hout.currentTerm]
      omega
    obtain ⟨hreach, hinfo⟩ := h.backed.net _ hmem
    have hclock : (a.advance dst rf.currentTerm).clock caller = a.clock caller :=
      clock_advance_of_ne hne
    refine ⟨_, hfol.vote dst caller, hadv.vote ?_ ?_, ?_⟩
    · rw [clock_advance_self, hclock, hterm]
      exact hreach
    · -- while the term has no leader the candidate still has the log it sent
      rw [clock_advance_self, hclock, hterm]
      intro hnone hcaller
      obtain ⟨hindex, hlast⟩ := hinfo hnone hcaller
      show UpToDate LogEntry.term (a.log caller) (a.log dst)
      rw [(h.follows.servers dst).log]
      exact upToDate_of_newer (horder.servers dst).log hnewer hindex hlast
    · have hext : Extends LogEntry.term a ((a.advance dst rf.currentTerm).vote dst caller) :=
        (extends_advance dst _).trans (extends_vote dst caller)
      refine h.backed.update hext (clock_le_advance (h.clock_le hle)) (fun _ => .inl rfl) hservers
        (hcalm.mono hext) ?_ (hnet' _) (happlied' _)
      rw [hgrants, if_pos hgr, hid]
      intro v x T hx
      rcases List.mem_cons.mp hx with heq | hx
      · obtain ⟨rfl, hxc, rfl⟩ := Grant.mk.inj heq
        obtain rfl : x = caller := Fin.ext (by omega)
        refine .inr ⟨_, .inr ⟨rfl, rfl, ?_, rfl⟩⟩
        rw [clock_advance_self, hout.replyTerm]
      · exact .inl hx
  · have hext : Extends LogEntry.term a (a.advance dst rf.currentTerm) := extends_advance dst _
    refine ⟨_, hfol, hadv, h.backed.update hext (clock_le_advance (h.clock_le hle))
      (fun _ => .inl rfl) hservers (hcalm.mono hext) ?_ (hnet' _) (happlied' _)⟩
    rw [hgrants, if_neg hgr]
    exact fun _ _ _ hx => .inl hx

/-- The condition rules out the first-entry conflict. -/
theorem not_conflictAt_of_ok {i k : Nat} {caller dst : Fin n} {inc : Nat}
    {args : AppendEntriesArgs Command} {M : List (LogEntry Command)}
    (hok : NoFirstConflict c (.deliver i))
    (hmsg : c.net[i]? = some (.appendEntries caller dst inc args))
    (hterm : (c.servers dst).currentTerm ≤ args.term) (hcut : Cut M k args)
    (hk : k ≤ (c.servers dst).log.length)
    (htake : (c.servers dst).log.take k = M.take k) :
    ¬ ConflictAt (c.servers dst).log k args.entries 0 := by
  rintro ⟨x, e, hx, he, hdiff⟩
  have hprev := hcut.prevIndex
  have hpos : (args.prevLogIndex + 1).toNat = k := by omega
  refine hdiff (hok _ hmsg hterm ?_ x ?_ e ?_)
  · cases k with
    | zero => exact .inl (by omega)
    | succ m =>
        refine .inr ⟨by omega, ?_⟩
        have hm : args.prevLogIndex.toNat = m := by omega
        rw [hm, ← hcut.prevTerm m rfl]
        congr 1
        have hlt : m < m + 1 := Nat.lt_succ_self m
        rw [← List.getElem?_take_of_lt hlt, htake, List.getElem?_take_of_lt hlt]
  · rw [hpos]
    exact hx
  · rw [List.head?_eq_getElem?]
    exact he

/-- `AppendEntries`: a refusal adopts the term, a success also merges the prefix
    the request was cut from and acknowledges it. -/
theorem Safe.accept (h : Safe led c a) {i : Nat} {caller dst : Fin n} {inc : Nat}
    {args : AppendEntriesArgs Command} {reply : AppendEntriesReply}
    {msgs : List (ApplyMsg Command)}
    (hmsg : c.net[i]? = some (.appendEntries caller dst inc args))
    (hok : NoFirstConflict c (.deliver i))
    (hout : AppendOutcome gob (c.servers dst) args rf reply msgs)
    (hservers : c'.servers = Function.update c.servers dst rf)
    (hgrants : c'.granted = c.granted)
    (hnet : c'.net = c.net.eraseIdx i ++ [.appendEntriesReply caller dst inc args reply])
    (happlied : c'.applied = msgs.map (fun m => (dst, m)) ++ c.applied) :
    ∃ b, Safe led c' b := by
  have hmem := List.mem_of_getElem? hmsg
  have hle : (c.servers dst).currentTerm ≤ rf.currentTerm := by
    rw [hout.currentTerm]
    exact le_max_left ..
  have hrole := role_of_adopt hout.currentTerm hout.state
  have hrest : ∀ caller' dst' inc' args',
      Msg.appendEntries caller' dst' inc' args' ∈ c'.net →
      Msg.appendEntries caller' dst' inc' args' ∈ c.net := by
    rw [hnet]
    exact fun _ _ _ _ hin => mem_of_mem_answer (by rintro _ _ _ _ ⟨⟩) hin
  have hgrants' : ∀ (b : Book n Command) v (x : Fin n) T, ⟨v, (x : Nat), T⟩ ∈ c'.granted →
      ⟨v, (x : Nat), T⟩ ∈ c.granted ∨ ∃ L, b.ballot v x T L := by
    rw [hgrants]
    exact fun _ _ _ _ hx => .inl hx
  have hadv := h.complete.advance (h.clock_le hle)
  cases hsuc : reply.success with
  | false =>
      obtain ⟨hlog, hcommit, hmsgs⟩ := hout.refused hsuc
      have hext : Extends LogEntry.term a (a.advance dst rf.currentTerm) :=
        extends_advance dst _
      refine ⟨_, h.follows.adopt hservers hlog hrole hrest, hadv, h.backed.update hext
        (clock_le_advance (h.clock_le hle)) (fun _ => .inl rfl) hservers
        (((h.backed.servers dst).calm hle hlog hcommit hout.matchIndex
          (hrole.imp_right .inr)).mono hext) (hgrants' _) ?_ ?_⟩
      · rw [hnet]
        intro m hm
        rcases List.mem_append.mp hm with hm | hm
        · exact .inl (mem_of_mem_rest hm)
        · rw [List.mem_singleton.mp hm]
          exact .inr fun hs => absurd (hsuc.symm.trans hs) Bool.false_ne_true
      · rw [happlied, hmsgs]
        exact fun _ hp => .inl hp
  | true =>
      obtain ⟨hterm, hcur, hleader, hne, M, k, hM, hcut, hk, htake, hlog⟩ :=
        h.follows.accepted h.complete.matching hmem hout hsuc
      -- without a first-entry conflict nothing is cut off that was acknowledged
      have hmerge : rf.log = merge (c.servers dst).log M := by
        rcases hlog with hmerge | ⟨hconf, -⟩
        · exact hmerge
        · exact absurd hconf (not_conflictAt_of_ok hok hmsg hcur hcut hk htake)
      obtain ⟨-, hcommit, hmsgs⟩ := hout.accepted hsuc
      have hled : a.leader args.term ≠ none := by
        rw [hleader]
        exact Option.some_ne_none caller
      have hstate : rf.state ≠ .leader := by
        intro hst
        rcases hrole with hf | ⟨hsame, hstate⟩
        · exact nomatch hf.symm.trans hst
        · -- a leader of the request's own term would be the sender
          have hself := (h.follows.servers dst).leads (hstate.symm.trans hst)
          rw [← hsame, hterm, hleader] at hself
          exact hne (Option.some.inj hself)
      have hext : Extends LogEntry.term a ((a.advance dst rf.currentTerm).accept dst M) :=
        (extends_advance dst _).trans (extends_accept dst M)
      have hbacked : ServerBacked ((a.advance dst rf.currentTerm).accept dst M) dst rf :=
        (h.backed.servers dst).accept h.complete hext hM hled rfl hcut (h.backed.net _ hmem)
          hterm hcur hmerge hstate hcommit
      have hclock : (a.advance dst rf.currentTerm).clock dst = args.term := by
        rw [clock_advance_self, hterm]
      have hcomplete : Complete LogEntry.term ((a.advance dst rf.currentTerm).accept dst M) := by
        refine hadv.accept (s := caller) ?_ hne ?_
        · rw [hclock]
          exact hleader
        · rw [hclock]
          exact hM
      refine ⟨_, h.follows.merged hmerge hrole hservers hrest, hcomplete, h.backed.update hext
        (clock_le_advance (h.clock_le hle)) ?_ hservers hbacked (hgrants' _) ?_ ?_⟩
      · intro v
        by_cases hv : v = dst
        · right
          subst hv
          show a.leader ((a.advance v rf.currentTerm).clock v) ≠ none
          rw [hclock]
          exact hled
        · exact .inl (log_accept_of_ne hv)
      · rw [hnet]
        intro m hm
        rcases List.mem_append.mp hm with hm | hm
        · exact .inl (mem_of_mem_rest hm)
        · rw [List.mem_singleton.mp hm]
          right
          intro _
          refine ⟨M.length, .inr ⟨rfl, hclock.symm, rfl⟩, ?_⟩
          have h1 := hcut.prevIndex
          have h2 := hcut.inside
          rw [hcut.entries, List.length_drop]
          omega
      · rw [happlied]
        intro p hp
        rcases List.mem_append.mp hp with hp | hp
        · right
          obtain ⟨msg, hmsg', rfl⟩ := List.mem_map.mp hp
          obtain ⟨j, e, he, hj, rfl⟩ := hmsgs msg hmsg'
          exact hbacked.sourced he hj
        · exact .inl hp

/-- A leader records a successful reply, commits and applies. -/
theorem Safe.matched (h : Safe led c a) (hme : (c.servers s).me = s) {i : Nat} {j : Fin n}
    {inc : Nat} {args : AppendEntriesArgs Command} {reply : AppendEntriesReply}
    {next : Fin n → Int} {commit last : Int} {msgs : List (ApplyMsg Command)}
    (hmsg : c.net[i]? = some (.appendEntriesReply s j inc args reply))
    (hterm : (c.servers s).currentTerm = args.term)
    (hlead : (c.servers s).state = .leader) (hsuc : reply.success = true)
    (hcommit : leaderCommitIndex { c.servers s with
        matchIndex := Function.update (c.servers s).matchIndex j
          (args.prevLogIndex + args.entries.length)
        nextIndex := next } = some commit)
    (hmsgs : ∀ msg ∈ msgs, ∃ (k : Nat) (e : LogEntry Command),
      (c.servers s).log[k]? = some e ∧ (k : Int) ≤ commit ∧ msg = ⟨true, e.command, k⟩) :
    Safe led { setServer c s { c.servers s with
        matchIndex := Function.update (c.servers s).matchIndex j
          (args.prevLogIndex + args.entries.length)
        nextIndex := next, committedIndex := commit, lastApplied := last } with
      net := c.net.eraseIdx i
      applied := msgs.map (fun m => (s, m)) ++ c.applied } a := by
  obtain ⟨m, hack, hm⟩ := h.backed.net _ (List.mem_of_getElem? hmsg) hsuc
  have heq : args.prevLogIndex + args.entries.length = (m : Int) - 1 := by omega
  rw [heq] at hcommit ⊢
  have hbacked := (h.backed.servers s).commit (h.follows.servers s) h.complete hme hlead
    (hterm ▸ hack) last hcommit
  refine ⟨h.follows.still rfl rfl rfl (.inr rfl) fun _ _ _ _ hin => .inl (mem_of_mem_rest hin),
    h.complete, h.backed.still rfl hbacked rfl (fun _ hin => .inl (mem_of_mem_rest hin)) ?_⟩
  intro p hp
  rcases List.mem_append.mp hp with hp | hp
  · right
    obtain ⟨msg, hmsg', rfl⟩ := List.mem_map.mp hp
    obtain ⟨k, e, he, hk, rfl⟩ := hmsgs msg hmsg'
    exact hbacked.sourced he hk
  · exact .inl hp

variable {cs : List (Cluster n Command Bytes)}

theorem Safe.mono {led' : Fin n → Int → Prop} (h : Safe led c a)
    (hled : ∀ s T, led s T → led' s T) : Safe led' c a :=
  ⟨h.follows.mono hled, h.complete, h.backed⟩

/-- **STEP**: every transition under the conditions keeps the invariant. -/
theorem safe_step {e : Event n Command} (h : Safe (Led (c :: cs)) c a)
    (hdur : ServersDurable gob c) (horder : TermOrder c) (htally : Tally c)
    (huniq : OneLeaderPerTerm (c' :: c :: cs)) (honce : CountsOnce c e)
    (hconf : NoFirstConflict c e) (ht : Transition gob c e c') :
    ∃ b, Safe (Led (c' :: c :: cs)) c' b := by
  -- all transitions but a win keep the set of leaders seen
  suffices hstep : (∃ b, Safe (Led (c :: cs)) c' b) ∨
      ∃ b, Safe (Led (c' :: c :: cs)) c' b by
    rcases hstep with ⟨b, hb⟩ | hb
    · exact ⟨b, hb.mono fun s T hl => hl.cons c'⟩
    · exact hb
  have hback := h.backed
  cases ht with
  | idle _ net' hnet =>
      refine .inl ⟨a, ⟨h.follows.servers, h.follows.led,
        fun _ _ _ _ hm => h.follows.requests _ _ _ _ (hnet _ hm)⟩, h.complete,
        ⟨hback.grants, hback.servers, fun m hm => hback.net m (hnet m hm), hback.applied⟩⟩
  | quiet _ s rf' net' hstill hnet =>
      exact .inl ⟨a, h.follows.still rfl hstill.currentTerm hstill.log (.inr hstill.state)
        fun _ _ _ _ hm => .inl (hnet _ hm), h.complete, hback.still rfl
        ((hback.servers s).calm (le_of_eq hstill.currentTerm.symm) hstill.log
          hstill.committedIndex hstill.matchIndex
          (.inr (.inr ⟨hstill.currentTerm, hstill.state⟩))) rfl
        (fun m hm => .inl (hnet m hm)) fun _ hp => .inl hp⟩
  | append s command hlead => exact .inl (h.append command hlead)
  | forget s e hb hwhy =>
      exact .inl ⟨a, h.follows.still rfl rfl rfl (.inl rfl) fun _ _ _ _ hm => .inl hm,
        h.complete, hback.still rfl
        ((hback.servers s).calm (le_refl _) rfl rfl rfl (.inl rfl)) rfl
        (fun m hm => .inl hm) fun _ hp => .inl hp⟩
  | stand s e => exact .inl h.stand
  | ask s round rf' hcand hstill =>
      have hnew : ∀ m ∈ (voteRequests s (c.inc s) (some (round, ⟨(c.servers s).currentTerm,
          (s : Nat), ((c.servers s).log.length : Int) - 1, lastLogTerm (c.servers s).log⟩)) :
          List (Msg n Command)), MsgBacked a m ∧
          ∀ caller dst inc args, m ≠ .appendEntries caller dst inc args := by
        intro m hm
        obtain ⟨j, -, rfl⟩ := List.mem_map.mp hm
        refine ⟨⟨le_of_eq (h.follows.servers s).clock.symm, fun _ _ => ?_⟩,
          fun _ _ _ _ heq => nomatch heq⟩
        rw [(h.follows.servers s).log]
        exact ⟨rfl, rfl⟩
      refine .inl ⟨a, h.follows.still rfl hstill.currentTerm hstill.log (.inr hstill.state) ?_,
        h.complete, hback.still rfl
        ((hback.servers s).calm (le_of_eq hstill.currentTerm.symm) hstill.log
          hstill.committedIndex hstill.matchIndex
          (.inr (.inr ⟨hstill.currentTerm, hstill.state⟩))) rfl ?_ fun _ hp => .inl hp⟩
      · intro caller dst inc args hm
        rcases List.mem_append.mp hm with hm | hm
        · exact .inl hm
        · exact absurd rfl ((hnew _ hm).2 caller dst inc args)
      · intro m hm
        rcases List.mem_append.mp hm with hm | hm
        · exact .inl hm
        · exact .inr (hnew m hm).1
  | send s j rf' args hlead hne hargs hstill =>
      obtain ⟨-, -, -, -, -, -, hterm, -, hcommit⟩ := appendRequest_spec hargs
      have hsent := sent_of_appendRequest h.complete.matching (h.follows.servers s) hlead hne
        hargs
      refine .inl ⟨a, h.follows.still rfl hstill.currentTerm hstill.log (.inr hstill.state) ?_,
        h.complete, hback.still rfl
        ((hback.servers s).calm (le_of_eq hstill.currentTerm.symm) hstill.log
          hstill.committedIndex hstill.matchIndex
          (.inr (.inr ⟨hstill.currentTerm, hstill.state⟩))) rfl ?_ fun _ hp => .inl hp⟩
      · intro caller dst inc args' hm
        rcases List.mem_append.mp hm with hm | hm
        · exact .inl hm
        · obtain ⟨rfl, rfl, -, rfl⟩ := Msg.appendEntries.inj (List.mem_singleton.mp hm)
          exact .inr hsent
      · intro m hm
        rcases List.mem_append.mp hm with hm | hm
        · exact .inl hm
        · rw [List.mem_singleton.mp hm]
          right
          intro i hi
          rw [hcommit] at hi
          rw [hterm]
          exact ((hback.servers s).committed i hi).mono (.refl a) (le_refl _)
            fun _ hx => hx.elim
  | vote i caller dst inc round args rf' reply hmsg hout =>
      exact .inl (h.vote horder htally hmsg hout rfl rfl rfl rfl)
  | stepDown i s term hterm =>
      have hadv := h.clock_le (le_of_lt hterm)
      have hext : Extends LogEntry.term a (a.advance s term) := extends_advance s term
      exact .inl ⟨_, h.follows.adopt rfl rfl (.inl rfl) fun _ _ _ _ hm => mem_of_mem_rest hm,
        h.complete.advance hadv, hback.update hext (clock_le_advance hadv) (fun _ => .inl rfl)
        rfl (ServerBacked.mono ((hback.servers s).calm (le_of_lt hterm) rfl rfl rfl (.inl rfl))
          hext) (fun _ _ _ hx => .inl hx) (fun m hm => .inl (mem_of_mem_rest hm))
        fun _ hp => .inl hp⟩
  | count i s voter inc round args reply hmsg hreply hterm hcand hgr =>
      exact .inl ⟨a, h.follows.still rfl rfl rfl (.inr rfl)
        fun _ _ _ _ hm => .inl (mem_of_mem_rest hm), h.complete, hback.still rfl
        ((hback.servers s).calm (le_refl _) rfl rfl rfl (.inr (.inr ⟨rfl, rfl⟩))) rfl
        (fun m hm => .inl (mem_of_mem_rest hm)) fun _ hp => .inl hp⟩
  | win i s voter inc round args reply ch rounds hmsg hreply hterm hcand hgr hmaj =>
      have hwin : DecidingGrant c (.deliver i) s :=
        ⟨i, voter, inc, round, args, reply, rfl, hmsg, hterm, hcand, hgr, hmaj⟩
      have hfree := h.follows.unled huniq hcand (by rw [setServer_self]; rfl)
        (by rw [setServer_self]; rfl)
      exact .inr (h.win hfree (majority_of_deciding htally honce hwin) rfl rfl rfl rfl rfl
        (fun _ => rfl) rfl rfl (fun _ hm => mem_of_mem_rest hm) (fun _ _ hl => hl.cons _)
        ⟨_, List.mem_cons_self .., by rw [setServer_self]; rfl, by rw [setServer_self]; rfl⟩)
  | accept i caller dst inc args rf' reply msgs hmsg hout =>
      exact .inl (h.accept hmsg hconf hout rfl rfl rfl rfl)
  | matched i s j inc args reply next commit last msgs hmsg hreply hterm hlead hsuc hcommit
      hmsgs =>
      exact .inl ⟨a, h.matched (hdur s).1 hmsg hterm hlead hsuc hcommit hmsgs⟩
  | restart s rf' hme hterm hvote hlog hstate hcommit =>
      refine .inl ⟨a, h.follows.still rfl hterm hlog (.inl hstate) fun _ _ _ _ hm => .inl hm,
        h.complete, hback.still rfl ⟨?_, ?_, ?_⟩ rfl (fun m hm => .inl hm) fun _ hp => .inl hp⟩
      · exact fun hst => nomatch hstate.symm.trans hst
      · exact fun hst => nomatch hstate.symm.trans hst
      · intro i hi
        rw [hcommit] at hi
        omega

/-! ## Runs -/

/-- A cluster that has just been started is safe. -/
theorem safe_initial (gob : Gob Command Bytes) :
    ∃ a, Safe (Led [initial gob]) (initial gob : Cluster n Command Bytes) a := by
  refine ⟨Ledger.empty fun _ => 0, ⟨fun s => ⟨rfl, rfl, ?_, ?_⟩, ?_, ?_⟩, complete_empty _ _,
    ⟨?_, fun s => ⟨?_, ?_, ?_⟩, ?_, ?_⟩⟩
  · intro hst
    exact nomatch hst
  · intro hst
    exact nomatch hst
  · intro T s hlead
    exact nomatch hlead
  · intro caller dst inc args hm
    exact nomatch hm
  · intro v x T hx
    exact nomatch hx
  · intro hst
    exact nomatch hst
  · intro hst
    exact nomatch hst
  · intro i hi
    have hi' : (i : Int) ≤ -1 := hi
    omega
  · intro m hm
    exact nomatch hm
  · intro p hp
    exact nomatch hp

/-- **EVERY STATE OF A SAFE RUN IS BACKED**, by induction on the run. -/
theorem run_safe (h : ClusterRun gob SafeStep (c :: cs)) :
    ∃ a, Safe (Led (c :: cs)) c a := by
  have hrun := run_of_transitions h
  generalize hl : c :: cs = l at hrun ⊢
  induction hrun generalizing c cs with
  | start =>
      obtain ⟨rfl, rfl⟩ := List.cons.inj hl
      exact safe_initial gob
  | next e hprev hok hs ih =>
      obtain ⟨rfl, rfl⟩ := List.cons.inj hl
      have hprev' : ClusterRun gob SafeStep _ := hprev.weaken fun _ _ h => h.1
      obtain ⟨a, ha⟩ := ih hprev' rfl
      have horder := run_termOrder (hprev'.weaken fun _ _ _ => trivial) _ (List.mem_cons_self ..)
      have htally := run_tally (hprev'.weaken fun _ _ h => h.1.2) _ (List.mem_cons_self ..)
      have huniq := oneLeaderPerTerm_of_safeVotes (h.weaken fun _ _ h => h.1)
      exact safe_step ha hok.2 horder htally huniq hok.1.1.2 hok.1.2
        (transition_of_step hok.2 hs)

/-- **STATE MACHINE SAFETY**: in every run whose steps forget no vote, count no
    vote twice and accept no request with a conflict at its first entry, any two
    messages ever sent on an `applyCh`, by any servers and any incarnations,
    with the same `CommandIndex` carry the same `Command`. -/
theorem state_machine_safety (gob : Gob Command Bytes) (cs : List (Cluster n Command Bytes))
    (h : ClusterRun gob SafeStep cs) (c : Cluster n Command Bytes) (hc : c ∈ cs)
    (p q : Fin n × ApplyMsg Command) (hp : p ∈ c.applied) (hq : q ∈ c.applied)
    (hindex : p.2.commandIndex = q.2.commandIndex) : p.2.command = q.2.command := by
  obtain ⟨ds, hrun, -⟩ := h.upTo hc
  obtain ⟨a, ha⟩ := run_safe hrun
  obtain ⟨T, j, i, e, hT, hij, he, hpmsg⟩ := ha.backed.applied p hp
  obtain ⟨U, k, i', f, hU, hik, hf, hqmsg⟩ := ha.backed.applied q hq
  rw [hpmsg, hqmsg] at hindex ⊢
  have hi : i = i' := by
    have hcast : (i : Int) = (i' : Int) := hindex
    omega
  subst hi
  have hagree := chosen_agree ha.complete hT hU hij hik
  rw [he, hf] at hagree
  show e.command = f.command
  rw [Option.some.inj hagree]

theorem state_machine_safety_of_replicated_command :
    ∃ (c : SmallCluster 3) (cs : List (SmallCluster 3)),
      ClusterRun (plainGob Nat) SafeStep (c :: cs) ∧
      c.applied = [(1, ⟨true, 7, 0⟩), (0, ⟨true, 7, 0⟩)] ∧
      ∀ p ∈ c.applied, ∀ q ∈ c.applied, p.2.commandIndex = q.2.commandIndex →
        p.2.command = q.2.command := by
  obtain ⟨c, cs, hrun, happlied⟩ : ∃ (c : SmallCluster 3) (cs : List (SmallCluster 3)),
      ClusterRun (plainGob Nat) SafeStep (c :: cs) ∧
      c.applied = [(1, ⟨true, 7, 0⟩), (0, ⟨true, 7, 0⟩)] :=
    run_reaches electAndReplicate (by decide +kernel)
  refine ⟨c, cs, hrun, happlied, fun p hp q hq => ?_⟩
  exact state_machine_safety (plainGob Nat) (c :: cs) hrun c (List.mem_cons_self ..) p q hp hq

/-- The two leaders of term `1` replicate different commands to server `2`, one
    after the other, and both commit index `0`. -/
def commitTwice : List (Event 3 Nat) :=
  refuseThenGrant ++
    ([.loop 1 .candidateLeader, .loop 1 .top, .loop 1 .appendRound, .start 1 7,
      .runAppendEntries 1 2, .deliver 4, .deliver 4,
      .loop 0 .candidateLeader, .loop 0 .top, .loop 0 .appendRound, .start 0 8,
      .runAppendEntries 0 2, .deliver 4, .deliver 4] : List (Event 3 Nat))

/-- **TWO COMMANDS AT ONE INDEX**: without the conditions, servers `1` and `0`
    apply the commands `7` and `8` at index `0`. -/
theorem two_commands_at_one_index :
    ∃ (c : SmallCluster 3) (cs : List (SmallCluster 3)),
      ClusterRun (plainGob Nat) Always (c :: cs) ∧
      c.applied = [(0, ⟨true, 8, 0⟩), (1, ⟨true, 7, 0⟩)] :=
  run_reaches commitTwice (by decide +kernel)

end RaftSafety
