import UniqueFreshman.RaftRecoveryProofs

/-! # The cluster — servers, RPCs in flight, crashes

    `n` servers of `RaftServer` on a network that loses, delays and reorders.
    An RPC is a request in flight, then (once the handler ran) a reply in
    flight to the goroutine that waits for it; a crash ends those goroutines,
    so a reply to an earlier incarnation of its caller is thrown away.  A handler
    that runs and a turn of a loop are each one step, although not all of them
    hold the server's lock.

    The last three fields of a cluster are TAPES: they record what has happened
    (messages sent on an `applyCh`, votes granted, grants counted) and no step
    reads them. -/

namespace RaftCluster

open GuardedRun GoSlice RaftServer RaftHandler RaftRecovery

/-- What is in flight.  `inc` is the incarnation of the caller, `round` the
    `startRequestVote` call whose goroutine waits. -/
inductive Msg (n : Nat) (Command : Type) where
  | requestVote (caller dst : Fin n) (inc round : Nat) (args : RequestVoteArgs)
  | requestVoteReply (caller voter : Fin n) (inc round : Nat) (args : RequestVoteArgs)
      (reply : RequestVoteReply)
  | appendEntries (caller dst : Fin n) (inc : Nat) (args : AppendEntriesArgs Command)
  | appendEntriesReply (caller follower : Fin n) (inc : Nat)
      (args : AppendEntriesArgs Command) (reply : AppendEntriesReply)

/-- `voter` granted its vote to `candidate` in `term`: it replied
    `VoteGranted`, or it became candidate itself. -/
structure Grant (n : Nat) where
  voter : Fin n
  candidate : Int
  term : Int
  deriving DecidableEq, Repr

/-- `candidate` counted the grant of `voter` in `term`. -/
structure Counted (n : Nat) where
  candidate : Fin n
  term : Int
  voter : Fin n
  deriving DecidableEq, Repr

structure Cluster (n : Nat) (Command Bytes : Type) where
  servers : Fin n → Raft n Command Bytes
  inc : Fin n → Nat
  net : List (Msg n Command)
  applied : List (Fin n × ApplyMsg Command)
  granted : List (Grant n)
  counted : List (Counted n)

/-- An atomic step of the cluster. -/
inductive Event (n : Nat) (Command : Type) where
  | start (s : Fin n) (command : Command)
  | loop (s : Fin n) (e : LoopEvent)
  | startRequestVote (s : Fin n)
  | runAppendEntries (s j : Fin n)
  | deliver (i : Nat)
  | drop (i : Nat)
  | restart (s : Fin n)

variable {n : Nat} {Command Bytes : Type}

/-- All servers fresh, nothing in flight. -/
def initial (gob : Gob Command Bytes) : Cluster n Command Bytes where
  servers := fun s => make gob s ⟨none⟩
  inc := fun _ => 0
  net := []
  applied := []
  granted := []
  counted := []

/-- Replace the state of one server. -/
def setServer (c : Cluster n Command Bytes) (s : Fin n) (rf : Raft n Command Bytes) :
    Cluster n Command Bytes :=
  { c with servers := Function.update c.servers s rf }

/-- The vote a candidate gives itself: the `heartBeat` loop raises the term only
    in `convertToCandidate`. -/
def selfGrant (s : Fin n) (rf rf' : Raft n Command Bytes) : List (Grant n) :=
  if rf.currentTerm < rf'.currentTerm then [⟨s, (s : Nat), rf'.currentTerm⟩] else []

/-- The handler or the waiting goroutine takes a message. -/
def receive (gob : Gob Command Bytes) (c : Cluster n Command Bytes) :
    Msg n Command → Option (Cluster n Command Bytes)
  | .requestVote caller dst inc round args =>
      let (rf, reply) := requestVote gob (c.servers dst) args
      let c' := setServer c dst rf
      some { c' with
        net := c.net ++ [.requestVoteReply caller dst inc round args reply]
        granted := if reply.voteGranted
          then ⟨dst, args.candidateID, reply.term⟩ :: c.granted else c.granted }
  | .requestVoteReply caller voter inc round args reply =>
      if inc = c.inc caller then
        let rf := c.servers caller
        let c' := setServer c caller (voteReply gob rf round args reply)
        some { c' with
          counted :=
            if reply.term ≤ rf.currentTerm ∧ rf.currentTerm = args.term
                ∧ rf.state = .candidate ∧ reply.voteGranted then
              ⟨caller, args.term, voter⟩ :: c.counted
            else c.counted }
      else some c
  | .appendEntries caller dst inc args => do
      let (rf, reply, msgs) ← appendEntries gob (c.servers dst) args
      let c' := setServer c dst rf
      some { c' with
        net := c.net ++ [.appendEntriesReply caller dst inc args reply]
        applied := msgs.map (fun m => (dst, m)) ++ c.applied }
  | .appendEntriesReply caller follower inc args reply =>
      if inc = c.inc caller then do
        let (rf, msgs) ← appendReply gob (c.servers caller) follower args reply
        let c' := setServer c caller rf
        some { c' with applied := msgs.map (fun m => (caller, m)) ++ c.applied }
      else some c

/-- The requests a `startRequestVote` call sends, one to every other server. -/
def voteRequests (s : Fin n) (inc : Nat) :
    Option (Nat × RequestVoteArgs) → List (Msg n Command)
  | none => []
  | some (round, args) =>
      ((List.finRange n).filter (· ≠ s)).map fun j => .requestVote s j inc round args

/-- One atomic step of the cluster; `none` when it is not enabled or panics. -/
def clusterStep (gob : Gob Command Bytes) (c : Cluster n Command Bytes) :
    Event n Command → Option (Cluster n Command Bytes)
  | .start s command => some (setServer c s (start gob (c.servers s) command).1)
  | .loop s e => do
      let rf ← loopStep gob (c.servers s) e
      let c' := setServer c s rf
      some { c' with granted := selfGrant s (c.servers s) rf ++ c.granted }
  | .startRequestVote s => do
      let (rf, out) ← startRequestVote (c.servers s)
      let c' := setServer c s rf
      some { c' with net := c.net ++ voteRequests s (c.inc s) out }
  | .runAppendEntries s j => do
      let (rf, out) ← runAppendEntries (c.servers s) j
      let c' := setServer c s rf
      some { c' with
        net := c.net ++ (out.map fun args => .appendEntries s j (c.inc s) args).toList }
  | .deliver i => do
      let m ← c.net[i]?
      receive gob { c with net := c.net.eraseIdx i } m
  | .drop i => if i < c.net.length then some { c with net := c.net.eraseIdx i } else none
  | .restart s =>
      let c' := setServer c s (make gob s (c.servers s).persister)
      some { c' with inc := Function.update c.inc s (c.inc s + 1) }

/-- The states of a run of the cluster whose steps all meet `ok`. -/
abbrev ClusterRun (gob : Gob Command Bytes)
    (ok : Cluster n Command Bytes → Event n Command → Prop)
    (cs : List (Cluster n Command Bytes)) : Prop :=
  Run (clusterStep gob) ok (initial gob) cs

/-! ## Every server of the cluster is a server of `RaftServer` -/

/-- Server `s` knows its own index and its persister is in order. -/
def ServersDurable (gob : Gob Command Bytes) (c : Cluster n Command Bytes) : Prop :=
  ∀ s, (c.servers s).me = s ∧ Durable gob (c.servers s)

variable {gob : Gob Command Bytes} {c c' : Cluster n Command Bytes}

@[simp] theorem setServer_self (c : Cluster n Command Bytes) (s : Fin n)
    (rf : Raft n Command Bytes) : (setServer c s rf).servers s = rf :=
  Function.update_self ..

theorem setServer_eq_self (c : Cluster n Command Bytes) (s : Fin n) :
    setServer c s (c.servers s) = c := by
  rw [setServer]
  rw [Function.update_eq_self]

/-! ## What one step can do -/

/-- The fields of a server that later invariants read are unchanged. -/
structure Still (rf rf' : Raft n Command Bytes) : Prop where
  me : rf'.me = rf.me
  currentTerm : rf'.currentTerm = rf.currentTerm
  votedFor : rf'.votedFor = rf.votedFor
  log : rf'.log = rf.log
  state : rf'.state = rf.state
  voteGranted : rf'.voteGranted = rf.voteGranted
  committedIndex : rf'.committedIndex = rf.committedIndex
  matchIndex : rf'.matchIndex = rf.matchIndex

theorem Still.of_sameCore {rf rf' : Raft n Command Bytes} (h : SameCore rf rf') :
    Still rf rf' :=
  ⟨h.me, h.currentTerm, h.votedFor, h.log, h.state, h.voteGranted, h.committedIndex,
    h.matchIndex⟩

/-- The transitions of the cluster, each with what it does: one constructor per
    way a step can change the fields later invariants read. -/
inductive Transition (gob : Gob Command Bytes) (c : Cluster n Command Bytes) :
    Event n Command → Cluster n Command Bytes → Prop where
  /-- messages disappear, nothing else -/
  | idle (e : Event n Command) (net' : List (Msg n Command)) (hnet : ∀ m ∈ net', m ∈ c.net) :
      Transition gob c e { c with net := net' }
  /-- goroutines move -/
  | quiet (e : Event n Command) (s : Fin n) (rf' : Raft n Command Bytes)
      (net' : List (Msg n Command)) (hstill : Still (c.servers s) rf')
      (hnet : ∀ m ∈ net', m ∈ c.net) :
      Transition gob c e { setServer c s rf' with net := net' }
  /-- `Start` on a leader -/
  | append (s : Fin n) (command : Command) (hlead : (c.servers s).state = .leader) :
      Transition gob c (.start s command) (setServer c s (persist gob
        { c.servers s with log := (c.servers s).log ++ [⟨command, (c.servers s).currentTerm⟩] }))
  /-- the `heartBeat` loop gives up a candidacy in the same term -/
  | forget (s : Fin n) (e : LoopEvent) (hb : Nat)
      (hwhy : e = .candidateHeartBeat ∨ (e = .candidateTimer ∧
        (c.servers s).state ≠ .follower ∧ ¬ (c.servers s).voteNotGranted * 2 < (n : Int))) :
      Transition gob c (.loop s e) (setServer c s
        { convertToFollower gob (c.servers s) (c.servers s).currentTerm (-1) with
          heartBeatCh := hb, loopAt := .top })
  /-- the `heartBeat` loop stands for election in the next term -/
  | stand (s : Fin n) (e : LoopEvent) :
      Transition gob c (.loop s e)
        { setServer c s { convertToCandidate gob (c.servers s) with loopAt := .top } with
          granted := ⟨s, (s : Nat), (c.servers s).currentTerm + 1⟩ :: c.granted }
  /-- a candidate asks every other server -/
  | ask (s : Fin n) (round : Nat) (rf' : Raft n Command Bytes)
      (hcand : (c.servers s).state = .candidate) (hstill : Still (c.servers s) rf') :
      Transition gob c (.startRequestVote s)
        { setServer c s rf' with
          net := c.net ++ voteRequests s (c.inc s) (some (round,
            ⟨(c.servers s).currentTerm, (s : Nat), ((c.servers s).log.length : Int) - 1,
              lastLogTerm (c.servers s).log⟩)) }
  /-- a leader sends to a peer -/
  | send (s j : Fin n) (rf' : Raft n Command Bytes) (args : AppendEntriesArgs Command)
      (hlead : (c.servers s).state = .leader) (hne : j ≠ s)
      (hargs : appendRequest (c.servers s) j = some args)
      (hstill : Still (c.servers s) rf') :
      Transition gob c (.runAppendEntries s j)
        { setServer c s rf' with net := c.net ++ [.appendEntries s j (c.inc s) args] }
  /-- `RequestVote` is handled -/
  | vote (i : Nat) (caller dst : Fin n) (inc round : Nat) (args : RequestVoteArgs)
      (rf' : Raft n Command Bytes) (reply : RequestVoteReply)
      (hmsg : c.net[i]? = some (.requestVote caller dst inc round args))
      (hout : VoteOutcome gob (c.servers dst) args rf' reply) :
      Transition gob c (.deliver i)
        { setServer c dst rf' with
          net := c.net.eraseIdx i ++ [.requestVoteReply caller dst inc round args reply]
          granted := if reply.voteGranted
            then ⟨dst, args.candidateID, reply.term⟩ :: c.granted else c.granted }
  /-- a reply shows a higher term -/
  | stepDown (i : Nat) (s : Fin n) (term : Int)
      (hterm : (c.servers s).currentTerm < term) :
      Transition gob c (.deliver i)
        { setServer c s (convertToFollower gob (c.servers s) term (-1)) with
          net := c.net.eraseIdx i }
  /-- a candidate counts a grant and does not win yet -/
  | count (i : Nat) (s voter : Fin n) (inc round : Nat) (args : RequestVoteArgs)
      (reply : RequestVoteReply)
      (hmsg : c.net[i]? = some (.requestVoteReply s voter inc round args reply))
      (hreply : reply.term ≤ (c.servers s).currentTerm)
      (hterm : (c.servers s).currentTerm = args.term)
      (hcand : (c.servers s).state = .candidate) (hgr : reply.voteGranted = true) :
      Transition gob c (.deliver i)
        { setServer c s (persist gob
            { c.servers s with voteGranted := (c.servers s).voteGranted + 1 }) with
          net := c.net.eraseIdx i
          counted := ⟨s, args.term, voter⟩ :: c.counted }
  /-- a candidate counts the deciding grant: `convertToLeader` -/
  | win (i : Nat) (s voter : Fin n) (inc round : Nat) (args : RequestVoteArgs)
      (reply : RequestVoteReply) (ch : Nat) (rounds : List Nat)
      (hmsg : c.net[i]? = some (.requestVoteReply s voter inc round args reply))
      (hreply : reply.term ≤ (c.servers s).currentTerm)
      (hterm : (c.servers s).currentTerm = args.term)
      (hcand : (c.servers s).state = .candidate) (hgr : reply.voteGranted = true)
      (hmaj : ((c.servers s).voteGranted + 1) * 2 > (n : Int)) :
      Transition gob c (.deliver i)
        { setServer c s (persist gob { c.servers s with
            voteGranted := (c.servers s).voteGranted + 1, state := .leader
            nextIndex := fun _ => (c.servers s).log.length, matchIndex := fun _ => -1
            leaderCh := ch, nLeader := rounds }) with
          net := c.net.eraseIdx i
          counted := ⟨s, args.term, voter⟩ :: c.counted }
  /-- `AppendEntries` is handled -/
  | accept (i : Nat) (caller dst : Fin n) (inc : Nat) (args : AppendEntriesArgs Command)
      (rf' : Raft n Command Bytes) (reply : AppendEntriesReply)
      (msgs : List (ApplyMsg Command))
      (hmsg : c.net[i]? = some (.appendEntries caller dst inc args))
      (hout : AppendOutcome gob (c.servers dst) args rf' reply msgs) :
      Transition gob c (.deliver i)
        { setServer c dst rf' with
          net := c.net.eraseIdx i ++ [.appendEntriesReply caller dst inc args reply]
          applied := msgs.map (fun m => (dst, m)) ++ c.applied }
  /-- a leader records a match and applies the commit rule -/
  | matched (i : Nat) (s j : Fin n) (inc : Nat) (args : AppendEntriesArgs Command)
      (reply : AppendEntriesReply) (next : Fin n → Int) (commit last : Int)
      (msgs : List (ApplyMsg Command))
      (hmsg : c.net[i]? = some (.appendEntriesReply s j inc args reply))
      (hreply : reply.term ≤ (c.servers s).currentTerm)
      (hterm : (c.servers s).currentTerm = args.term)
      (hlead : (c.servers s).state = .leader) (hsuc : reply.success = true)
      (hcommit : leaderCommitIndex { c.servers s with
          matchIndex := Function.update (c.servers s).matchIndex j
            (args.prevLogIndex + args.entries.length)
          nextIndex := next } = some commit)
      (hmsgs : ∀ msg ∈ msgs, ∃ (k : Nat) (e : LogEntry Command),
        (c.servers s).log[k]? = some e ∧ (k : Int) ≤ commit ∧ msg = ⟨true, e.command, k⟩) :
      Transition gob c (.deliver i)
        { setServer c s { c.servers s with
            matchIndex := Function.update (c.servers s).matchIndex j
              (args.prevLogIndex + args.entries.length)
            nextIndex := next, committedIndex := commit, lastApplied := last } with
          net := c.net.eraseIdx i
          applied := msgs.map (fun m => (s, m)) ++ c.applied }
  /-- crash and `Make` -/
  | restart (s : Fin n) (rf' : Raft n Command Bytes) (hme : rf'.me = s)
      (hterm : rf'.currentTerm = (c.servers s).currentTerm)
      (hvote : rf'.votedFor = (c.servers s).votedFor) (hlog : rf'.log = (c.servers s).log)
      (hstate : rf'.state = .follower) (hcommit : rf'.committedIndex = -1) :
      Transition gob c (.restart s)
        { setServer c s rf' with inc := Function.update c.inc s (c.inc s + 1) }

/-- A message of another kind than the one just sent was there before. -/
theorem mem_of_mem_sent {net : List (Msg n Command)} {m sent : Msg n Command}
    (h : m ∈ net ++ [sent]) (hne : m ≠ sent) : m ∈ net :=
  (List.mem_append.mp h).resolve_right fun hm => hne (List.mem_singleton.mp hm)

/-- Undelivered messages were in flight before. -/
theorem mem_of_mem_rest {i : Nat} {m : Msg n Command} (h : m ∈ c.net.eraseIdx i) :
    m ∈ c.net :=
  List.mem_of_mem_eraseIdx h

/-- A step that no invariant sees, seen as an idle one. -/
private theorem idle_self (gob : Gob Command Bytes) (c : Cluster n Command Bytes)
    (e : Event n Command) : Transition gob c e c :=
  .idle e c.net fun _ h => h

/-- **INVERSION**: every step of a cluster with durable servers is one of the
    transitions. -/
theorem transition_of_step {e : Event n Command} (hdur : ServersDurable gob c)
    (h : clusterStep gob c e = some c') : Transition gob c e c' := by
  cases e with
  | start s command =>
      cases h
      rw [start]
      split
      · rename_i hlead
        exact .append s command hlead
      · rw [setServer_eq_self]
        exact idle_self gob c _
  | loop s e =>
      obtain ⟨rf, hloop, h⟩ := Option.bind_eq_some_iff.mp h
      cases h
      rcases loopStep_cases hloop with ⟨hcore, -⟩ | ⟨hwhy, hb, rfl⟩ | ⟨-, rfl⟩
      · have hnone : selfGrant s (c.servers s) rf = [] := by
          rw [selfGrant]
          rw [if_neg (by rw [hcore.currentTerm]; exact lt_irrefl _)]
        rw [hnone]
        exact .quiet _ s rf c.net (.of_sameCore hcore) fun _ h => h
      · have hnone : selfGrant s (c.servers s)
            { convertToFollower gob (c.servers s) (c.servers s).currentTerm (-1) with
              heartBeatCh := hb, loopAt := .top } = [] := if_neg (lt_irrefl _)
        rw [hnone]
        exact .forget s e hb hwhy
      · have hself : selfGrant s (c.servers s)
            { convertToCandidate gob (c.servers s) with loopAt := .top }
            = [⟨s, (s : Nat), (c.servers s).currentTerm + 1⟩] :=
          if_pos (Int.lt_succ _)
        rw [hself]
        exact .stand s e
  | startRequestVote s =>
      obtain ⟨⟨rf, out⟩, hgo, h⟩ := Option.bind_eq_some_iff.mp h
      cases h
      obtain ⟨hcore, -, hout⟩ := startRequestVote_spec hgo
      cases out with
      | none =>
          simp only [voteRequests, List.append_nil]
          exact .quiet _ s rf c.net (.of_sameCore hcore) fun _ h => h
      | some p =>
          obtain ⟨round, args⟩ := p
          obtain ⟨hcand, rfl⟩ := hout round args rfl
          rw [(hdur s).1]
          exact .ask s round rf hcand (.of_sameCore hcore)
  | runAppendEntries s j =>
      obtain ⟨⟨rf, out⟩, hgo, h⟩ := Option.bind_eq_some_iff.mp h
      cases h
      obtain ⟨hcore, -, hout⟩ := runAppendEntries_spec hgo
      cases out with
      | none =>
          simp only [Option.map_none, Option.toList_none, List.append_nil]
          exact .quiet _ s rf c.net (.of_sameCore hcore) fun _ h => h
      | some args =>
          obtain ⟨hne, hlead, hargs⟩ := hout args rfl
          rw [(hdur s).1] at hne
          exact .send s j rf args hlead hne hargs (.of_sameCore hcore)
  | deliver i =>
      obtain ⟨m, hmsg, h⟩ := Option.bind_eq_some_iff.mp h
      cases m with
      | requestVote caller dst inc round args =>
          cases h
          exact .vote i caller dst inc round args _ _ hmsg (requestVote_spec gob _ args)
      | requestVoteReply s voter inc round args reply =>
          simp only [receive] at h
          split at h
          · cases h
            rcases voteReply_cases gob (c.servers s) round args reply with
              ⟨hlt, heq⟩ | ⟨hign, heq⟩ | ⟨hterm, hcand, hgr, heq⟩ |
              ⟨hle, hterm, hcand, hgr, heq⟩ | ⟨hle, hterm, hcand, hgr, hmaj, ch, rounds, heq⟩
            · rw [heq, if_neg (by omega)]
              exact .stepDown i s reply.term hlt
            · rw [heq, if_neg (by tauto)]
              exact .quiet _ s (c.servers s) _ ⟨rfl, rfl, rfl, rfl, rfl, rfl, rfl, rfl⟩
                fun _ => mem_of_mem_rest
            · rw [heq, if_neg (by simp [hgr])]
              exact .quiet _ s _ _ ⟨rfl, rfl, rfl, rfl, rfl, rfl, rfl, rfl⟩
                fun _ => mem_of_mem_rest
            · rw [heq, if_pos ⟨hle, hterm, hcand, hgr⟩]
              exact .count i s voter inc round args reply hmsg hle hterm hcand hgr
            · rw [heq, if_pos ⟨hle, hterm, hcand, hgr⟩]
              exact .win i s voter inc round args reply ch rounds hmsg hle hterm hcand hgr hmaj
          · cases h
            exact .idle _ _ fun _ => mem_of_mem_rest
      | appendEntries caller dst inc args =>
          obtain ⟨⟨rf, reply, msgs⟩, happ, h⟩ := Option.bind_eq_some_iff.mp h
          cases h
          exact .accept i caller dst inc args rf reply msgs hmsg (appendEntries_spec happ)
      | appendEntriesReply s j inc args reply =>
          simp only [receive] at h
          split at h
          · obtain ⟨⟨rf, msgs⟩, happ, h⟩ := Option.bind_eq_some_iff.mp h
            cases h
            rcases appendReply_cases happ with
              ⟨hlt, rfl, rfl⟩ | ⟨-, rfl, rfl⟩ | ⟨-, -, -, -, rfl, go, rfl⟩ |
              ⟨hle, hterm, hlead, hsuc, commit, last, hcommit, -, -, rfl, hmsgs⟩
            · exact .stepDown i s reply.term hlt
            · exact .quiet _ s (c.servers s) _ ⟨rfl, rfl, rfl, rfl, rfl, rfl, rfl, rfl⟩
                fun _ => mem_of_mem_rest
            · exact .quiet _ s _ _ ⟨rfl, rfl, rfl, rfl, rfl, rfl, rfl, rfl⟩
                fun _ => mem_of_mem_rest
            · exact .matched i s j inc args reply _ commit last msgs hmsg hle hterm hlead
                hsuc hcommit hmsgs
          · cases h
            exact .idle _ _ fun _ => mem_of_mem_rest
  | drop i =>
      simp only [clusterStep] at h
      split at h
      · cases h
        exact .idle _ _ fun _ => mem_of_mem_rest
      · cases h
  | restart s =>
      cases h
      obtain ⟨hterm, hvote, hlog⟩ := fields_of_persisted (persisted_make (hdur s).2 s)
      exact .restart s _ rfl hterm hvote hlog rfl rfl

/-- Which server takes a message, and as which input of `serverStep`.  A reply to an
    earlier incarnation of its caller is thrown away. -/
def taken (c : Cluster n Command Bytes) :
    Msg n Command → Option (Fin n × Input n Command)
  | .requestVote _ dst _ _ args => some (dst, .requestVote args)
  | .requestVoteReply s _ inc round args reply =>
      if inc = c.inc s then some (s, .voteReply round args reply) else none
  | .appendEntries _ dst _ args => some (dst, .appendEntries args)
  | .appendEntriesReply s j inc args reply =>
      if inc = c.inc s then some (s, .appendReply j args reply) else none

/-- Which server takes an event, and as which input. -/
def served (c : Cluster n Command Bytes) :
    Event n Command → Option (Fin n × Input n Command)
  | .start s command => some (s, .start command)
  | .loop s e => some (s, .loop e)
  | .startRequestVote s => some (s, .startRequestVote)
  | .runAppendEntries s j => some (s, .runAppendEntries j)
  | .deliver i => (c.net[i]?).bind (taken c)
  | .drop _ => none
  | .restart s => some (s, .restart)

/-- In the cluster, too, a server only ever takes steps of `serverStep`: the
    server that takes the event moves, and no other. -/
theorem clusterStep_served {e : Event n Command} (hme : ∀ s, (c.servers s).me = s)
    (h : clusterStep gob c e = some c') :
    (served c e = none ∧ c'.servers = c.servers) ∨
      ∃ s input rf, served c e = some (s, input) ∧
        serverStep gob (c.servers s) input = some rf ∧
        c'.servers = Function.update c.servers s rf := by
  cases e with
  | start s command =>
      cases h
      exact .inr ⟨s, .start command, _, rfl, rfl, rfl⟩
  | loop s e =>
      obtain ⟨rf, hloop, h⟩ := Option.bind_eq_some_iff.mp h
      cases h
      exact .inr ⟨s, .loop e, rf, rfl, hloop, rfl⟩
  | startRequestVote s =>
      obtain ⟨⟨rf, out⟩, hgo, h⟩ := Option.bind_eq_some_iff.mp h
      cases h
      exact .inr ⟨s, .startRequestVote, rf, rfl, Option.map_eq_some_iff.mpr ⟨_, hgo, rfl⟩, rfl⟩
  | runAppendEntries s j =>
      obtain ⟨⟨rf, out⟩, hgo, h⟩ := Option.bind_eq_some_iff.mp h
      cases h
      exact .inr ⟨s, .runAppendEntries j, rf, rfl, Option.map_eq_some_iff.mpr ⟨_, hgo, rfl⟩,
        rfl⟩
  | deliver i =>
      obtain ⟨m, hmsg, h⟩ := Option.bind_eq_some_iff.mp h
      have htaken : served c (.deliver i) = taken c m := by
        rw [served, hmsg, Option.bind_some]
      rw [htaken]
      cases m with
      | requestVote caller dst inc round args =>
          cases h
          exact .inr ⟨dst, .requestVote args, _, rfl, rfl, rfl⟩
      | requestVoteReply s voter inc round args reply =>
          simp only [receive] at h
          split at h
          · rename_i hinc
            cases h
            exact .inr ⟨s, .voteReply round args reply, _, if_pos hinc, rfl, rfl⟩
          · rename_i hinc
            cases h
            exact .inl ⟨if_neg hinc, rfl⟩
      | appendEntries caller dst inc args =>
          obtain ⟨⟨rf, reply, msgs⟩, happ, h⟩ := Option.bind_eq_some_iff.mp h
          cases h
          exact .inr ⟨dst, .appendEntries args, rf, rfl,
            Option.map_eq_some_iff.mpr ⟨_, happ, rfl⟩, rfl⟩
      | appendEntriesReply s j inc args reply =>
          simp only [receive] at h
          split at h
          · rename_i hinc
            obtain ⟨⟨rf, msgs⟩, happ, h⟩ := Option.bind_eq_some_iff.mp h
            cases h
            exact .inr ⟨s, .appendReply j args reply, rf, if_pos hinc,
              Option.map_eq_some_iff.mpr ⟨_, happ, rfl⟩, rfl⟩
          · rename_i hinc
            cases h
            exact .inl ⟨if_neg hinc, rfl⟩
  | drop i =>
      simp only [clusterStep] at h
      split at h
      · cases h
        exact .inl ⟨rfl, rfl⟩
      · exact nomatch h
  | restart s =>
      cases h
      refine .inr ⟨s, .restart, _, rfl, rfl, ?_⟩
      rw [hme s]
      rfl

/-- The same, seen from one server: it does not take the event and stays as it is, or
    it takes the event by a step of its own. -/
theorem serverStep_of_clusterStep {e : Event n Command} (hme : ∀ s, (c.servers s).me = s)
    (h : clusterStep gob c e = some c') (v : Fin n) :
    ((∀ input, served c e ≠ some (v, input)) ∧ c'.servers v = c.servers v) ∨
      ∃ input, served c e = some (v, input) ∧
        serverStep gob (c.servers v) input = some (c'.servers v) := by
  rcases clusterStep_served hme h with ⟨hnone, heq⟩ | ⟨s, input, rf, hserved, hstep, heq⟩
  · rw [hnone, heq]
    exact .inl ⟨by rintro _ ⟨⟩, rfl⟩
  · rw [hserved, heq]
    by_cases hv : v = s
    · subst hv
      rw [Function.update_self]
      exact .inr ⟨input, rfl, hstep⟩
    · rw [Function.update_of_ne hv]
      refine .inl ⟨fun input' h => hv ?_, rfl⟩
      exact (Prod.mk.inj (Option.some.inj h)).1.symm

/-- What every step of a server on its own keeps is kept in the cluster. -/
theorem servers_of_clusterStep {P : Fin n → Raft n Command Bytes → Prop}
    {e : Event n Command} (hme : ∀ s, (c.servers s).me = s)
    (h : clusterStep gob c e = some c') (hP : ∀ s, P s (c.servers s))
    (hkeep : ∀ s rf rf' input, P s rf → serverStep gob rf input = some rf' → P s rf') :
    ∀ s, P s (c'.servers s) := by
  intro s
  rcases serverStep_of_clusterStep hme h s with ⟨-, heq⟩ | ⟨input, -, hstep⟩
  · rw [heq]
    exact hP s
  · exact hkeep s _ _ input (hP s) hstep

/-- What a server takes off the network was in flight. -/
theorem served_deliver {e : Event n Command} {s : Fin n} {input : Input n Command}
    (h : served c e = some (s, input)) :
    (∀ args, input = .appendEntries args →
      ∃ caller inc, Msg.appendEntries caller s inc args ∈ c.net) ∧
    ∀ j args reply, input = .appendReply j args reply →
      Msg.appendEntriesReply s j (c.inc s) args reply ∈ c.net := by
  cases e with
  | deliver i =>
      obtain ⟨m, hmsg, h⟩ := Option.bind_eq_some_iff.mp h
      have hmem := List.mem_of_getElem? hmsg
      cases m with
      | requestVote caller dst inc round args =>
          cases h
          exact ⟨by rintro _ ⟨⟩, by rintro _ _ _ ⟨⟩⟩
      | requestVoteReply v voter inc round args reply =>
          rw [taken] at h
          split at h
          · cases h
            exact ⟨by rintro _ ⟨⟩, by rintro _ _ _ ⟨⟩⟩
          · cases h
      | appendEntries caller dst inc args =>
          cases h
          refine ⟨?_, by rintro _ _ _ ⟨⟩⟩
          rintro _ ⟨⟩
          exact ⟨caller, inc, hmem⟩
      | appendEntriesReply v j inc args reply =>
          rw [taken] at h
          split at h
          · rename_i hinc
            cases h
            refine ⟨by rintro _ ⟨⟩, ?_⟩
            rintro _ _ _ ⟨⟩
            exact hinc ▸ hmem
          · cases h
  | drop i => cases h
  | start _ _ | loop _ _ | startRequestVote _ | runAppendEntries _ _ | restart _ =>
      cases h
      exact ⟨by rintro _ ⟨⟩, by rintro _ _ _ ⟨⟩⟩

/-- The server that takes the event meets `P` with its input, before it moves. -/
def Serves (P : Raft n Command Bytes → Input n Command → Prop) (c : Cluster n Command Bytes)
    (e : Event n Command) : Prop :=
  ∀ p ∈ served c e, P (c.servers p.1) p.2

instance (P : Raft n Command Bytes → Input n Command → Prop) [∀ rf i, Decidable (P rf i)]
    (c : Cluster n Command Bytes) (e : Event n Command) : Decidable (Serves P c e) :=
  inferInstanceAs (Decidable (∀ p ∈ served c e, P (c.servers p.1) p.2))

/-- A property of every server that only the server taking the event can lose is a
    condition on that server and its input. -/
theorem forall_servers_iff_serves {P : Raft n Command Bytes → Input n Command → Prop}
    {R : Fin n → Prop} {e : Event n Command} (hme : ∀ s, (c.servers s).me = s)
    (h : clusterStep gob c e = some c')
    (hstill : ∀ s, (∀ input, served c e ≠ some (s, input)) →
      c'.servers s = c.servers s → R s)
    (hmove : ∀ s input, served c e = some (s, input) →
      serverStep gob (c.servers s) input = some (c'.servers s) → (R s ↔ P (c.servers s) input)) :
    (∀ s, R s) ↔ Serves P c e := by
  constructor
  · rintro hR ⟨s, input⟩ hserved
    rcases serverStep_of_clusterStep hme h s with ⟨hnone, -⟩ | ⟨input', hserved', hstep⟩
    · exact absurd hserved (hnone input)
    · obtain rfl := (Prod.mk.inj (Option.some.inj (hserved'.symm.trans hserved))).2
      exact (hmove s input' hserved' hstep).mp (hR s)
  · intro hP s
    rcases serverStep_of_clusterStep hme h s with ⟨hnone, heq⟩ | ⟨input, hserved, hstep⟩
    · exact hstill s hnone heq
    · exact (hmove s input hserved hstep).mpr (hP (s, input) hserved)

/-- A message changes no incarnation. -/
theorem receive_inc {m : Msg n Command} (h : receive gob c m = some c') : c'.inc = c.inc := by
  cases m with
  | requestVote caller dst inc round args =>
      cases h
      rfl
  | appendEntries caller dst inc args =>
      obtain ⟨⟨rf, reply, msgs⟩, -, h⟩ := Option.bind_eq_some_iff.mp h
      cases h
      rfl
  | requestVoteReply s voter inc round args reply =>
      simp only [receive] at h
      split at h <;> cases h <;> rfl
  | appendEntriesReply s j inc args reply =>
      simp only [receive] at h
      split at h
      · obtain ⟨⟨rf, msgs⟩, -, h⟩ := Option.bind_eq_some_iff.mp h
        cases h
        rfl
      · cases h
        rfl

/-- An incarnation ends with a crash. -/
theorem inc_eq_iff {e : Event n Command} (h : clusterStep gob c e = some c') (s : Fin n) :
    c'.inc s = c.inc s ↔ served c e ≠ some (s, .restart) := by
  cases e with
  | start v command =>
      cases h
      exact iff_of_true rfl (by rintro ⟨⟩)
  | loop v e =>
      obtain ⟨rf, -, h⟩ := Option.bind_eq_some_iff.mp h
      cases h
      exact iff_of_true rfl (by rintro ⟨⟩)
  | startRequestVote v | runAppendEntries v j =>
      obtain ⟨⟨rf, out⟩, -, h⟩ := Option.bind_eq_some_iff.mp h
      cases h
      exact iff_of_true rfl (by rintro ⟨⟩)
  | deliver i =>
      obtain ⟨m, hmsg, h⟩ := Option.bind_eq_some_iff.mp h
      refine iff_of_true (congrFun (receive_inc h) s) ?_
      rw [served, hmsg, Option.bind_some]
      cases m with
      | requestVote | appendEntries => rintro ⟨⟩
      | requestVoteReply | appendEntriesReply =>
          rw [taken]
          split <;> rintro ⟨⟩
  | drop i =>
      simp only [clusterStep] at h
      split at h
      · cases h
        exact iff_of_true rfl (by rintro ⟨⟩)
      · cases h
  | restart v =>
      cases h
      show Function.update c.inc v (c.inc v + 1) s = c.inc s ↔ _
      by_cases hs : s = v
      · subst hs
        rw [Function.update_self]
        exact iff_of_false (by omega) (not_not.mpr rfl)
      · rw [Function.update_of_ne hs]
        refine iff_of_true rfl fun hserved => hs ?_
        exact (Prod.mk.inj (Option.some.inj hserved)).1.symm

/-- Durability holds in every state of every run. -/
theorem serversDurable_step {e : Event n Command} (hd : ServersDurable gob c)
    (h : clusterStep gob c e = some c') : ServersDurable gob c' :=
  servers_of_clusterStep (P := fun s rf => rf.me = s ∧ Durable gob rf) (fun s => (hd s).1) h hd
    fun _ _ _ _ hs hstep => ⟨(serverStep_me hstep).trans hs.1, serverStep_durable hs.2 hstep⟩

theorem serversDurable_initial (gob : Gob Command Bytes) :
    ServersDurable (n := n) gob (initial gob) :=
  fun s => ⟨rfl, durable_fresh gob s⟩

theorem run_serversDurable {ok : Cluster n Command Bytes → Event n Command → Prop}
    {cs : List (Cluster n Command Bytes)} (h : ClusterRun gob ok cs) :
    ∀ c ∈ cs, ServersDurable gob c :=
  Run.invariant (I := ServersDurable gob) (serversDurable_initial gob)
    (fun _ _ _ hd _ hs => serversDurable_step hd hs) h

/-- **RUN RULE of the cluster**: an invariant need only be kept by the
    transitions that start in a state with durable servers. -/
theorem run_of_transitions {ok : Cluster n Command Bytes → Event n Command → Prop}
    {cs : List (Cluster n Command Bytes)} (h : ClusterRun gob ok cs) :
    Run (clusterStep gob) (fun c e => ok c e ∧ ServersDurable gob c) (initial gob) cs :=
  Run.assume (I := ServersDurable gob) (serversDurable_initial gob)
    (fun _ _ _ hd _ hs => serversDurable_step hd hs) h

/-! ## Where messages come from -/

/-- A message that a step can put in flight. -/
def NewlySent (gob : Gob Command Bytes) (c : Cluster n Command Bytes) : Msg n Command → Prop
  | .requestVote s _ _ _ args => (c.servers s).state = .candidate ∧
      args = ⟨(c.servers s).currentTerm, (s : Nat), ((c.servers s).log.length : Int) - 1,
        lastLogTerm (c.servers s).log⟩
  | .requestVoteReply s voter inc round args reply =>
      Msg.requestVote s voter inc round args ∈ c.net ∧
        ∃ rf', VoteOutcome gob (c.servers voter) args rf' reply
  | .appendEntries s j _ args =>
      (c.servers s).state = .leader ∧ appendRequest (c.servers s) j = some args
  | .appendEntriesReply s j inc args reply => Msg.appendEntries s j inc args ∈ c.net ∧
      ∃ rf' msgs, AppendOutcome gob (c.servers j) args rf' reply msgs

/-- **ORIGIN**: a message was in flight before the step, or the step sent it. -/
theorem newlySent_of_transition {e : Event n Command} (ht : Transition gob c e c')
    {m : Msg n Command} (hm : m ∈ c'.net) : m ∈ c.net ∨ NewlySent gob c m := by
  have hrest {i : Nat} (h : m ∈ c.net.eraseIdx i) : m ∈ c.net ∨ NewlySent gob c m :=
    .inl (mem_of_mem_rest h)
  cases ht with
  | idle _ net' hnet => exact .inl (hnet m hm)
  | quiet _ s rf' net' hstill hnet => exact .inl (hnet m hm)
  | append s command hlead => exact .inl hm
  | forget s e hb hwhy => exact .inl hm
  | stand s e => exact .inl hm
  | ask s round rf' hcand hstill =>
      rcases List.mem_append.mp hm with hm | hm
      · exact .inl hm
      · obtain ⟨j, -, rfl⟩ := List.mem_map.mp hm
        exact .inr ⟨hcand, rfl⟩
  | send s j rf' args hlead hne hargs hstill =>
      rcases List.mem_append.mp hm with hm | hm
      · exact .inl hm
      · obtain rfl := List.mem_singleton.mp hm
        exact .inr ⟨hlead, hargs⟩
  | vote i caller dst inc round args rf' reply hmsg hout =>
      rcases List.mem_append.mp hm with hm | hm
      · exact hrest hm
      · obtain rfl := List.mem_singleton.mp hm
        exact .inr ⟨List.mem_of_getElem? hmsg, rf', hout⟩
  | stepDown i s term hterm => exact hrest hm
  | count i s voter inc round args reply hmsg hreply hterm hcand hgr => exact hrest hm
  | win i s voter inc round args reply ch rounds hmsg hreply hterm hcand hgr hmaj =>
      exact hrest hm
  | accept i caller dst inc args rf' reply msgs hmsg hout =>
      rcases List.mem_append.mp hm with hm | hm
      · exact hrest hm
      · obtain rfl := List.mem_singleton.mp hm
        exact .inr ⟨List.mem_of_getElem? hmsg, rf', msgs, hout⟩
  | matched i s j inc args reply next commit last msgs hmsg hreply hterm hlead hsuc hcommit =>
      exact hrest hm
  | restart s rf' hme hterm hvote hlog hstate hcommit => exact .inl hm

/-! ## Leaders of a run -/

/-- Server `s` was seen in state `Leader` with `currentTerm = T`. -/
def Led (cs : List (Cluster n Command Bytes)) (s : Fin n) (T : Int) : Prop :=
  ∃ c ∈ cs, (c.servers s).state = .leader ∧ (c.servers s).currentTerm = T

/-- No term ever has two different leaders, over the whole run. -/
def OneLeaderPerTerm (cs : List (Cluster n Command Bytes)) : Prop :=
  ∀ s s' T, Led cs s T → Led cs s' T → s = s'

variable {cs : List (Cluster n Command Bytes)}

theorem Led.cons {s : Fin n} {T : Int} (h : Led cs s T) (c : Cluster n Command Bytes) :
    Led (c :: cs) s T := by
  obtain ⟨d, hd, hst⟩ := h
  exact ⟨d, List.mem_cons_of_mem c hd, hst⟩

theorem OneLeaderPerTerm.tail (h : OneLeaderPerTerm (c :: cs)) : OneLeaderPerTerm cs :=
  fun s s' T hs hs' => h s s' T (hs.cons c) (hs'.cons c)

/-- One leader per term, as a check of a finite run. -/
theorem oneLeaderPerTerm_iff : OneLeaderPerTerm cs ↔
    ∀ c ∈ cs, ∀ c' ∈ cs, ∀ s s', (c.servers s).state = .leader →
      (c'.servers s').state = .leader →
      (c.servers s).currentTerm = (c'.servers s').currentTerm → s = s' := by
  constructor
  · intro h c hc c' hc' s s' hs hs' hterm
    exact h s s' _ ⟨c, hc, hs, hterm⟩ ⟨c', hc', hs', rfl⟩
  · rintro h s s' T ⟨c, hc, hs, rfl⟩ ⟨c', hc', hs', hterm⟩
    exact h c hc c' hc' s s' hs hs' hterm.symm

/-- A server that moves without becoming leader was leader before, if it is one. -/
theorem leader_of_calm {s : Fin n} {rf : Raft n Command Bytes}
    (hservers : c'.servers = Function.update c.servers s rf)
    (hrole : rf.state = .follower ∨ rf.state = .candidate ∨
      (rf.currentTerm = (c.servers s).currentTerm ∧ rf.state = (c.servers s).state)) :
    ∀ v, (c'.servers v).state = .leader → (c.servers v).state = .leader ∧
      (c'.servers v).currentTerm = (c.servers v).currentTerm := by
  rw [hservers, Function.forall_update_iff c.servers (p := fun v rf => rf.state = .leader →
    (c.servers v).state = .leader ∧ rf.currentTerm = (c.servers v).currentTerm)]
  refine ⟨fun hlead => ?_, fun v _ hlead => ⟨hlead, rfl⟩⟩
  rcases hrole with hf | hcand | ⟨hterm, hsame⟩
  · exact nomatch hf.symm.trans hlead
  · exact nomatch hcand.symm.trans hlead
  · exact ⟨hsame.symm.trans hlead, hterm⟩

/-- Event `e` hands candidate `s` a grant that makes its counter a majority. -/
def DecidingGrant (c : Cluster n Command Bytes) (e : Event n Command) (s : Fin n) : Prop :=
  ∃ i voter inc round args reply, e = .deliver i ∧
    c.net[i]? = some (.requestVoteReply s voter inc round args reply) ∧
    (c.servers s).currentTerm = args.term ∧ (c.servers s).state = .candidate ∧
    reply.voteGranted = true ∧ ((c.servers s).voteGranted + 1) * 2 > (n : Int)

/-- The step of a deciding grant, seen from any server. -/
theorem leader_of_win {e : Event n Command} {v s : Fin n} {rf : Raft n Command Bytes}
    (hgrant : DecidingGrant c e v) (hlead : (c'.servers s).state = .leader)
    (hservers : c'.servers = Function.update c.servers v rf)
    (hterm : rf.currentTerm = (c.servers v).currentTerm) :
    (c'.servers s).currentTerm = (c.servers s).currentTerm ∧
      ((c.servers s).state = .leader ∨ DecidingGrant c e s) := by
  rw [hservers] at hlead ⊢
  by_cases hs : s = v
  · subst hs
    rw [Function.update_self]
    exact ⟨hterm, .inr hgrant⟩
  · rw [Function.update_of_ne hs] at hlead ⊢
    exact ⟨rfl, .inl hlead⟩

/-- **ONLY ONE WAY TO LEAD**: a leader was leader in the same term before the
    step, or the step is its deciding grant. -/
theorem leader_of_transition {e : Event n Command} (ht : Transition gob c e c') (s : Fin n)
    (hlead : (c'.servers s).state = .leader) :
    (c'.servers s).currentTerm = (c.servers s).currentTerm ∧
      ((c.servers s).state = .leader ∨ DecidingGrant c e s) := by
  have hcalm : (∀ v, (c'.servers v).state = .leader → (c.servers v).state = .leader ∧
      (c'.servers v).currentTerm = (c.servers v).currentTerm) →
      (c'.servers s).currentTerm = (c.servers s).currentTerm ∧
      ((c.servers s).state = .leader ∨ DecidingGrant c e s) := fun h =>
    ⟨(h s hlead).2, .inl (h s hlead).1⟩
  cases ht with
  | idle _ net' hnet => exact ⟨rfl, .inl hlead⟩
  | quiet _ v rf' net' hstill hnet =>
      exact hcalm (leader_of_calm rfl (.inr (.inr ⟨hstill.currentTerm, hstill.state⟩)))
  | append v command hl => exact hcalm (leader_of_calm rfl (.inr (.inr ⟨rfl, rfl⟩)))
  | forget v e hb hwhy => exact hcalm (leader_of_calm rfl (.inl rfl))
  | stand v e => exact hcalm (leader_of_calm rfl (.inr (.inl rfl)))
  | ask v round rf' hcand hstill =>
      exact hcalm (leader_of_calm rfl (.inr (.inr ⟨hstill.currentTerm, hstill.state⟩)))
  | send v j rf' args hl hne hargs hstill =>
      exact hcalm (leader_of_calm rfl (.inr (.inr ⟨hstill.currentTerm, hstill.state⟩)))
  | vote i caller dst inc round args rf' reply hmsg hout =>
      exact hcalm (leader_of_calm rfl
        ((role_of_adopt hout.currentTerm hout.state).imp_right .inr))
  | stepDown i v term hterm => exact hcalm (leader_of_calm rfl (.inl rfl))
  | count i v voter inc round args reply hmsg hreply hterm hcand hgr =>
      exact hcalm (leader_of_calm rfl (.inr (.inr ⟨rfl, rfl⟩)))
  | win i v voter inc round args reply ch rounds hmsg hreply hterm hcand hgr hmaj =>
      have hgrant : DecidingGrant c (.deliver i) v :=
        ⟨i, voter, inc, round, args, reply, rfl, hmsg, hterm, hcand, hgr, hmaj⟩
      exact leader_of_win hgrant hlead rfl rfl
  | accept i caller dst inc args rf' reply msgs hmsg hout =>
      exact hcalm (leader_of_calm rfl
        ((role_of_adopt hout.currentTerm hout.state).imp_right .inr))
  | matched i v j inc args reply next commit last msgs hmsg hreply hterm hl hsuc hcommit
      hmsgs => exact hcalm (leader_of_calm rfl (.inr (.inr ⟨rfl, rfl⟩)))
  | restart v rf' hme hterm hvote hlog hstate hcommit =>
      exact hcalm (leader_of_calm rfl (.inl hstate))

/-! ## A run to look at -/

/-- Clusters small enough to evaluate. -/
abbrev SmallCluster (n : Nat) := Cluster n Nat (List (GobValue Nat))

/-- Three servers: server `0` is elected in term `1` by server `1`, takes a
    command, replicates it to server `1`, commits it, and tells server `1`. -/
def electAndReplicate : List (Event 3 Nat) :=
  [.loop 0 .top, .loop 0 .followerTimer, .loop 0 .top, .startRequestVote 0,
    .deliver 0, .deliver 1,
    .start 0 7, .loop 0 .candidateLeader, .loop 0 .top,
    .loop 0 .appendRound, .runAppendEntries 0 1, .deliver 1, .deliver 1,
    .loop 0 .appendRound, .runAppendEntries 0 1, .deliver 1]

end RaftCluster
