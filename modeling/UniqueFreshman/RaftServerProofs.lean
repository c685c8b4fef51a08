import Mathlib
import UniqueFreshman.GoSliceProofs

/-! # One Raft server — the handlers of `raft.go` as functions

    The server of `Task5/raft/raft.go`, function by function: the two RPC
    handlers, `Start`, what the goroutines do with a reply, the `convertTo*`
    helpers and the `heartBeat` loop.  Each function that runs under one
    acquisition of `rf.mu` (or is a handler) is one Lean function.

    * a Go run-time panic (an index or a slice bound out of range) is `none`;
    * `int` is `Int`: terms and indices move by one per timeout or `Start`;
    * the bytes handed to the `Persister` are those of an arbitrary `Gob`
      codec that decodes what it encoded;
    * the unbuffered channels are counters of the goroutines that still wait to
      send on them;
    * the loops of a server that was killed end, and no loop has to go on here;
      the timer's durations, `GetState` and the debug printing do not influence
      the fields modelled here and are left out. -/

namespace RaftServer

open GoSlice

/-! ## Data -/

/-- `LogEntry`. -/
structure LogEntry (Command : Type) where
  command : Command
  term : Int
  deriving DecidableEq, Repr

/-- `ApplyMsg`. -/
structure ApplyMsg (Command : Type) where
  commandValid : Bool
  command : Command
  commandIndex : Int
  deriving DecidableEq, Repr

/-- The constants `Follower`, `Candidate` and `Leader`. -/
inductive ServerState where
  | follower
  | candidate
  | leader
  deriving DecidableEq, Repr

/-- `RequestVoteArgs`. -/
structure RequestVoteArgs where
  term : Int
  candidateID : Int
  lastLogIndex : Int
  lastLogTerm : Int
  deriving DecidableEq, Repr

/-- `RequestVoteReply`. -/
structure RequestVoteReply where
  term : Int
  voteGranted : Bool
  deriving DecidableEq, Repr

/-- `AppendEntriesArgs`. -/
structure AppendEntriesArgs (Command : Type) where
  term : Int
  leaderID : Int
  prevLogIndex : Int
  prevLogTerm : Int
  entries : List (LogEntry Command)
  leaderCommit : Int
  deriving DecidableEq, Repr

/-- `AppendEntriesReply`. -/
structure AppendEntriesReply where
  term : Int
  success : Bool
  conflictIndex : Int
  conflictTerm : Int
  deriving DecidableEq, Repr

/-- Where the `heartBeat` loop stands: at its top, inside
    `startAppendEntries`, or blocked in one of its two `select`s. -/
inductive LoopAt where
  | top
  | appending
  | candidateSelect
  | followerSelect
  deriving DecidableEq, Repr

/-- A value that goes through `encoding/gob`: an `int` or the log. -/
inductive GobValue (Command : Type) where
  | int (x : Int)
  | log (l : List (LogEntry Command))
  deriving DecidableEq, Repr

/-- `encoding/gob` on a buffer: a stream of values in, bytes out, and back.
    The law is the codec's documented contract. -/
structure Gob (Command Bytes : Type) where
  encode : List (GobValue Command) → Bytes
  decode : Bytes → List (GobValue Command)
  decode_encode : ∀ vs, decode (encode vs) = vs

/-- A codec whose bytes are the values themselves, for evaluation. -/
def plainGob (Command : Type) : Gob Command (List (GobValue Command)) :=
  ⟨id, id, fun _ => rfl⟩

/-- Numerals for the servers of a cluster of three. -/
instance neZero_three : NeZero 3 := ⟨by decide⟩

/-- `Persister`; a fresh one holds the nil slice. -/
structure Persister (Bytes : Type) where
  raftstate : Option Bytes
  deriving DecidableEq, Repr

/-- `Raft`: a server among `n` peers.  The last five fields are the server's
    goroutines: those waiting to send on the three signal channels are counted
    by the channel's own name, `requestGo` counts the `startRequestVote`
    goroutines that were started and did not run yet, `appendGo j` the
    `startAppendEntries` goroutines for peer `j` at the top of their retry
    loop, and `nLeader` holds that variable of each `startRequestVote` call. -/
structure Raft (n : Nat) (Command Bytes : Type) where
  me : Fin n
  persister : Persister Bytes
  currentTerm : Int
  votedFor : Int
  log : List (LogEntry Command)
  committedIndex : Int
  lastApplied : Int
  nextIndex : Fin n → Int
  matchIndex : Fin n → Int
  state : ServerState
  voteGranted : Int
  voteNotGranted : Int
  grantVoteCh : Nat
  heartBeatCh : Nat
  leaderCh : Nat
  loopAt : LoopAt
  requestGo : Nat
  appendGo : Fin n → Nat
  nLeader : List Nat

variable {n : Nat} {Command Bytes : Type}

/-! ## `persist`, `readPersist`, `Make` -/

/-- The five values `persist` encodes. -/
def persisted (rf : Raft n Command Bytes) : List (GobValue Command) :=
  [.int rf.currentTerm, .int rf.votedFor, .log rf.log, .int rf.voteGranted,
    .int rf.voteNotGranted]

/-- `persist`. -/
def persist (gob : Gob Command Bytes) (rf : Raft n Command Bytes) :
    Raft n Command Bytes :=
  { rf with persister := ⟨some (gob.encode (persisted rf))⟩ }

/-- The stream a decoder reads from saved bytes; the nil slice is empty. -/
def savedValues (gob : Gob Command Bytes) (p : Persister Bytes) :
    List (GobValue Command) :=
  match p.raftstate with
  | none => []
  | some data => gob.decode data

/-- `d.Decode(&x)` for an `int`: at the end of the stream `x` is untouched. -/
def decodeInt (x : Int) : List (GobValue Command) → Int × List (GobValue Command)
  | .int y :: d => (y, d)
  | .log _ :: d => (x, d)
  | [] => (x, [])

/-- `d.Decode(&l)` for the log. -/
def decodeLog (l : List (LogEntry Command)) :
    List (GobValue Command) → List (LogEntry Command) × List (GobValue Command)
  | .log l' :: d => (l', d)
  | .int _ :: d => (l, d)
  | [] => (l, [])

/-- `readPersist`. -/
def readPersist (gob : Gob Command Bytes) (rf : Raft n Command Bytes)
    (p : Persister Bytes) : Raft n Command Bytes :=
  let d := savedValues gob p
  let (currentTerm, d) := decodeInt rf.currentTerm d
  let (votedFor, d) := decodeInt rf.votedFor d
  let (log, d) := decodeLog rf.log d
  let (voteGranted, d) := decodeInt rf.voteGranted d
  let (voteNotGranted, _) := decodeInt rf.voteNotGranted d
  { rf with currentTerm, votedFor, log, voteGranted, voteNotGranted }

/-- `Make`: a follower with empty channels, initialized from the persister. -/
def make (gob : Gob Command Bytes) (me : Fin n) (persister : Persister Bytes) :
    Raft n Command Bytes :=
  let rf : Raft n Command Bytes :=
    { me, persister
      currentTerm := 0, votedFor := -1, log := []
      committedIndex := -1, lastApplied := -1
      nextIndex := fun _ => 0, matchIndex := fun _ => 0
      state := .follower, voteGranted := 0, voteNotGranted := 0
      grantVoteCh := 0, heartBeatCh := 0, leaderCh := 0
      loopAt := .top, requestGo := 0, appendGo := fun _ => 0, nLeader := [] }
  readPersist gob rf persister

/-! ## `convertTo*` and `startApplyLogs` -/

/-- `convertToFollower`. -/
def convertToFollower (gob : Gob Command Bytes) (rf : Raft n Command Bytes)
    (term voteFor : Int) : Raft n Command Bytes :=
  persist gob { rf with
    currentTerm := term, state := .follower, votedFor := voteFor
    voteGranted := 0, voteNotGranted := 0 }

/-- `convertToCandidate`. -/
def convertToCandidate (gob : Gob Command Bytes) (rf : Raft n Command Bytes) :
    Raft n Command Bytes :=
  persist gob { rf with
    currentTerm := rf.currentTerm + 1, state := .candidate
    votedFor := (rf.me : Nat), voteGranted := 1, voteNotGranted := 0 }

/-- `convertToLeader`. -/
def convertToLeader (gob : Gob Command Bytes) (rf : Raft n Command Bytes) :
    Raft n Command Bytes :=
  persist gob { rf with
    state := .leader
    nextIndex := fun _ => rf.log.length, matchIndex := fun _ => -1 }

/-- The loop of `startApplyLogs`; the fuel is the distance `lastApplied` still
    has to go. -/
def applyLoop (log : List (LogEntry Command)) (committedIndex : Int) :
    Nat → Int → Option (Int × List (ApplyMsg Command))
  | 0, lastApplied => some (lastApplied, [])
  | fuel + 1, lastApplied =>
      if lastApplied < committedIndex ∧ lastApplied + 1 < log.length then do
        let entry ← goIndex log (lastApplied + 1)
        let (last, msgs) ← applyLoop log committedIndex fuel (lastApplied + 1)
        some (last, ⟨true, entry.command, lastApplied + 1⟩ :: msgs)
      else some (lastApplied, [])

/-- `startApplyLogs`, with the messages it sends on `applyCh`. -/
def startApplyLogs (rf : Raft n Command Bytes) :
    Option (Raft n Command Bytes × List (ApplyMsg Command)) := do
  let (lastApplied, msgs) ← applyLoop rf.log rf.committedIndex
    (rf.committedIndex - rf.lastApplied).toNat rf.lastApplied
  some ({ rf with lastApplied }, msgs)

/-! ## The RPC handlers -/

/-- The local `newer` of `RequestVote`: the candidate's log is at least as up
    to date as `log`. -/
def newer (log : List (LogEntry Command)) (args : RequestVoteArgs) : Bool :=
  match log.getLast? with
  | none => true
  | some last =>
      decide (args.lastLogTerm > last.term) ||
        (args.lastLogTerm == last.term
          && decide ((log.length : Int) ≤ args.lastLogIndex + 1))

/-- `RequestVote`.  `votedFor` is assigned before the terms are compared, on
    refusals as on grants. -/
def requestVote (gob : Gob Command Bytes) (rf : Raft n Command Bytes)
    (args : RequestVoteArgs) : Raft n Command Bytes × RequestVoteReply :=
  -- the first `if` clears the vote; the log is compared before the terms are
  let votedBefore := if args.term > rf.currentTerm then -1 else rf.votedFor
  let granted := newer rf.log args
    && (votedBefore == -1 || votedBefore == args.candidateID)
  let votedFor := if granted then args.candidateID else -1
  let rf1 := { rf with votedFor }
  -- a stale request is refused only in the reply: `rf.votedFor` has been assigned
  let voteGranted := if args.term < rf.currentTerm then false else granted
  let rf2 :=
    if args.term > rf.currentTerm then
      let rf3 := { rf1 with currentTerm := args.term }
      if rf.state ≠ .follower then convertToFollower gob rf3 rf3.currentTerm votedFor
      else rf3
    else rf1
  let rf4 := persist gob rf2
  ({ rf4 with grantVoteCh := rf4.grantVoteCh + if voteGranted then 1 else 0 },
    ⟨rf4.currentTerm, voteGranted⟩)

/-- The reply `AppendEntries` computes before it touches the log. -/
def consistencyCheck (log : List (LogEntry Command)) (currentTerm : Int)
    (args : AppendEntriesArgs Command) : Option AppendEntriesReply :=
  if args.term < currentTerm then some ⟨currentTerm, false, 0, 0⟩
  -- the follower's log is too short: it names its last index
  else if (log.length : Int) ≤ args.prevLogIndex then
    some ⟨currentTerm, false, (log.length : Int) - 1, -1⟩
  else if args.prevLogIndex = -1 then some ⟨currentTerm, true, 0, 0⟩
  else do
    let prev ← goIndex log args.prevLogIndex
    if prev.term ≠ args.prevLogTerm then
      -- another term at `PrevLogIndex`: the first index of that term is named
      let prevLogTerm := if args.prevLogIndex ≥ 0 then prev.term else -1
      if args.prevLogTerm ≠ prevLogTerm then
        let first := (log.findIdx? fun e => e.term == prevLogTerm).getD 0
        some ⟨currentTerm, false, (first : Nat), prevLogTerm⟩
      else some ⟨currentTerm, false, 0, 0⟩
    else some ⟨currentTerm, true, 0, 0⟩

/-- The first loop over `args.Entries`, at position `i`: cut the log at the
    first entry whose term differs.  The cut is at `PrevLogIndex+i`, one below
    the differing entry. -/
def truncateConflict (log : List (LogEntry Command)) (prevLogIndex : Int) :
    Nat → List (LogEntry Command) → Option (List (LogEntry Command))
  | _, [] => some log
  | i, e :: es =>
      if prevLogIndex + i + 1 ≥ log.length then some log
      else do
        let x ← goIndex log (prevLogIndex + i + 1)
        if x.term ≠ e.term then goSliceTo log (prevLogIndex + i)
        else truncateConflict log prevLogIndex (i + 1) es

/-- The second loop: append or overwrite entry by entry. -/
def writeEntries (prevLogIndex : Int) :
    Nat → List (LogEntry Command) → List (LogEntry Command) →
      Option (List (LogEntry Command))
  | _, [], log => some log
  | i, e :: es, log =>
      if prevLogIndex + i + 1 ≥ log.length then
        writeEntries prevLogIndex (i + 1) es (log ++ [e])
      else do
        let log' ← goSet log (prevLogIndex + i + 1) e
        writeEntries prevLogIndex (i + 1) es log'

/-- What a successful `AppendEntries` makes of the log. -/
def appendLog (log : List (LogEntry Command)) (prevLogIndex : Int)
    (entries : List (LogEntry Command)) : Option (List (LogEntry Command)) := do
  let log' ← truncateConflict log prevLogIndex 0 entries
  if prevLogIndex < log'.length then writeEntries prevLogIndex 0 entries log'
  else some log'

/-- The new `committedIndex`: clipped to the entries sent, then to the log. -/
def followCommit (committedIndex logLength : Int)
    (args : AppendEntriesArgs Command) : Int :=
  if args.leaderCommit > committedIndex then
    -- the leader may have committed more than this request carries
    let c := if args.leaderCommit > args.prevLogIndex + args.entries.length
      then args.prevLogIndex + args.entries.length else args.leaderCommit
    if c ≥ logLength then logLength - 1 else c
  else committedIndex

/-- The first lines of `AppendEntries`: adopt a higher term, keeping the vote. -/
def adoptTerm (gob : Gob Command Bytes) (rf : Raft n Command Bytes) (term : Int) :
    Raft n Command Bytes :=
  if term > rf.currentTerm then
    let rf1 := { rf with currentTerm := term }
    if rf.state ≠ .follower then convertToFollower gob rf1 rf1.currentTerm rf1.votedFor
    else rf1
  else rf

/-- The block `if reply.Success` of `AppendEntries`. -/
def acceptEntries (rf : Raft n Command Bytes) (args : AppendEntriesArgs Command)
    (success : Bool) : Option (Raft n Command Bytes × List (ApplyMsg Command)) :=
  if success then do
    let log ← appendLog rf.log args.prevLogIndex args.entries
    let committedIndex := followCommit rf.committedIndex log.length args
    startApplyLogs { rf with log, committedIndex }
  else some (rf, [])

/-- `AppendEntries`, with the reply and the messages sent on `applyCh`. -/
def appendEntries (gob : Gob Command Bytes) (rf : Raft n Command Bytes)
    (args : AppendEntriesArgs Command) :
    Option (Raft n Command Bytes × AppendEntriesReply × List (ApplyMsg Command)) := do
  let rf1 := adoptTerm gob rf args.term
  let reply ← consistencyCheck rf1.log rf1.currentTerm args
  let (rf2, msgs) ← acceptEntries rf1 args reply.success
  let rf3 := persist gob rf2
  some ({ rf3 with heartBeatCh := rf3.heartBeatCh + 1 }, reply, msgs)

/-- `Start`, with its three results. -/
def start (gob : Gob Command Bytes) (rf : Raft n Command Bytes) (command : Command) :
    Raft n Command Bytes × Int × Int × Bool :=
  if rf.state = .leader then
    (persist gob { rf with log := rf.log ++ [⟨command, rf.currentTerm⟩] },
      rf.log.length, rf.currentTerm, true)
  else (rf, -1, rf.currentTerm, false)

/-! ## Requests and replies in the goroutines -/

/-- The term of the last entry, `-1` on an empty log. -/
def lastLogTerm (log : List (LogEntry Command)) : Int :=
  match log.getLast? with
  | none => -1
  | some last => last.term

/-- A started `startRequestVote` goroutine runs: for a candidate it gives the
    arguments sent to every peer and the index of the call's own `nLeader`. -/
def startRequestVote (rf : Raft n Command Bytes) :
    Option (Raft n Command Bytes × Option (Nat × RequestVoteArgs)) :=
  if rf.requestGo = 0 then none
  else
    let rf1 := { rf with requestGo := rf.requestGo - 1 }
    -- the term is read when the goroutine runs, not when it was started
    if rf.state ≠ .candidate then some (rf1, none)
    else some ({ rf1 with nLeader := rf.nLeader ++ [0] },
      some (rf.nLeader.length,
        { term := rf.currentTerm
          candidateID := (rf.me : Nat)
          lastLogIndex := (rf.log.length : Int) - 1
          lastLogTerm := lastLogTerm rf.log }))

/-- The candidate's goroutine with a `RequestVote` reply. -/
def voteReply (gob : Gob Command Bytes) (rf : Raft n Command Bytes) (round : Nat)
    (args : RequestVoteArgs) (reply : RequestVoteReply) : Raft n Command Bytes :=
  if reply.term > rf.currentTerm then convertToFollower gob rf reply.term (-1)
  -- a reply of an earlier term, or after the election is over
  else if rf.currentTerm ≠ args.term ∨ rf.state ≠ .candidate then rf
  else if reply.voteGranted then
    let rf1 := { rf with voteGranted := rf.voteGranted + 1 }
    -- `nLeader` is a local of the round: each round converts once
    if rf.nLeader.getD round 0 = 0 ∧ rf1.voteGranted * 2 > (n : Int)
        ∧ rf1.state = .candidate then
      let rf2 := convertToLeader gob
        { rf1 with nLeader := rf.nLeader.modify round (· + 1) }
      persist gob { rf2 with leaderCh := rf2.leaderCh + 1 }
    else persist gob rf1
  else persist gob { rf with voteNotGranted := rf.voteNotGranted + 1 }

/-- `prevLogTerm` of a request: `-1` in front of the first entry. -/
def termAt (log : List (LogEntry Command)) (prevLogIndex : Int) : Option Int :=
  if prevLogIndex ≥ 0 then (goIndex log prevLogIndex).map LogEntry.term
  else some (-1)

/-- The `AppendEntriesArgs` a leader builds for peer `j`. -/
def appendRequest (rf : Raft n Command Bytes) (j : Fin n) :
    Option (AppendEntriesArgs Command) := do
  let prevLogIndex := rf.nextIndex j - 1
  let prevLogTerm ← termAt rf.log prevLogIndex
  let entries ← goSliceFrom rf.log (prevLogIndex + 1)
  some { term := rf.currentTerm, leaderID := (rf.me : Nat), prevLogIndex
         prevLogTerm, entries, leaderCommit := rf.committedIndex }

/-- A `startAppendEntries` goroutine for peer `j` at the top of its retry loop:
    it ends for the server itself or when no longer leader, else it sends. -/
def runAppendEntries (rf : Raft n Command Bytes) (j : Fin n) :
    Option (Raft n Command Bytes × Option (AppendEntriesArgs Command)) :=
  if rf.appendGo j = 0 then none
  else
    let rf1 := { rf with appendGo := Function.update rf.appendGo j (rf.appendGo j - 1) }
    if j = rf.me ∨ rf.state ≠ .leader then some (rf1, none)
    else do
      let args ← appendRequest rf j
      some (rf1, some args)

/-- `N`: the copy of `matchIndex` with the leader's own slot set to `len(log)`,
    sorted, at position `len(peers)/2`. -/
def commitCandidate (rf : Raft n Command Bytes) : Option Int :=
  let copyMatchIndex := Function.update rf.matchIndex rf.me (rf.log.length : Int)
  goIndex ((List.ofFn copyMatchIndex).insertionSort (· ≤ ·)) ((n / 2 : Nat) : Int)

/-- The commit rule: the new `committedIndex`. -/
def leaderCommitIndex (rf : Raft n Command Bytes) : Option Int := do
  let N ← commitCandidate rf
  if N > rf.committedIndex then
    let entry ← goIndex rf.log N
    some (if entry.term = rf.currentTerm then N else rf.committedIndex)
  else some rf.committedIndex

/-- The scan of the leader's log after a rejection, from position `i` on:
    the new `nextIndex`, or the old one when the scan assigns none. -/
def conflictScan (reply : AppendEntriesReply) (nextIndex : Int) :
    Nat → Bool → List (LogEntry Command) → Int
  | _, _, [] => nextIndex
  | i, hasConflictTerm, e :: es =>
      let has := hasConflictTerm || e.term == reply.conflictTerm
      if e.term > reply.conflictTerm then
        if has then (i : Int) else reply.conflictIndex
      else conflictScan reply nextIndex (i + 1) has es

/-- The leader's goroutine for peer `j` with an `AppendEntries` reply. -/
def appendReply (gob : Gob Command Bytes) (rf : Raft n Command Bytes) (j : Fin n)
    (args : AppendEntriesArgs Command) (reply : AppendEntriesReply) :
    Option (Raft n Command Bytes × List (ApplyMsg Command)) :=
  if reply.term > rf.currentTerm then
    some (convertToFollower gob rf reply.term (-1), [])
  -- a reply of an earlier term, or after a step down
  else if rf.currentTerm ≠ args.term ∨ rf.state ≠ .leader then some (rf, [])
  else if reply.success then do
    let matched := args.prevLogIndex + args.entries.length
    let rf1 := { rf with
      matchIndex := Function.update rf.matchIndex j matched
      nextIndex := Function.update rf.nextIndex j (matched + 1) }
    let committedIndex ← leaderCommitIndex rf1
    startApplyLogs { rf1 with committedIndex }
  else
    -- a rejection: the retry loop runs again with another `nextIndex`
    let scanned := conflictScan reply (rf.nextIndex j) 0 false rf.log
    let next := if scanned < 0 then 0 else scanned
    some ({ rf with
      nextIndex := Function.update rf.nextIndex j next
      appendGo := Function.update rf.appendGo j (rf.appendGo j + 1) }, [])

/-! ## The `heartBeat` loop -/

/-- The three signal channels. -/
inductive Signal where
  | grantVote
  | heartBeat
  | leader
  deriving DecidableEq, Repr

/-- What the `heartBeat` loop, or a goroutine that signals it, does next: the
    top of the loop, a round of `startAppendEntries`, one case of a `select`,
    or a signalling goroutine taking over the value of an earlier one. -/
inductive LoopEvent where
  | top
  | appendRound
  | candidateHeartBeat
  | candidateLeader
  | candidateTimer
  | followerGrantVote
  | followerHeartBeat
  | followerTimer
  | steal (c : Signal)
  deriving DecidableEq, Repr

/-- One step of the `heartBeat` loop; `none` when the step is not enabled. -/
def loopStep (gob : Gob Command Bytes) (rf : Raft n Command Bytes) :
    LoopEvent → Option (Raft n Command Bytes)
  | .top =>
      if rf.loopAt = .top then
        let rf1 := persist gob rf
        match rf.state with
        | .leader => some { rf1 with loopAt := .appending }
        | .candidate =>
            some { rf1 with loopAt := .candidateSelect, requestGo := rf.requestGo + 1 }
        | .follower => some { rf1 with loopAt := .followerSelect }
      else none
  | .appendRound =>
      if rf.loopAt = .appending then
        if rf.state ≠ .leader then some { rf with loopAt := .top }
        else some { rf with appendGo := fun j => rf.appendGo j + 1 }
      else none
  | .candidateHeartBeat =>
      if rf.loopAt = .candidateSelect ∧ 0 < rf.heartBeatCh then
        some { convertToFollower gob rf rf.currentTerm (-1) with
          heartBeatCh := rf.heartBeatCh - 1, loopAt := .top }
      else none
  | .candidateLeader =>
      if rf.loopAt = .candidateSelect ∧ 0 < rf.leaderCh then
        some { rf with leaderCh := rf.leaderCh - 1, loopAt := .top }
      else none
  | .candidateTimer =>
      if rf.loopAt = .candidateSelect then
        -- `continue`: a handler has made it a follower meanwhile
        if rf.state = .follower then some { rf with loopAt := .top }
        else if rf.voteNotGranted * 2 < (n : Int) then
          some { convertToCandidate gob rf with loopAt := .top }
        else some { convertToFollower gob rf rf.currentTerm (-1) with loopAt := .top }
      else none
  | .followerGrantVote =>
      if rf.loopAt = .followerSelect ∧ 0 < rf.grantVoteCh then
        some { rf with grantVoteCh := rf.grantVoteCh - 1, loopAt := .top }
      else none
  | .followerHeartBeat =>
      if rf.loopAt = .followerSelect ∧ 0 < rf.heartBeatCh then
        some { rf with heartBeatCh := rf.heartBeatCh - 1, loopAt := .top }
      else none
  | .followerTimer =>
      if rf.loopAt = .followerSelect then
        some { convertToCandidate gob rf with loopAt := .top }
      else none
  | .steal .grantVote =>
      if 1 < rf.grantVoteCh then some { rf with grantVoteCh := rf.grantVoteCh - 1 }
      else none
  | .steal .heartBeat =>
      if 1 < rf.heartBeatCh then some { rf with heartBeatCh := rf.heartBeatCh - 1 }
      else none
  | .steal .leader =>
      if 1 < rf.leaderCh then some { rf with leaderCh := rf.leaderCh - 1 }
      else none

/-! ## A server on its own -/

/-- Everything that can happen to one server, with arbitrary arguments. -/
inductive Input (n : Nat) (Command : Type) where
  | requestVote (args : RequestVoteArgs)
  | appendEntries (args : AppendEntriesArgs Command)
  | start (command : Command)
  | voteReply (round : Nat) (args : RequestVoteArgs) (reply : RequestVoteReply)
  | appendReply (j : Fin n) (args : AppendEntriesArgs Command)
      (reply : AppendEntriesReply)
  | loop (e : LoopEvent)
  | startRequestVote
  | runAppendEntries (j : Fin n)
  | restart

/-- One step of a server; `none` when the step panics or is not enabled.  A
    crash is `restart`: the process is gone and `Make` runs on its persister. -/
def serverStep (gob : Gob Command Bytes) (rf : Raft n Command Bytes) :
    Input n Command → Option (Raft n Command Bytes)
  | .requestVote args => some (requestVote gob rf args).1
  | .appendEntries args => (appendEntries gob rf args).map fun r => r.1
  | .start command => some (start gob rf command).1
  | .voteReply round args reply => some (voteReply gob rf round args reply)
  | .appendReply j args reply => (appendReply gob rf j args reply).map fun r => r.1
  | .loop e => loopStep gob rf e
  | .startRequestVote => (startRequestVote rf).map fun r => r.1
  | .runAppendEntries j => (runAppendEntries rf j).map fun r => r.1
  | .restart => some (make gob rf.me rf.persister)

end RaftServer
