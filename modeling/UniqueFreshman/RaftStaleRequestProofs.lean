import UniqueFreshman.RaftHandlerProofs

/-! # Stale requests — what a smaller term still does to its receiver

    A request of a term smaller than the receiver's is always refused.  Before
    the refusal `RequestVote` has assigned `votedFor`, and after it
    `AppendEntries` raises the heart beat:

    * a stale `RequestVote` is inert if the vote it assigns is the one recorded
      already;
    * a stale `AppendEntries` never is. -/

namespace RaftStaleRequest

open RaftServer RaftHandler

variable {n : Nat} {Command Bytes : Type}

/-- A request of either kind. -/
inductive Request (Command : Type) where
  | requestVote (args : RequestVoteArgs)
  | appendEntries (args : AppendEntriesArgs Command)

/-- The request's `Term`. -/
def Request.term : Request Command → Int
  | .requestVote args => args.term
  | .appendEntries args => args.term

/-- The handler: the new state, `VoteGranted` or `Success`, and the reply's `Term`. -/
def handle (gob : Gob Command Bytes) (rf : Raft n Command Bytes) :
    Request Command → Option (Raft n Command Bytes × Bool × Int)
  | .requestVote args =>
      let (rf', reply) := requestVote gob rf args
      some (rf', reply.voteGranted, reply.term)
  | .appendEntries args =>
      (appendEntries gob rf args).map fun (rf', reply, _) => (rf', reply.success, reply.term)

/-- No field of the protocol's state has changed, and no signal was raised. -/
structure Untouched (rf rf' : Raft n Command Bytes) : Prop where
  currentTerm : rf'.currentTerm = rf.currentTerm
  votedFor : rf'.votedFor = rf.votedFor
  log : rf'.log = rf.log
  committedIndex : rf'.committedIndex = rf.committedIndex
  lastApplied : rf'.lastApplied = rf.lastApplied
  state : rf'.state = rf.state
  grantVoteCh : rf'.grantVoteCh = rf.grantVoteCh
  heartBeatCh : rf'.heartBeatCh = rf.heartBeatCh

/-- The request is refused in the receiver's term and leaves it untouched. -/
def Inert (gob : Gob Command Bytes) (rf : Raft n Command Bytes) (req : Request Command) : Prop :=
  ∃ rf', handle gob rf req = some (rf', false, rf.currentTerm) ∧ Untouched rf rf'

/-- The vote that a stale `RequestVote` assigns is the one recorded: an up-to-date
    candidate's own, or none. -/
def AssignsSameVote (rf : Raft n Command Bytes) : Request Command → Prop
  | .requestVote args =>
      (newer rf.log args = true ∧ rf.votedFor = args.candidateID) ∨
      (newer rf.log args = false ∧ rf.votedFor = -1)
  | .appendEntries _ => False

/-- What a stale `RequestVote` does: it refuses, saves, and assigns the vote. -/
theorem requestVote_stale (gob : Gob Command Bytes) {rf : Raft n Command Bytes}
    {args : RequestVoteArgs} (hstale : args.term < rf.currentTerm) :
    requestVote gob rf args =
      (persist gob { rf with
        votedFor := if newer rf.log args && (rf.votedFor == -1 || rf.votedFor == args.candidateID)
          then args.candidateID else -1 }, ⟨rf.currentTerm, false⟩) := by
  have hle : ¬ args.term > rf.currentTerm := by omega
  simp only [requestVote, if_neg hle, if_pos hstale]
  rfl

/-- What a stale `AppendEntries` does: it refuses, saves, and raises the heart beat. -/
theorem appendEntries_stale (gob : Gob Command Bytes) {rf : Raft n Command Bytes}
    {args : AppendEntriesArgs Command} (hstale : args.term < rf.currentTerm) :
    appendEntries gob rf args =
      some ({ persist gob rf with heartBeatCh := rf.heartBeatCh + 1 },
        ⟨rf.currentTerm, false, 0, 0⟩, []) := by
  have hle : ¬ args.term > rf.currentTerm := by omega
  rw [appendEntries, adoptTerm, if_neg hle, consistencyCheck, if_pos hstale]
  rfl

/-- The vote assigned by a stale request is the recorded one. -/
theorem assignedVote_eq_iff (rf : Raft n Command Bytes) (args : RequestVoteArgs) :
    (if newer rf.log args && (rf.votedFor == -1 || rf.votedFor == args.candidateID)
      then args.candidateID else -1) = rf.votedFor ↔
      AssignsSameVote rf (Request.requestVote args : Request Command) := by
  rw [AssignsSameVote]
  cases hnewer : newer rf.log args with
  | false =>
      simp only [Bool.false_and, Bool.false_eq_true, if_false, false_and, true_and, false_or]
      exact eq_comm
  | true =>
      simp only [Bool.true_and, Bool.or_eq_true, beq_iff_eq, true_and, Bool.true_eq_false,
        false_and, or_false]
      split
      · exact eq_comm
      · rename_i hno
        rw [not_or] at hno
        exact iff_of_false (fun h => hno.1 h.symm) hno.2

/-- A follower of term `2` that has voted for server `1`. -/
def votedForOne : Raft 3 Nat (List (GobValue Nat)) :=
  { make (plainGob Nat) 0 ⟨none⟩ with currentTerm := 2, votedFor := 1 }

end RaftStaleRequest
