import UniqueFreshman.RaftHandlerProofs

/-! # The moves of a server — what one input can do to it

    `Move` lists, once, every way a step changes a server; facts about single
    servers are then proved by one `cases` over the moves.  Each move carries
    what the code has tested before it, and the new state where it is simple
    enough to write down. -/

namespace RaftMove

open GoSlice RaftServer RaftHandler

variable {n : Nat} {Command Bytes : Type} {gob : Gob Command Bytes}
variable {rf rf' : Raft n Command Bytes}

/-- The term that a request or a reply shows its receiver. -/
def shownTerm : Input n Command → Option Int
  | .requestVote args => some args.term
  | .appendEntries args => some args.term
  | .voteReply _ _ reply => some reply.term
  | .appendReply _ _ reply => some reply.term
  | .start _ | .loop _ | .startRequestVote | .runAppendEntries _ | .restart => none

/-- The moves, one constructor per way a step can change the core of a server. -/
inductive Move (gob : Gob Command Bytes) (rf : Raft n Command Bytes) :
    Input n Command → Raft n Command Bytes → Prop where
  /-- goroutines move, or a message is ignored -/
  | still {input : Input n Command} {rf' : Raft n Command Bytes} (hcore : SameCore rf rf')
      (hsaved : rf'.persister = rf.persister
        ∨ rf'.persister = ⟨some (gob.encode (persisted rf'))⟩) : Move gob rf input rf'
  /-- `RequestVote` -/
  | vote {args : RequestVoteArgs} {rf' : Raft n Command Bytes} {reply : RequestVoteReply}
      (hout : VoteOutcome gob rf args rf' reply) : Move gob rf (.requestVote args) rf'
  /-- `AppendEntries` -/
  | accept {args : AppendEntriesArgs Command} {rf' : Raft n Command Bytes}
      {reply : AppendEntriesReply} {msgs : List (ApplyMsg Command)}
      (happ : appendEntries gob rf args = some (rf', reply, msgs))
      (hout : AppendOutcome gob rf args rf' reply msgs) : Move gob rf (.appendEntries args) rf'
  /-- `Start` on a leader -/
  | append {command : Command} (hlead : rf.state = .leader) :
      Move gob rf (.start command)
        (persist gob { rf with log := rf.log ++ [⟨command, rf.currentTerm⟩] })
  /-- a reply shows a higher term -/
  | stepDown {input : Input n Command} {term : Int} (hshown : shownTerm input = some term)
      (hterm : rf.currentTerm < term) :
      Move gob rf input (convertToFollower gob rf term (-1))
  /-- a candidate counts a vote or a refusal and does not win yet -/
  | count {round : Nat} {args : RequestVoteArgs} {reply : RequestVoteReply} {yes no : Int}
      (hcand : rf.state = .candidate) :
      Move gob rf (.voteReply round args reply)
        (persist gob { rf with voteGranted := yes, voteNotGranted := no })
  /-- a candidate counts the deciding vote: `convertToLeader` -/
  | win {round : Nat} {args : RequestVoteArgs} {reply : RequestVoteReply} {yes : Int}
      {ch : Nat} {rounds : List Nat} (hcand : rf.state = .candidate) :
      Move gob rf (.voteReply round args reply)
        (persist gob { rf with
          voteGranted := yes, state := .leader
          nextIndex := fun _ => rf.log.length, matchIndex := fun _ => -1
          leaderCh := ch, nLeader := rounds })
  /-- a leader backs up after a rejection -/
  | backUp {j : Fin n} {args : AppendEntriesArgs Command} {reply : AppendEntriesReply}
      {go : Fin n → Nat} (hreply : reply.term ≤ rf.currentTerm)
      (hterm : rf.currentTerm = args.term) (hlead : rf.state = .leader)
      (hrej : reply.success = false) :
      Move gob rf (.appendReply j args reply)
        { rf with
          nextIndex := Function.update rf.nextIndex j
            (max 0 (conflictScan reply (rf.nextIndex j) 0 false rf.log))
          appendGo := go }
  /-- a leader records a match, applies the commit rule and then the log -/
  | matched {j : Fin n} {args : AppendEntriesArgs Command} {reply : AppendEntriesReply}
      {commit last : Int} (hreply : reply.term ≤ rf.currentTerm)
      (hterm : rf.currentTerm = args.term) (hlead : rf.state = .leader)
      (hsuc : reply.success = true)
      (hcommit : leaderCommitIndex (recordMatch rf j args) = some commit)
      (hlast : rf.lastApplied ≤ last) (hmax : last ≤ max rf.lastApplied commit) :
      Move gob rf (.appendReply j args reply)
        { recordMatch rf j args with committedIndex := commit, lastApplied := last }
  /-- the `heartBeat` loop gives up a candidacy in the same term -/
  | forget {e : LoopEvent} {hb : Nat}
      (hwhy : e = .candidateHeartBeat ∨ (e = .candidateTimer ∧ rf.state ≠ .follower)) :
      Move gob rf (.loop e) { convertToFollower gob rf rf.currentTerm (-1) with
        heartBeatCh := hb, loopAt := .top }
  /-- the `heartBeat` loop stands for election in the next term -/
  | stand {e : LoopEvent}
      (hwhy : e = .followerTimer ∨ (e = .candidateTimer ∧ rf.state ≠ .follower)) :
      Move gob rf (.loop e) { convertToCandidate gob rf with loopAt := .top }
  /-- crash and `Make` -/
  | restart : Move gob rf .restart (make gob rf.me rf.persister)

theorem SameCore.refl (rf : Raft n Command Bytes) : SameCore rf rf :=
  ⟨rfl, rfl, rfl, rfl, rfl, rfl, rfl, rfl, rfl, rfl, rfl⟩

/-- **INVERSION**: every step of a server is one of the moves. -/
theorem move_of_step {input : Input n Command} (hs : serverStep gob rf input = some rf') :
    Move gob rf input rf' := by
  cases input with
  | requestVote args =>
      obtain rfl := Option.some.inj hs
      exact .vote (requestVote_spec gob rf args)
  | appendEntries args =>
      obtain ⟨⟨rf', reply, msgs⟩, happ, rfl⟩ := Option.map_eq_some_iff.mp hs
      exact .accept happ (appendEntries_spec happ)
  | start command =>
      obtain rfl := Option.some.inj hs
      rw [start]
      split
      · rename_i hlead
        exact .append hlead
      · exact .still (SameCore.refl rf) (.inl rfl)
  | voteReply round args reply =>
      obtain rfl := Option.some.inj hs
      rcases voteReply_cases gob rf round args reply with
        ⟨hlt, heq⟩ | ⟨-, heq⟩ | ⟨-, hcand, -, heq⟩ | ⟨-, -, hcand, -, heq⟩ |
        ⟨-, -, hcand, -, -, ch, rounds, heq⟩
      · rw [heq]
        exact .stepDown rfl hlt
      · rw [heq]
        exact .still (SameCore.refl rf) (.inl rfl)
      · rw [heq]
        exact .count hcand
      · rw [heq]
        exact .count hcand
      · rw [heq]
        exact .win hcand
  | appendReply j args reply =>
      obtain ⟨⟨rf', msgs⟩, happ, rfl⟩ := Option.map_eq_some_iff.mp hs
      rcases appendReply_cases happ with ⟨hlt, rfl, -⟩ | ⟨-, rfl, -⟩ |
        ⟨hle, hterm, hlead, hrej, -, go, rfl⟩ |
        ⟨hle, hterm, hlead, hsuc, commit, last, hcommit, hlast, hmax, rfl, -⟩
      · exact .stepDown rfl hlt
      · exact .still (SameCore.refl _) (.inl rfl)
      · exact .backUp hle hterm hlead hrej
      · exact .matched hle hterm hlead hsuc hcommit hlast hmax
  | loop e =>
      rcases loopStep_cases hs with ⟨hcore, hsaved⟩ | ⟨hwhy, hb, rfl⟩ | ⟨hwhy, rfl⟩
      · exact .still hcore hsaved
      · exact .forget (hwhy.imp_right fun h => ⟨h.1, h.2.1⟩)
      · exact .stand hwhy
  | startRequestVote =>
      obtain ⟨⟨rf', out⟩, hgo, rfl⟩ := Option.map_eq_some_iff.mp hs
      obtain ⟨hcore, hsaved, -⟩ := startRequestVote_spec hgo
      exact .still hcore (.inl hsaved)
  | runAppendEntries j =>
      obtain ⟨⟨rf', out⟩, hgo, rfl⟩ := Option.map_eq_some_iff.mp hs
      obtain ⟨hcore, hsaved, -⟩ := runAppendEntries_spec hgo
      exact .still hcore (.inl hsaved)
  | restart =>
      obtain rfl := Option.some.inj hs
      exact .restart

end RaftMove
