import UniqueFreshman.GuardedRunProofs
import UniqueFreshman.RaftRecoveryProofs

/-! # One vote per term — a single server, whatever it is sent

    A server votes by a positive `RequestVote` reply, and for itself by becoming
    candidate.  The votes it has given are kept on a tape next to it, and its
    inputs are arbitrary: no cluster stands behind the requests.

    Nothing but `votedFor` remembers a vote, and it is reset to `-1` within a
    term in three places: by a refusal of `RequestVote` (also of a request of an
    earlier term), and by the `heartBeat` loop when a candidate hears a heart
    beat or its timer runs out with too many refusals.  `KeepsVote` says that a
    step does not do so to a vote given in the present term. -/

namespace RaftVote

open GuardedRun RaftServer RaftHandler RaftRecovery

variable {n : Nat} {Command Bytes : Type} {gob : Gob Command Bytes}

/-- A vote for `candidate` in `term`. -/
structure Vote where
  candidate : Int
  term : Int
  deriving DecidableEq, Repr

/-- A server and the votes it has given. -/
structure Voter (n : Nat) (Command Bytes : Type) where
  server : Raft n Command Bytes
  given : List Vote

/-- The votes given by one step: a granted request, or a candidacy (the `heartBeat`
    loop raises the term only in `convertToCandidate`). -/
def votesOf (gob : Gob Command Bytes) (rf rf' : Raft n Command Bytes) :
    Input n Command → List Vote
  | .requestVote args =>
      let reply := (requestVote gob rf args).2
      if reply.voteGranted then [⟨args.candidateID, reply.term⟩] else []
  | .loop _ =>
      if rf.currentTerm < rf'.currentTerm then [⟨(rf'.me : Nat), rf'.currentTerm⟩] else []
  | _ => []

/-- One step of a server, with its tape. -/
def voterStep (gob : Gob Command Bytes) (v : Voter n Command Bytes) (input : Input n Command) :
    Option (Voter n Command Bytes) :=
  (serverStep gob v.server input).map fun rf' =>
    ⟨rf', votesOf gob v.server rf' input ++ v.given⟩

/-- A fresh server. -/
def newVoter (gob : Gob Command Bytes) (me : Fin n) : Voter n Command Bytes :=
  ⟨make gob me ⟨none⟩, []⟩

/-! ## The condition -/

/-- The server has voted in its present term. -/
def HasVoted (v : Voter n Command Bytes) : Prop :=
  ∃ x ∈ v.given, x.term = v.server.currentTerm

/-- The step does not reset a vote of the present term. -/
def KeepsVote (v : Voter n Command Bytes) : Input n Command → Prop
  -- a candidate is a server; one that has the vote asks again, with a newer log
  | .requestVote args => args.candidateID ≠ -1 ∧
      (HasVoted v → args.term ≤ v.server.currentTerm →
        newer v.server.log args = true ∧ v.server.votedFor = args.candidateID)
  | .loop .candidateHeartBeat => ¬ HasVoted v
  | .loop .candidateTimer => HasVoted v →
      v.server.state = .follower ∨ v.server.voteNotGranted * 2 < (n : Int)
  | _ => True

instance (v : Voter n Command Bytes) : Decidable (HasVoted v) :=
  inferInstanceAs (Decidable (∃ x ∈ v.given, x.term = v.server.currentTerm))

instance (v : Voter n Command Bytes) : ∀ input, Decidable (KeepsVote v input)
  | .requestVote args => inferInstanceAs (Decidable (args.candidateID ≠ -1 ∧
      (HasVoted v → args.term ≤ v.server.currentTerm →
        newer v.server.log args = true ∧ v.server.votedFor = args.candidateID)))
  | .loop .candidateHeartBeat => inferInstanceAs (Decidable (¬ HasVoted v))
  | .loop .candidateTimer => inferInstanceAs (Decidable (HasVoted v →
      v.server.state = .follower ∨ v.server.voteNotGranted * 2 < (n : Int)))
  | .loop .top | .loop .appendRound | .loop .candidateLeader | .loop .followerGrantVote
  | .loop .followerHeartBeat | .loop .followerTimer | .loop (.steal _) => isTrue trivial
  | .appendEntries .. | .start .. | .voteReply .. | .appendReply .. | .startRequestVote
  | .runAppendEntries .. | .restart => isTrue trivial

/-! ## The invariant -/

/-- The votes given, and what the server remembers of them. -/
structure Faithful (gob : Gob Command Bytes) (v : Voter n Command Bytes) : Prop where
  durable : Durable gob v.server
  past : ∀ x ∈ v.given, x.term ≤ v.server.currentTerm
  named : ∀ x ∈ v.given, x.candidate ≠ -1
  recorded : ∀ x ∈ v.given, x.term = v.server.currentTerm → v.server.votedFor = x.candidate
  single : ∀ x ∈ v.given, ∀ y ∈ v.given, x.term = y.term → x.candidate = y.candidate

variable {v : Voter n Command Bytes} {rf' : Raft n Command Bytes}

/-- A step that gives no vote and keeps the one of the present term. -/
theorem Faithful.keep (h : Faithful gob v) (hdur : Durable gob rf')
    (hterm : v.server.currentTerm ≤ rf'.currentTerm)
    (hvote : HasVoted v → rf'.currentTerm = v.server.currentTerm →
      rf'.votedFor = v.server.votedFor) : Faithful gob ⟨rf', v.given⟩ := by
  refine ⟨hdur, fun x hx => (h.past x hx).trans hterm, h.named, fun x hx hnow => ?_, h.single⟩
  have hold : x.term = v.server.currentTerm := le_antisymm (h.past x hx) (hnow ▸ hterm)
  exact (hvote ⟨x, hx, hold⟩ (hnow.symm.trans hold)).trans (h.recorded x hx hold)

/-- A step that gives a vote: the first one of its term, or the same once more. -/
theorem Faithful.give (h : Faithful gob v) (hdur : Durable gob rf')
    (hterm : v.server.currentTerm ≤ rf'.currentTerm) (hnamed : rf'.votedFor ≠ -1)
    (hsame : HasVoted v → rf'.currentTerm = v.server.currentTerm →
      rf'.votedFor = v.server.votedFor) :
    Faithful gob ⟨rf', ⟨rf'.votedFor, rf'.currentTerm⟩ :: v.given⟩ := by
  have hkept := h.keep hdur hterm hsame
  refine ⟨hdur, ?_, ?_, ?_, ?_⟩
  · exact List.forall_mem_cons.mpr ⟨le_rfl, hkept.past⟩
  · exact List.forall_mem_cons.mpr ⟨hnamed, h.named⟩
  · exact List.forall_mem_cons.mpr ⟨fun _ => rfl, hkept.recorded⟩
  · -- an earlier vote of this term is the recorded one
    have hnew (x : Vote) (hx : x ∈ v.given) (hnow : x.term = rf'.currentTerm) :
        rf'.votedFor = x.candidate := hkept.recorded x hx hnow
    intro x hx y hy heq
    rcases List.mem_cons.mp hx with rfl | hx
    · rcases List.mem_cons.mp hy with rfl | hy
      · rfl
      · exact hnew y hy heq.symm
    · rcases List.mem_cons.mp hy with rfl | hy
      · exact (hnew x hx heq).symm
      · exact h.single x hx y hy heq

/-- `RequestVote`. -/
theorem Faithful.requestVote (h : Faithful gob v) {args : RequestVoteArgs}
    (hok : KeepsVote v (.requestVote args)) :
    Faithful gob ⟨(requestVote gob v.server args).1,
      votesOf gob v.server (requestVote gob v.server args).1 (.requestVote args)
        ++ v.given⟩ := by
  have hout := requestVote_spec gob v.server args
  have hdur : Durable gob (RaftServer.requestVote gob v.server args).1 :=
    serverStep_durable (e := .requestVote args) h.durable rfl
  have hterm : v.server.currentTerm ≤ (RaftServer.requestVote gob v.server args).1.currentTerm :=
    hout.currentTerm ▸ le_max_left ..
  by_cases hgr : (RaftServer.requestVote gob v.server args).2.voteGranted = true
  · obtain ⟨-, -, hfree, hvoted⟩ := hout.grant hgr
    rw [votesOf, if_pos hgr, ← hvoted, hout.replyTerm]
    refine h.give hdur hterm (hvoted ▸ hok.1) fun ⟨x, hx, hnow⟩ heq => ?_
    rcases hfree with hlt | hnone | hsame
    · have := hout.currentTerm
      omega
    · exact absurd ((h.recorded x hx hnow).symm.trans hnone) (h.named x hx)
    · exact hvoted.trans hsame.symm
  · rw [votesOf, if_neg hgr]
    refine h.keep hdur hterm fun hhas heq => ?_
    obtain ⟨hnewer, hsame⟩ := hok.2 hhas (by have := hout.currentTerm; omega)
    exact (hout.keep hnewer hsame).trans hsame.symm

/-- The `heartBeat` loop. -/
theorem Faithful.loop (h : Faithful gob v) {e : LoopEvent} (hok : KeepsVote v (.loop e))
    (hs : loopStep gob v.server e = some rf') :
    Faithful gob ⟨rf', votesOf gob v.server rf' (.loop e) ++ v.given⟩ := by
  have hdur : Durable gob rf' := serverStep_durable (e := .loop e) h.durable hs
  have hterm : v.server.currentTerm ≤ rf'.currentTerm :=
    serverStep_term_le (e := .loop e) h.durable hs
  rw [votesOf]
  rcases loopStep_cases hs with ⟨hcore, -⟩ | ⟨hwhy, hb, heq⟩ | ⟨-, heq⟩
  · rw [if_neg (by rw [hcore.currentTerm]; exact lt_irrefl _)]
    exact h.keep hdur hterm fun _ _ => hcore.votedFor
  · -- the vote is reset, so it must not be one of the present term
    have hsame : rf'.currentTerm = v.server.currentTerm := by rw [heq]; rfl
    rw [if_neg (by rw [hsame]; exact lt_irrefl _)]
    refine h.keep hdur hterm fun hhas _ => ?_
    rcases hwhy with rfl | ⟨rfl, hstate, hlost⟩
    · exact absurd hhas hok
    · exact absurd (hok hhas) (by rw [not_or]; exact ⟨hstate, hlost⟩)
  · have hnext : rf'.currentTerm = v.server.currentTerm + 1 := by rw [heq]; rfl
    have hself : rf'.votedFor = (rf'.me : Nat) := by rw [heq]; rfl
    rw [if_pos (by omega), ← hself]
    exact h.give hdur hterm (by omega) fun _ hold => by omega

/-- **STEP.** -/
theorem faithful_step {input : Input n Command} {v' : Voter n Command Bytes}
    (h : Faithful gob v) (hok : KeepsVote v input) (hv : voterStep gob v input = some v') :
    Faithful gob v' := by
  obtain ⟨rf', hs, rfl⟩ := Option.map_eq_some_iff.mp hv
  have hdur : Durable gob rf' := serverStep_durable h.durable hs
  have hterm : v.server.currentTerm ≤ rf'.currentTerm := serverStep_term_le h.durable hs
  cases input with
  | requestVote args =>
      obtain rfl := Option.some.inj hs
      exact h.requestVote hok
  | loop e => exact h.loop hok hs
  | appendEntries | start | voteReply | appendReply | startRequestVote | runAppendEntries |
    restart =>
      exact h.keep hdur hterm fun _ heq =>
        serverStep_votedFor h.durable hs (by rintro _ ⟨⟩) (by rintro _ ⟨⟩) heq

theorem faithful_new (gob : Gob Command Bytes) (me : Fin n) :
    Faithful gob (newVoter gob me) :=
  ⟨durable_fresh gob me, nofun, nofun, nofun, nofun⟩

/-- A vote, the same vote again, a crash, and a vote in the next term. -/
def steadyVoter : List (Input 3 Nat) :=
  [.requestVote ⟨1, 1, -1, -1⟩, .requestVote ⟨1, 1, -1, -1⟩, .restart,
    .requestVote ⟨2, 2, -1, -1⟩]

/-- Candidate `1` gets the vote of term `1`, candidate `2` is refused and asks again. -/
def askTwice : List (Input 3 Nat) :=
  [.requestVote ⟨1, 1, -1, -1⟩, .requestVote ⟨1, 2, -1, -1⟩, .requestVote ⟨1, 2, -1, -1⟩]

end RaftVote
