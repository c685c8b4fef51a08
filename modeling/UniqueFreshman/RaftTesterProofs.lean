import UniqueFreshman.RaftAppendEntriesProofs
import UniqueFreshman.RaftSafetyProofs

/-! # The tester — what `config.go` reads off the `applyCh`s

    `start1` starts a goroutine for each server that reads its `applyCh`, keeps
    what it reads in `cfg.logs` and ends the program when two servers apply
    different commands at one index, or when a server skips an index.
    `nCommitted` counts the servers that have applied an index.

    `Watched` is a cluster with the tester reading along.

    * `never_out_of_order` — no run at all makes a server skip an index: the
      loop of `startApplyLogs` sends one index after the other, and a restarted
      server begins again with indices the tester has seen.
    * `safe_runs_pass` — in a run that is safe the tester finds nothing, and its
      logs are what was applied.
    * `committed_is_final` — what `nCommitted` reports, and `one` and `wait`
      return, is never taken back. -/

namespace RaftTester

open GuardedRun GoSlice RaftServer RaftHandler RaftMove RaftCluster RaftAppendEntries RaftSafety
open TermLogSafety

/-- `config`: `logs[i]` is what server `i` has applied, by index. -/
structure Config (n : Nat) (Command : Type) where
  logs : Fin n → Int → Option Command
  maxIndex : Int

/-- The two errors that a reader of an `applyCh` reports. -/
inductive ApplyErr (n : Nat) (Command : Type) where
  /-- `commit index=… server=… … != server=… …` -/
  | commit (index : Int) (server : Fin n) (command : Command) (other : Fin n) (old : Command)
  /-- `server … apply out of order …` -/
  | outOfOrder (server : Fin n) (index : Int)

/-- `committed values do not match: index …, …, …` -/
structure CommitErr (Command : Type) where
  index : Int
  cmd : Option Command
  cmd1 : Command

variable {n : Nat} {Command Bytes : Type}

/-- `make_config`. -/
def makeConfig : Config n Command := ⟨fun _ _ => none, 0⟩

section Model

variable [DecidableEq Command]

/-- The loop over `cfg.logs`: the last server that has another command there is reported. -/
def mismatch (cfg : Config n Command) (i : Fin n) (m : ApplyMsg Command) :
    Option (ApplyErr n Command) :=
  (List.finRange n).foldl (fun err j =>
    match cfg.logs j m.commandIndex with
    | some old =>
        if old ≠ m.command then some (.commit m.commandIndex i m.command j old) else err
    | none => err) none

/-- The goroutine of `start1` takes a message; an error is fatal. -/
def readApply (cfg : Config n Command) (i : Fin n) (m : ApplyMsg Command) :
    Except (ApplyErr n Command) (Config n Command) :=
  if m.commandValid = false then .ok cfg
  else
    let err := mismatch cfg i m
    let prevok := (cfg.logs i (m.commandIndex - 1)).isSome
    let cfg' : Config n Command :=
      { logs := Function.update cfg.logs i
          (Function.update (cfg.logs i) m.commandIndex (some m.command))
        maxIndex := if m.commandIndex > cfg.maxIndex then m.commandIndex else cfg.maxIndex }
    if m.commandIndex > 1 ∧ prevok = false then .error (.outOfOrder i m.commandIndex)
    else
      match err with
      | some err => .error err
      | none => .ok cfg'

/-- Messages are taken in the order in which they were sent. -/
def readAll (cfg : Config n Command) (sent : List (Fin n × ApplyMsg Command)) :
    Except (ApplyErr n Command) (Config n Command) :=
  sent.foldlM (fun cfg p => readApply cfg p.1 p.2) cfg

/-- One server of the loop of `nCommitted`. -/
def countServer (cfg : Config n Command) (index : Int) :
    Nat × Option Command → Fin n → Except (CommitErr Command) (Nat × Option Command) :=
  fun (count, cmd) i =>
    match cfg.logs i index with
    | some cmd1 =>
        if 0 < count ∧ cmd ≠ some cmd1 then .error ⟨index, cmd, cmd1⟩
        else .ok (count + 1, some cmd1)
    | none => .ok (count, cmd)

/-- `nCommitted`. -/
def nCommitted (cfg : Config n Command) (index : Int) :
    Except (CommitErr Command) (Nat × Option Command) :=
  (List.finRange n).foldlM (countServer cfg index) (0, none)

/-- A cluster, and what the tester has found. -/
structure Watched (n : Nat) (Command Bytes : Type) where
  cluster : Cluster n Command Bytes
  verdict : Except (ApplyErr n Command) (Config n Command)

def watchedInitial (gob : Gob Command Bytes) : Watched n Command Bytes :=
  ⟨initial gob, .ok makeConfig⟩

/-- A step of the cluster, and what it sends on an `applyCh` is read. -/
def watch (gob : Gob Command Bytes) (w : Watched n Command Bytes) (e : Event n Command) :
    Option (Watched n Command Bytes) := do
  let c ← clusterStep gob w.cluster e
  let sent := c.applied.take (c.applied.length - w.cluster.applied.length)
  some ⟨c, w.verdict.bind (readAll · sent)⟩

end Model

/-! ## What a step sends -/

variable {gob : Gob Command Bytes} {rf rf' : Raft n Command Bytes}
  {c c' : Cluster n Command Bytes} {msgs : List (ApplyMsg Command)} {last last' : Int}

/-- The messages are those of the indices behind `last` up to `last'`, in order. -/
inductive Sends : Int → List (ApplyMsg Command) → Int → Prop where
  | done (last : Int) : Sends last [] last
  | next {last last' : Int} {msgs : List (ApplyMsg Command)} (command : Command)
      (h : Sends (last + 1) msgs last') : Sends last (⟨true, command, last + 1⟩ :: msgs) last'

/-- The loop applies one entry after the other, by induction on its turns. -/
theorem applyLoop_sends {log : List (LogEntry Command)} {committedIndex : Int} {fuel : Nat}
    (h : applyLoop log committedIndex fuel last = some (last', msgs)) :
    Sends last msgs last' := by
  induction fuel generalizing last msgs with
  | zero =>
      obtain ⟨rfl, rfl⟩ := Prod.mk.inj (Option.some.inj h)
      exact .done _
  | succ fuel ih =>
      rw [applyLoop] at h
      split at h
      · obtain ⟨entry, -, h⟩ := Option.bind_eq_some_iff.mp h
        obtain ⟨⟨last₁, msgs₁⟩, hrest, h⟩ := Option.bind_eq_some_iff.mp h
        cases h
        exact .next entry.command (ih hrest)
      · obtain ⟨rfl, rfl⟩ := Prod.mk.inj (Option.some.inj h)
        exact .done _

/-- What `startApplyLogs` sends is numbered without a gap. -/
theorem startApplyLogs_sends (h : startApplyLogs rf = some (rf', msgs)) :
    Sends rf.lastApplied msgs rf'.lastApplied := by
  obtain ⟨⟨last, msgs₁⟩, hloop, h⟩ := Option.bind_eq_some_iff.mp h
  cases h
  exact applyLoop_sends hloop

/-- So is what the handler of `AppendEntries` sends, -/
theorem appendEntries_sends {args : AppendEntriesArgs Command} {reply : AppendEntriesReply}
    (h : appendEntries gob rf args = some (rf', reply, msgs)) :
    Sends rf.lastApplied msgs rf'.lastApplied := by
  rw [← adoptTerm_lastApplied gob rf args.term]
  obtain ⟨reply₁, -, h⟩ := Option.bind_eq_some_iff.mp h
  obtain ⟨⟨rf₂, msgs₂⟩, haccept, h⟩ := Option.bind_eq_some_iff.mp h
  cases h
  show Sends _ msgs rf₂.lastApplied
  rw [acceptEntries] at haccept
  split at haccept
  · obtain ⟨log, -, haccept⟩ := Option.bind_eq_some_iff.mp haccept
    have hsends := startApplyLogs_sends haccept
    exact hsends
  · cases haccept
    exact .done _

/-- and what the leader sends on a reply. -/
theorem appendReply_sends {j : Fin n} {args : AppendEntriesArgs Command}
    {reply : AppendEntriesReply} (h : appendReply gob rf j args reply = some (rf', msgs)) :
    Sends rf.lastApplied msgs rf'.lastApplied := by
  rw [appendReply] at h
  split at h
  · cases h
    exact .done _
  · split at h
    · cases h
      exact .done _
    · split at h
      · obtain ⟨commit, -, h⟩ := Option.bind_eq_some_iff.mp h
        have hsends := startApplyLogs_sends h
        exact hsends
      · cases h
        exact .done _

/-- The inputs that neither reach `startApplyLogs` nor start over. -/
def Silent : Input n Command → Prop
  | .appendEntries _ | .appendReply .. | .restart => False
  | .requestVote _ | .start _ | .voteReply .. | .loop _ | .startRequestVote |
    .runAppendEntries _ => True

/-- They leave `lastApplied` alone. -/
theorem serverStep_keeps_lastApplied {input : Input n Command}
    (h : serverStep gob rf input = some rf') (hsilent : Silent input) :
    rf'.lastApplied = rf.lastApplied := by
  cases move_of_step h with
  | still hcore _ => exact hcore.lastApplied
  | vote hout => exact hout.lastApplied
  | accept | matched | restart => exact hsilent.elim
  | append | stepDown | count | win | backUp | forget | stand => rfl

/-- What a step of the cluster sends on an `applyCh`. -/
inductive Applies (c c' : Cluster n Command Bytes) : Prop where
  /-- nothing -/
  | nothing (happlied : c'.applied = c.applied)
      (hlast : ∀ s, (c'.servers s).lastApplied = (c.servers s).lastApplied)
  /-- a handler or a goroutine of `s` goes on where `s` has stopped -/
  | sends (s : Fin n) (msgs : List (ApplyMsg Command))
      (happlied : c'.applied = msgs.map (fun m => (s, m)) ++ c.applied)
      (hsends : Sends (c.servers s).lastApplied msgs (c'.servers s).lastApplied)
      (hothers : ∀ t, t ≠ s → (c'.servers t).lastApplied = (c.servers t).lastApplied)
  /-- `s` starts again -/
  | restart (s : Fin n) (happlied : c'.applied = c.applied)
      (hlast : (c'.servers s).lastApplied = -1)
      (hothers : ∀ t, t ≠ s → (c'.servers t).lastApplied = (c.servers t).lastApplied)

/-- A step that sends nothing and applies nothing. -/
theorem Applies.of_update {s : Fin n} {rf' : Raft n Command Bytes}
    (hservers : c'.servers = Function.update c.servers s rf')
    (happlied : c'.applied = c.applied) (hlast : rf'.lastApplied = (c.servers s).lastApplied) :
    Applies c c' := by
  refine .nothing happlied fun t => ?_
  rw [hservers]
  by_cases ht : t = s
  · subst ht
    rw [Function.update_self, hlast]
  · rw [Function.update_of_ne ht]

/-- A step in which one server sends. -/
theorem Applies.of_sends {s : Fin n} {rf' : Raft n Command Bytes}
    (hservers : c'.servers = Function.update c.servers s rf')
    (happlied : c'.applied = msgs.map (fun m => (s, m)) ++ c.applied)
    (hsends : Sends (c.servers s).lastApplied msgs rf'.lastApplied) : Applies c c' := by
  refine .sends s msgs happlied ?_ fun t ht => ?_
  · rw [hservers, Function.update_self]
    exact hsends
  · rw [hservers, Function.update_of_ne ht]

/-- **EVERY STEP** of a cluster applies in order. -/
theorem applies_of_clusterStep {e : Event n Command} (h : clusterStep gob c e = some c') :
    Applies c c' := by
  cases e with
  | start s command =>
      cases h
      have hstep : serverStep gob (c.servers s) (.start command) =
          some (start gob (c.servers s) command).1 := rfl
      exact .of_update (s := s) rfl rfl (serverStep_keeps_lastApplied hstep trivial)
  | loop s e =>
      obtain ⟨rf', hloop, h⟩ := Option.bind_eq_some_iff.mp h
      cases h
      have hstep : serverStep gob (c.servers s) (.loop e) = some rf' := hloop
      exact .of_update (s := s) rfl rfl (serverStep_keeps_lastApplied hstep trivial)
  | startRequestVote s =>
      obtain ⟨⟨rf', out⟩, hout, h⟩ := Option.bind_eq_some_iff.mp h
      cases h
      exact .of_update (s := s) rfl rfl (startRequestVote_spec hout).1.lastApplied
  | runAppendEntries s j =>
      obtain ⟨⟨rf', out⟩, hout, h⟩ := Option.bind_eq_some_iff.mp h
      cases h
      exact .of_update (s := s) rfl rfl (runAppendEntries_spec hout).1.lastApplied
  | deliver i =>
      obtain ⟨m, -, h⟩ := Option.bind_eq_some_iff.mp h
      cases m with
      | requestVote caller dst inc round args =>
          cases h
          exact .of_update (s := dst) rfl rfl (requestVote_spec gob _ args).lastApplied
      | requestVoteReply s voter inc round args reply =>
          simp only [receive] at h
          split at h
          · cases h
            have hstep : serverStep gob (c.servers s) (.voteReply round args reply) =
                some (voteReply gob (c.servers s) round args reply) := rfl
            exact .of_update (s := s) rfl rfl
              (serverStep_keeps_lastApplied hstep trivial)
          · cases h
            exact .nothing rfl fun _ => rfl
      | appendEntries caller dst inc args =>
          obtain ⟨⟨rf', reply, msgs⟩, hout, h⟩ := Option.bind_eq_some_iff.mp h
          cases h
          exact .of_sends (s := dst) rfl rfl (appendEntries_sends hout)
      | appendEntriesReply s j inc args reply =>
          simp only [receive] at h
          split at h
          · obtain ⟨⟨rf', msgs⟩, hout, h⟩ := Option.bind_eq_some_iff.mp h
            cases h
            exact .of_sends (s := s) rfl rfl (appendReply_sends hout)
          · cases h
            exact .nothing rfl fun _ => rfl
  | drop i =>
      simp only [clusterStep] at h
      split at h
      · cases h
        exact .nothing rfl fun _ => rfl
      · cases h
  | restart s =>
      cases h
      refine .restart s rfl ?_ fun t ht => ?_
      · show (Function.update c.servers s _ s).lastApplied = -1
        rw [Function.update_self]
        rfl
      · show (Function.update c.servers s _ t).lastApplied = _
        rw [Function.update_of_ne ht]

/-! ## What the tester makes of it -/

section Reader

variable [DecidableEq Command] {cfg cfg' : Config n Command} {s : Fin n}
  {err : ApplyErr n Command}

/-- The tester has seen every index of `s` up to `last`. -/
def Covers (cfg : Config n Command) (s : Fin n) (last : Int) : Prop :=
  ∀ k, 0 ≤ k → k ≤ last → (cfg.logs s k).isSome

/-- The error is that two servers disagree. -/
def IsCommit : ApplyErr n Command → Prop
  | .commit .. => True
  | .outOfOrder .. => False

/-- The loop over the logs reports a server that has another command. -/
theorem mismatch_eq_some {m : ApplyMsg Command} (h : mismatch cfg s m = some err) :
    ∃ j old, cfg.logs j m.commandIndex = some old ∧ old ≠ m.command ∧
      err = .commit m.commandIndex s m.command j old := by
  refine List.foldlRecOn (List.finRange n) _ (motive := fun acc => ∀ err, acc = some err →
    ∃ j old, cfg.logs j m.commandIndex = some old ∧ old ≠ m.command ∧
      err = .commit m.commandIndex s m.command j old) ?_ ?_ err h
  · intro err herr
    exact nomatch herr
  · intro acc hacc j _ err herr
    split at herr
    · next old hold =>
        split at herr
        · next hne =>
            cases herr
            exact ⟨j, old, hold, hne, rfl⟩
        · exact hacc err herr
    · exact hacc err herr

/-- The logs after a message was taken. -/
theorem logs_of_readApply {command : Command} {k : Int}
    (h : readApply cfg s ⟨true, command, k⟩ = .ok cfg') :
    mismatch cfg s ⟨true, command, k⟩ = none ∧
      cfg'.logs = Function.update cfg.logs s (Function.update (cfg.logs s) k (some command)) := by
  simp only [readApply] at h
  split at h
  · next hfalse => exact nomatch hfalse
  · split at h
    · cases h
    · split at h
      · cases h
      · next hnone =>
          cases h
          exact ⟨hnone, rfl⟩

/-- The tester's log of a server grows by the index it is sent. -/
theorem covers_of_readApply {command : Command} {last : Int} (hcovers : Covers cfg s last)
    (h : readApply cfg s ⟨true, command, last + 1⟩ = .ok cfg') : Covers cfg' s (last + 1) := by
  intro k hk hle
  rw [(logs_of_readApply h).2, Function.update_self]
  by_cases heq : k = last + 1
  · rw [heq, Function.update_self]
    rfl
  · rw [Function.update_of_ne heq]
    exact hcovers k hk (by omega)

/-- The logs of the other servers stay. -/
theorem logs_of_readApply_of_ne {command : Command} {k : Int} {t : Fin n} (ht : t ≠ s)
    (h : readApply cfg s ⟨true, command, k⟩ = .ok cfg') : cfg'.logs t = cfg.logs t := by
  rw [(logs_of_readApply h).2, Function.update_of_ne ht]

/-- The next index is never out of order. -/
theorem readApply_error {command : Command} {last : Int} (hcovers : Covers cfg s last)
    (h : readApply cfg s ⟨true, command, last + 1⟩ = .error err) :
    mismatch cfg s ⟨true, command, last + 1⟩ = some err := by
  simp only [readApply] at h
  split at h
  · next hfalse => exact nomatch hfalse
  · split at h
    · next hskip =>
        have hseen := hcovers last (by omega) le_rfl
        rw [show last + 1 - 1 = last by omega, hseen] at hskip
        exact nomatch hskip.2
    · split at h
      · next err' herr =>
          cases h
          exact herr
      · cases h

/-- A server's messages are read. -/
theorem readAll_cons (cfg : Config n Command) (p : Fin n × ApplyMsg Command)
    (sent : List (Fin n × ApplyMsg Command)) :
    readAll cfg (p :: sent) = (readApply cfg p.1 p.2).bind (readAll · sent) := by
  rw [readAll, List.foldlM_cons]
  rfl

theorem readAll_covers (h : Sends last msgs last') (hcovers : Covers cfg s last)
    (hread : readAll cfg (msgs.map fun m => (s, m)) = .ok cfg') :
    Covers cfg' s last' ∧ ∀ t, t ≠ s → cfg'.logs t = cfg.logs t := by
  induction h generalizing cfg with
  | done last =>
      cases hread
      exact ⟨hcovers, fun _ _ => rfl⟩
  | next command _ ih =>
      rw [List.map_cons, readAll_cons] at hread
      cases hone : readApply cfg s ⟨true, command, _⟩ with
      | error err =>
          rw [hone] at hread
          cases hread
      | ok cfg₁ =>
          rw [hone] at hread
          obtain ⟨hcovers', hothers⟩ := ih (covers_of_readApply hcovers hone) hread
          refine ⟨hcovers', fun t ht => ?_⟩
          rw [hothers t ht, logs_of_readApply_of_ne ht hone]

/-- What is sent in order can fail the check for agreement only, not the one for order. -/
theorem readAll_error (h : Sends last msgs last') (hcovers : Covers cfg s last)
    (hread : readAll cfg (msgs.map fun m => (s, m)) = .error err) : IsCommit err := by
  induction h generalizing cfg with
  | done last => cases hread
  | next command _ ih =>
      rw [List.map_cons, readAll_cons] at hread
      cases hone : readApply cfg s ⟨true, command, _⟩ with
      | error err' =>
          rw [hone] at hread
          cases hread
          obtain ⟨j, old, -, -, rfl⟩ := mismatch_eq_some (readApply_error hcovers hone)
          trivial
      | ok cfg₁ =>
          rw [hone] at hread
          exact ih (covers_of_readApply hcovers hone) hread

end Reader

/-! ## Runs of any kind -/

section Any

variable [DecidableEq Command] {w w' : Watched n Command Bytes} {e : Event n Command}

theorem take_sent {α : Type} (sent applied : List α) :
    (sent ++ applied).take ((sent ++ applied).length - applied.length) = sent := by
  rw [List.length_append, Nat.add_sub_cancel, List.take_left]

/-- What the step sends, and what the tester has read then. -/
theorem watch_cases (h : watch gob w e = some w') :
    clusterStep gob w.cluster e = some w'.cluster ∧
      ∀ sent, w'.cluster.applied = sent ++ w.cluster.applied →
        w'.verdict = w.verdict.bind (readAll · sent) := by
  obtain ⟨c, hstep, h⟩ := Option.bind_eq_some_iff.mp h
  cases h
  refine ⟨hstep, fun sent hsent => ?_⟩
  dsimp only at hsent ⊢
  rw [hsent, take_sent]

/-- The tester has found nothing but disagreement, and has seen all that the servers count as
    applied. -/
def Ordered (w : Watched n Command Bytes) : Prop :=
  match w.verdict with
  | .error err => IsCommit err
  | .ok cfg => ∀ s, Covers cfg s (w.cluster.servers s).lastApplied

/-- **STEP LEMMA.** -/
theorem ordered_step (hw : Ordered w) (h : watch gob w e = some w') : Ordered w' := by
  obtain ⟨hstep, hverdict⟩ := watch_cases h
  cases hv : w.verdict with
  | error err =>
      rw [Ordered, hv] at hw
      -- the program has ended
      have hsame : w'.verdict = .error err := by
        cases applies_of_clusterStep hstep with
        | nothing happlied _ | restart _ happlied _ _ =>
            rw [hverdict [] happlied, hv]
            rfl
        | sends s msgs happlied _ _ =>
            rw [hverdict _ happlied, hv]
            rfl
      rw [Ordered, hsame]
      exact hw
  | ok cfg =>
      rw [Ordered, hv] at hw
      cases applies_of_clusterStep hstep with
      | nothing happlied hlast =>
          have hsame : w'.verdict = .ok cfg := by
            rw [hverdict [] happlied, hv]
            rfl
          rw [Ordered, hsame]
          intro s
          rw [hlast s]
          exact hw s
      | restart s happlied hlast hothers =>
          have hsame : w'.verdict = .ok cfg := by
            rw [hverdict [] happlied, hv]
            rfl
          rw [Ordered, hsame]
          intro t
          by_cases ht : t = s
          · subst ht
            rw [hlast]
            intro k hk hle
            omega
          · rw [hothers t ht]
            exact hw t
      | sends s msgs happlied hsends hothers =>
          have hread : w'.verdict = readAll cfg (msgs.map fun m => (s, m)) := by
            rw [hverdict _ happlied, hv]
            rfl
          rw [Ordered, hread]
          cases hout : readAll cfg (msgs.map fun m => (s, m)) with
          | error err => exact readAll_error hsends (hw s) hout
          | ok cfg' =>
              obtain ⟨hcovers, hsame⟩ := readAll_covers hsends (hw s) hout
              intro t
              by_cases ht : t = s
              · subst ht
                exact hcovers
              · intro k hk hle
                rw [hothers t ht] at hle
                rw [hsame t ht]
                exact hw t k hk hle

/-- **NEVER OUT OF ORDER**: whatever the network and the crashes do, and even where servers
    disagree about a command, no server ever skips an index. -/
theorem never_out_of_order (gob : Gob Command Bytes) (w : Watched n Command Bytes)
    (h : Reaches (watch gob) (watchedInitial gob) w) (s : Fin n) (index : Int) :
    w.verdict ≠ .error (.outOfOrder s index) := by
  have hordered : Ordered w := by
    refine h.invariant (I := Ordered) ?_ fun _ _ _ hw hstep => ordered_step hw hstep
    intro s k hk hle
    have hle' : k ≤ -1 := hle
    omega
  intro herr
  rw [Ordered, herr] at hordered
  exact hordered

end Any

/-- The two leaders of `commitTwice` make servers disagree; that is what the tester reports. -/
theorem never_out_of_order_of_commitTwice :
    ∃ w : Watched 3 Nat (List (GobValue Nat)),
      Reaches (watch (plainGob Nat)) (watchedInitial (plainGob Nat)) w ∧
      w.verdict.isOk = false ∧ w.verdict ≠ .error (.outOfOrder 0 0) := by
  have hfound : (steps (watch (plainGob Nat)) (watchedInitial (plainGob Nat)) commitTwice).map
      (fun w => w.verdict.isOk) = some false := by
    decide +kernel
  obtain ⟨w, hw, hverdict⟩ := Option.map_eq_some_iff.mp hfound
  exact ⟨w, reaches_of_steps hw, hverdict,
    never_out_of_order (plainGob Nat) w (reaches_of_steps hw) 0 0⟩

/-! ## Safe runs -/

section Safe

/-- Servers that apply an index apply the same command there. -/
def Agree (applied : List (Fin n × ApplyMsg Command)) : Prop :=
  ∀ p ∈ applied, ∀ q ∈ applied, p.2.commandIndex = q.2.commandIndex → p.2.command = q.2.command

/-- In a safe run whatever is applied was chosen, and what is chosen agrees. -/
theorem agree_of_run {cs : List (Cluster n Command Bytes)}
    (h : ClusterRun gob SafeStep (c :: cs)) : Agree c.applied := by
  obtain ⟨a, ha⟩ := run_safe h
  intro p hp q hq hindex
  obtain ⟨T, j, i, e, hT, hij, he, hpmsg⟩ := ha.backed.applied p hp
  obtain ⟨U, k, i', f, hU, hik, hf, hqmsg⟩ := ha.backed.applied q hq
  rw [hpmsg, hqmsg] at hindex ⊢
  obtain rfl : i = i' := Int.ofNat.inj hindex
  have hagree := chosen_agree ha.complete hT hU hij hik
  rw [he, hf] at hagree
  exact congrArg LogEntry.command (Option.some.inj hagree)

/-- What was applied stays on the tape. -/
theorem applied_grows {ok : Cluster n Command Bytes → Event n Command → Prop}
    {cs : List (Cluster n Command Bytes)} (h : ClusterRun gob ok (c' :: cs)) :
    ∀ c ∈ c' :: cs, ∀ p ∈ c.applied, p ∈ c'.applied := by
  refine h.rel_head (R := fun c c' => ∀ p ∈ c.applied, p ∈ c'.applied) (Q := fun _ => True)
    (fun _ _ hp => hp) (fun _ _ _ h₁ h₂ p hp => h₂ p (h₁ p hp)) (fun _ _ h => h) ?_ trivial
  intro c _ e c' _ _ _ hs p hp
  cases applies_of_clusterStep hs with
  | nothing happlied _ | restart _ happlied _ _ =>
      rw [happlied]
      exact hp
  | sends s msgs happlied _ _ =>
      rw [happlied]
      exact List.mem_append_right _ hp

variable [DecidableEq Command] {cfg cfg' : Config n Command}
  {applied all : List (Fin n × ApplyMsg Command)} {w w' : Watched n Command Bytes}
  {ws : List (Watched n Command Bytes)}

/-- The tester's logs are what was applied. -/
def Records (cfg : Config n Command) (applied : List (Fin n × ApplyMsg Command)) : Prop :=
  ∀ s k v, cfg.logs s k = some v ↔ (s, ⟨true, v, k⟩) ∈ applied

/-- If all that is ever applied agrees, the check passes, and the message is recorded. -/
theorem readApply_records {s : Fin n} {command : Command} (hagree : Agree all)
    (hsub : ∀ p ∈ applied, p ∈ all) (hmem : (s, ⟨true, command, last + 1⟩) ∈ all)
    (hrecords : Records cfg applied) (hcovers : Covers cfg s last) :
    ∃ cfg', readApply cfg s ⟨true, command, last + 1⟩ = .ok cfg' ∧
      Records cfg' ((s, ⟨true, command, last + 1⟩) :: applied) := by
  cases hread : readApply cfg s ⟨true, command, last + 1⟩ with
  | error err =>
      -- the other command was applied, too
      obtain ⟨j, old, hold, hne, -⟩ := mismatch_eq_some (readApply_error hcovers hread)
      exact absurd (hagree _ (hsub _ ((hrecords j _ old).mp hold)) _ hmem rfl) hne
  | ok cfg' =>
      refine ⟨cfg', rfl, fun t k v => ?_⟩
      rw [(logs_of_readApply hread).2, List.mem_cons]
      by_cases ht : t = s
      · subst ht
        rw [Function.update_self]
        by_cases hk : k = last + 1
        · subst hk
          rw [Function.update_self]
          constructor
          · intro hv
            rw [Option.some.inj hv]
            exact .inl rfl
          · rintro (heq | happlied)
            · cases heq
              rfl
            · exact congrArg some (hagree _ hmem _ (hsub _ happlied) rfl)
        · rw [Function.update_of_ne hk, hrecords t k v]
          refine (or_iff_right fun heq => hk ?_).symm
          cases heq
          rfl
      · rw [Function.update_of_ne ht, hrecords t k v]
        refine (or_iff_right fun heq => ht ?_).symm
        cases heq
        rfl

theorem readAll_records {s : Fin n} (h : Sends last msgs last') (hagree : Agree all)
    (hsub : ∀ p ∈ applied, p ∈ all) (hmem : ∀ m ∈ msgs, (s, m) ∈ all)
    (hrecords : Records cfg applied) (hcovers : Covers cfg s last) :
    ∃ cfg', readAll cfg (msgs.map fun m => (s, m)) = .ok cfg' ∧
      Records cfg' (msgs.map (fun m => (s, m)) ++ applied) := by
  induction h generalizing cfg applied with
  | done last => exact ⟨cfg, rfl, hrecords⟩
  | next command _ ih =>
      have hone := hmem _ List.mem_cons_self
      obtain ⟨cfg₁, hread, hrecords₁⟩ := readApply_records hagree hsub hone hrecords hcovers
      obtain ⟨cfg', hrest, hrecords'⟩ := ih
        (fun p hp => (List.mem_cons.mp hp).elim (fun heq => heq ▸ hone) (hsub p))
        (fun m hm => hmem m (List.mem_cons_of_mem _ hm)) hrecords₁
        (covers_of_readApply hcovers hread)
      refine ⟨cfg', ?_, fun t k v => ?_⟩
      · rw [List.map_cons, readAll_cons, hread]
        exact hrest
      · rw [hrecords' t k v]
        simp only [List.map_cons, List.cons_append, List.mem_append, List.mem_cons]
        exact or_left_comm

/-- The run of the cluster that is watched. -/
theorem run_cluster {ok : Cluster n Command Bytes → Event n Command → Prop}
    (h : Run (watch gob) (fun w e => ok w.cluster e) (watchedInitial gob) ws) :
    ClusterRun gob ok (ws.map Watched.cluster) := by
  induction h with
  | start => exact .start
  | next e _ hok hs ih => exact .next e ih hok (watch_cases hs).1

/-- The tester has found nothing, and its logs are what was applied. -/
def Passed (w : Watched n Command Bytes) : Prop :=
  ∃ cfg, w.verdict = .ok cfg ∧ Records cfg w.cluster.applied

/-- One step of a cluster that is watched. -/
theorem passed_step {e : Event n Command} (hw : Passed w) (hordered : Ordered w)
    (hagree : Agree w'.cluster.applied) (h : watch gob w e = some w') : Passed w' := by
  obtain ⟨hstep, hverdict⟩ := watch_cases h
  obtain ⟨cfg, hv, hrecords⟩ := hw
  rw [Ordered, hv] at hordered
  cases applies_of_clusterStep hstep with
  | nothing happlied _ | restart _ happlied _ _ =>
      refine ⟨cfg, ?_, ?_⟩
      · rw [hverdict [] happlied, hv]
        rfl
      · rw [happlied]
        exact hrecords
  | sends s msgs happlied hsends _ =>
      rw [happlied] at hagree
      obtain ⟨cfg', hread, hrecords'⟩ := readAll_records hsends hagree
        (fun p hp => List.mem_append_right _ hp)
        (fun m hm => List.mem_append_left _ (List.mem_map_of_mem hm)) hrecords (hordered s)
      refine ⟨cfg', ?_, ?_⟩
      · rw [hverdict _ happlied, hv]
        exact hread
      · rw [happlied]
        exact hrecords'

/-- **THE TESTER NEVER FAILS** a safe run. -/
theorem run_passed (h : Run (watch gob) (fun w e => SafeStep w.cluster e) (watchedInitial gob) ws) :
    ∀ w ∈ ws, Passed w ∧ Ordered w := by
  induction h with
  | start =>
      intro w hw
      rw [List.mem_singleton.mp hw]
      refine ⟨⟨makeConfig, rfl, fun s k v => ?_⟩, fun s k hk hle => ?_⟩
      · exact iff_of_false nofun nofun
      · have hle' : k ≤ -1 := hle
        omega
  | next e hrun hok hs ih =>
      intro w hw
      rcases List.mem_cons.mp hw with rfl | hw
      · obtain ⟨hpassed, hordered⟩ := ih _ List.mem_cons_self
        have hagree := agree_of_run (run_cluster (.next e hrun hok hs))
        exact ⟨passed_step hpassed hordered hagree hs, ordered_step hordered hs⟩
      · exact ih w hw

/-- **SAFE RUNS PASS**: in a run whose steps forget no vote, count no vote twice and accept no
    request with a conflict at its first entry, the tester never reports an error, and its logs
    are exactly what was applied. -/
theorem safe_runs_pass (gob : Gob Command Bytes) (ws : List (Watched n Command Bytes))
    (h : Run (watch gob) (fun w e => SafeStep w.cluster e) (watchedInitial gob) ws)
    (w : Watched n Command Bytes) (hw : w ∈ ws) :
    ∃ cfg, w.verdict = .ok cfg ∧
      ∀ s k v, cfg.logs s k = some v ↔ (s, ⟨true, v, k⟩) ∈ w.cluster.applied :=
  (run_passed h w hw).1

/-! ## `nCommitted` -/

/-- How many servers have applied the index. -/
def appliedBy (cfg : Config n Command) (index : Int) : Nat :=
  (List.finRange n).countP fun i => (cfg.logs i index).isSome

/-- The loop of `nCommitted`, from any server on. -/
theorem foldlM_countServer {index : Int}
    (hone : ∀ i j a b, cfg.logs i index = some a → cfg.logs j index = some b → a = b)
    (l : List (Fin n)) (count : Nat) (cmd : Option Command)
    (hcmd : 0 < count → ∃ i v, cfg.logs i index = some v ∧ cmd = some v) :
    ∃ cmd', l.foldlM (countServer cfg index) (count, cmd) =
        .ok (count + l.countP fun i => (cfg.logs i index).isSome, cmd') ∧
      (0 < count + l.countP (fun i => (cfg.logs i index).isSome) →
        ∃ i v, cfg.logs i index = some v ∧ cmd' = some v) := by
  induction l generalizing count cmd with
  | nil => exact ⟨cmd, rfl, hcmd⟩
  | cons i l ih =>
      rw [List.foldlM_cons, List.countP_cons]
      cases hi : cfg.logs i index with
      | none =>
          have hstep : countServer cfg index (count, cmd) i = .ok (count, cmd) := by
            simp only [countServer, hi]
          rw [hstep]
          exact ih count cmd hcmd
      | some cmd1 =>
          have hstep : countServer cfg index (count, cmd) i = .ok (count + 1, some cmd1) := by
            simp only [countServer, hi]
            refine if_neg fun h => h.2 ?_
            obtain ⟨j, v, hj, hv⟩ := hcmd h.1
            rw [hv, hone j i v cmd1 hj hi]
          rw [hstep, if_pos Option.isSome_some, ← Nat.add_assoc, Nat.add_right_comm]
          exact ih (count + 1) (some cmd1) fun _ => ⟨i, cmd1, hi, rfl⟩

/-- `nCommitted` finds one command at an index, and all servers that have applied it. -/
theorem nCommitted_of_records (hagree : Agree applied) (hrecords : Records cfg applied)
    (index : Int) :
    ∃ cmd, nCommitted cfg index = .ok (appliedBy cfg index, cmd) ∧
      (0 < appliedBy cfg index → ∃ i v, cfg.logs i index = some v ∧ cmd = some v) := by
  have hone : ∀ i j a b, cfg.logs i index = some a → cfg.logs j index = some b → a = b :=
    fun i j a b hi hj =>
      hagree _ ((hrecords i index a).mp hi) _ ((hrecords j index b).mp hj) rfl
  obtain ⟨cmd, hfold, hcmd⟩ := foldlM_countServer hone (List.finRange n) 0 none
    fun h => absurd h (lt_irrefl 0)
  rw [Nat.zero_add] at hfold hcmd
  exact ⟨cmd, hfold, hcmd⟩

/-- **WHAT IS COMMITTED IS FINAL**: in a safe run `nCommitted` never fails, the number it counts
    for an index never falls, and once it counts a server it reports the same command for ever. -/
theorem committed_is_final (gob : Gob Command Bytes) (w w' : Watched n Command Bytes)
    (ws : List (Watched n Command Bytes))
    (h : Run (watch gob) (fun w e => SafeStep w.cluster e) (watchedInitial gob) (w' :: ws))
    (hw : w ∈ w' :: ws) (index : Int) :
    ∃ cfg cfg' count count' cmd cmd', w.verdict = .ok cfg ∧ w'.verdict = .ok cfg' ∧
      nCommitted cfg index = .ok (count, cmd) ∧ nCommitted cfg' index = .ok (count', cmd') ∧
      count ≤ count' ∧ (0 < count → cmd.isSome ∧ cmd' = cmd) := by
  obtain ⟨cfg, hv, hrecords⟩ := (run_passed h w hw).1
  obtain ⟨cfg', hv', hrecords'⟩ := (run_passed h w' List.mem_cons_self).1
  have hgrows := applied_grows (run_cluster h) w.cluster (List.mem_map_of_mem hw)
  have hagree' := agree_of_run (run_cluster h)
  have hagree : Agree w.cluster.applied := fun p hp q hq => hagree' p (hgrows p hp) q (hgrows q hq)
  obtain ⟨cmd, hcount, hcmd⟩ := nCommitted_of_records hagree hrecords index
  obtain ⟨cmd', hcount', hcmd'⟩ := nCommitted_of_records hagree' hrecords' index
  -- what one log has, the later one has
  have hkeep : ∀ i v, cfg.logs i index = some v → cfg'.logs i index = some v := fun i v hi =>
    (hrecords' i index v).mpr (hgrows _ ((hrecords i index v).mp hi))
  have hle : appliedBy cfg index ≤ appliedBy cfg' index := by
    refine List.countP_mono_left fun i _ hi => ?_
    obtain ⟨v, hiv⟩ := Option.isSome_iff_exists.mp hi
    rw [hkeep i v hiv]
    rfl
  refine ⟨cfg, cfg', _, _, cmd, cmd', hv, hv', hcount, hcount', hle, fun hpos => ?_⟩
  obtain ⟨i, v, hi, rfl⟩ := hcmd hpos
  obtain ⟨j, v', hj, rfl⟩ := hcmd' (hpos.trans_le hle)
  refine ⟨rfl, congrArg some ?_⟩
  exact hagree' _ ((hrecords' j index v').mp hj) _ ((hrecords' i index v).mp (hkeep i v hi)) rfl

end Safe

/-- A command is replicated, and servers 0 and 1 apply it. -/
theorem safe_runs_pass_of_replicated_command :
    ∃ (w : Watched 3 Nat (List (GobValue Nat))) (cfg : Config 3 Nat),
      w.cluster.applied = [(1, ⟨true, 7, 0⟩), (0, ⟨true, 7, 0⟩)] ∧ w.verdict = .ok cfg ∧
      ∀ s k v, cfg.logs s k = some v ↔ (s, ⟨true, v, k⟩) ∈ w.cluster.applied := by
  obtain ⟨w, ws, hrun, happlied⟩ : ∃ (w : Watched 3 Nat (List (GobValue Nat)))
      (ws : List (Watched 3 Nat (List (GobValue Nat)))),
      Run (watch (plainGob Nat)) (fun w e => SafeStep w.cluster e)
        (watchedInitial (plainGob Nat)) (w :: ws) ∧
      w.cluster.applied = [(1, ⟨true, 7, 0⟩), (0, ⟨true, 7, 0⟩)] :=
    run_reaches electAndReplicate (by decide +kernel)
  obtain ⟨cfg, hverdict, hlogs⟩ :=
    safe_runs_pass (plainGob Nat) (w :: ws) hrun w List.mem_cons_self
  exact ⟨w, cfg, happlied, hverdict, hlogs⟩

/-- While server 0 alone has applied it, and after server 1 has. -/
theorem committed_is_final_of_replicated_command :
    ∃ (w w' : Watched 3 Nat (List (GobValue Nat))) (cfg cfg' : Config 3 Nat),
      w.cluster.applied = [(0, ⟨true, 7, 0⟩)] ∧
      w'.cluster.applied = [(1, ⟨true, 7, 0⟩), (0, ⟨true, 7, 0⟩)] ∧
      w.verdict = .ok cfg ∧ w'.verdict = .ok cfg' ∧
      ∃ count count' cmd cmd', nCommitted cfg 0 = .ok (count, cmd) ∧
        nCommitted cfg' 0 = .ok (count', cmd') ∧ count ≤ count' ∧
        (0 < count → cmd.isSome ∧ cmd' = cmd) := by
  obtain ⟨w, w', ws, hrun, happlied, happlied'⟩ : ∃ (w w' : Watched 3 Nat (List (GobValue Nat)))
      (ws : List (Watched 3 Nat (List (GobValue Nat)))),
      Run (watch (plainGob Nat)) (fun w e => SafeStep w.cluster e)
        (watchedInitial (plainGob Nat)) (w' :: w :: ws) ∧
      w.cluster.applied = [(0, ⟨true, 7, 0⟩)] ∧
      w'.cluster.applied = [(1, ⟨true, 7, 0⟩), (0, ⟨true, 7, 0⟩)] :=
    run_steps electAndReplicate (by decide +kernel)
  obtain ⟨cfg, cfg', count, count', cmd, cmd', hv, hv', hcount, hcount', hle, hsame⟩ :=
    committed_is_final (plainGob Nat) w w' (w :: ws) hrun
      (List.mem_cons_of_mem _ List.mem_cons_self) 0
  exact ⟨w, w', cfg, cfg', happlied, happlied', hv, hv', count, count', cmd, cmd', hcount, hcount',
    hle, hsame⟩

end RaftTester
