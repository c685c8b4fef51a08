import UniqueFreshman.RaftClusterProofs
import UniqueFreshman.RpcNetworkProofs

/-! # Raft over `labrpc` — crashed servers are isolated

    The servers of `raft.go` on the network of `labrpc.go`, started and crashed
    as `config.go` does.  `crash1` cannot really kill a server: the old instance
    keeps its goroutines, its memory and its persister, handlers that were on
    their way to it still run, and replies still reach its goroutines.  What
    isolates it is that its ends stay disabled, that the next instance starts
    from a copy of the persister, and that `labrpc` lets no reply of a deleted
    server through.

    `refines_cluster` says that this is enough: whatever the old instances do,
    the servers behave as those of `RaftCluster`, in which a crash ends a server
    at once.

    ASSUMED: a handler, and a turn of a loop, is one step.  The source does not
    ensure it: `RequestVote` and the `persist` of `heartBeat` take no lock, and
    `crash1` copies the persister under the persister's own lock only, so that
    it may copy in the middle of one of them. -/

namespace RaftRpc

open GuardedRun GoSlice RaftServer Labrpc

/-- An instance of a server: which server, and how often it crashed before. -/
abbrev Inst (n : Nat) := Fin n × Nat

/-- The arguments of the two RPCs. -/
inductive RaftArgs (Command : Type) where
  | requestVote (args : RequestVoteArgs)
  | appendEntries (args : AppendEntriesArgs Command)

inductive RaftReply where
  | requestVote (reply : RequestVoteReply)
  | appendEntries (reply : AppendEntriesReply)

/-- All instances there have been.  `inc` counts the crashes of a server, `saved` is the copy
    of the persister that `crash1` made and `start1` has not used yet, `applied` a tape of what
    instances in use have sent on their `applyCh`. -/
structure Instances (n : Nat) (Command Bytes : Type) where
  raft : Inst n → Raft n Command Bytes
  inc : Fin n → Nat
  saved : Fin n → Option (Persister Bytes)
  applied : List (Fin n × ApplyMsg Command)

variable {n : Nat} {Command Bytes : Type}

/-- The server has not crashed since. -/
def Live (inc : Fin n → Nat) (i : Inst n) : Prop := i.2 = inc i.1

instance (inc : Fin n → Nat) (i : Inst n) : Decidable (Live inc i) :=
  inferInstanceAs (Decidable (_ = _))

/-- `Make` was called for the instance. -/
def Started (σ : Instances n Command Bytes) (i : Inst n) : Prop :=
  i.2 < σ.inc i.1 ∨ Live σ.inc i ∧ (σ.saved i.1).isNone

instance (σ : Instances n Command Bytes) (i : Inst n) : Decidable (Started σ i) :=
  inferInstanceAs (Decidable (_ ∨ _))

/-- An instance moves, and sends messages on its `applyCh`. -/
def Instances.put (σ : Instances n Command Bytes) (i : Inst n) (rf : Raft n Command Bytes)
    (msgs : List (ApplyMsg Command)) : Instances n Command Bytes :=
  { σ with
    raft := Function.update σ.raft i rf
    applied := if Live σ.inc i then msgs.map (fun m => (i.1, m)) ++ σ.applied else σ.applied }

/-- `MakeService(rf)`: the two methods that have the shape of a handler. -/
def raftService (gob : Gob Command Bytes) (i : Inst n) :
    Service (Instances n Command Bytes) (RaftArgs Command) RaftReply where
  methods := fun name =>
    if name = "RequestVote" then
      some fun args σ =>
        match args with
        | .requestVote args =>
            let (rf, reply) := requestVote gob (σ.raft i) args
            some (.requestVote reply, σ.put i rf [])
        | .appendEntries _ => none
    else if name = "AppendEntries" then
      some fun args σ =>
        match args with
        | .requestVote _ => none
        | .appendEntries args => do
            let (rf, reply, msgs) ← appendEntries gob (σ.raft i) args
            some (.appendEntries reply, σ.put i rf msgs)
    else none

/-- `MakeServer` and `AddService`. -/
def raftServer (gob : Gob Command Bytes) (i : Inst n) :
    Server (Instances n Command Bytes) (RaftArgs Command) RaftReply where
  services := fun name => if name = "Raft" then some (raftService gob i) else none

/-- `endnames[i][j]`, drawn anew by every `start1(i)`. -/
abbrev End (n : Nat) := Inst n × Fin n

abbrev RaftNetwork (n : Nat) (Command Bytes : Type) :=
  Network (End n) (Fin n) (Inst n) (Instances n Command Bytes) (RaftArgs Command) RaftReply

abbrev RaftCall (n : Nat) (Command : Type) :=
  Call (End n) (Fin n) (Inst n) (RaftArgs Command) RaftReply

/-- The goroutine that made a call: the `startRequestVote` call it belongs to (none for
    `startAppendEntries`), and whether it still waits. -/
structure Waiter where
  round : Nat
  waiting : Bool

/-- The network, and for each of its calls the goroutine that made it. -/
structure System (n : Nat) (Command Bytes : Type) where
  net : RaftNetwork n Command Bytes
  waiters : List Waiter

/-- `sendRequestVote` and `sendAppendEntries`. -/
def sendRequestVote (i : Inst n) (j : Fin n) (args : RequestVoteArgs) : RaftCall n Command :=
  ⟨(i, j), ⟨"Raft.RequestVote", .requestVote args⟩, .sending, .none, false⟩

def sendAppendEntries (i : Inst n) (j : Fin n) (args : AppendEntriesArgs Command) :
    RaftCall n Command :=
  ⟨(i, j), ⟨"Raft.AppendEntries", .appendEntries args⟩, .sending, .none, false⟩

/-- The calls of a `startRequestVote`, one to every other server. -/
def voteCalls (i : Inst n) : Option (Nat × RequestVoteArgs) → List (RaftCall n Command × Waiter)
  | none => []
  | some (round, args) =>
      ((List.finRange n).filter (· ≠ i.1)).map fun j => (sendRequestVote i j args, ⟨round, true⟩)

/-- The call of a `startAppendEntries`. -/
def appendCalls (i : Inst n) (j : Fin n) (out : Option (AppendEntriesArgs Command)) :
    List (RaftCall n Command × Waiter) :=
  (out.map fun args => (sendAppendEntries i j args, ⟨0, true⟩)).toList

/-- The ends of an instance: `MakeEnd` and `Connect` for every peer. -/
def makeEnds (net : RaftNetwork n Command Bytes) (i : Inst n) : RaftNetwork n Command Bytes :=
  { net with
    ends := fun e => if e.1 = i then true else net.ends e
    enabled := fun e => if e.1 = i then false else net.enabled e
    connections := fun e => if e.1 = i then some e.2 else net.connections e }

/-- `make_config`: after `start1` of every server, before any is connected. -/
def initialSystem (gob : Gob Command Bytes) : System n Command Bytes where
  net :=
    { makeNetwork ⟨fun i => make gob i.1 ⟨none⟩, fun _ => 0, fun _ => none, []⟩ with
      ends := fun e => e.1.2 = 0
      connections := fun e => if e.1.2 = 0 then some e.2 else none
      servers := fun s => some (s, 0) }
  waiters := []

/-- A step an instance takes by itself. -/
inductive Act (n : Nat) (Command : Type) where
  | start (command : Command)
  | loop (e : LoopEvent)
  | startRequestVote
  | runAppendEntries (j : Fin n)

/-- A step of an instance, of the goroutine that waits for a call, of the network, or of the
    tester. -/
inductive Event (n : Nat) (Command : Type) where
  | act (i : Inst n) (a : Act n Command)
  | resume (k : Nat)
  | turn (k : Nat) (t : Turn)
  | setunreliable (unrel : Bool)
  | setlongreordering (longrel : Bool)
  | enable (s j : Fin n) (enabled : Bool)
  | deleteServer (s : Fin n)
  | crash1 (s : Fin n)
  | start1 (s : Fin n)
  | addServer (s : Fin n)

/-- The new state of the instance, and the calls it makes. -/
def act (gob : Gob Command Bytes) (i : Inst n) (rf : Raft n Command Bytes) :
    Act n Command → Option (Raft n Command Bytes × List (RaftCall n Command × Waiter))
  | .start command => some ((start gob rf command).1, [])
  | .loop e => do
      let rf' ← loopStep gob rf e
      some (rf', [])
  | .startRequestVote => do
      let (rf', out) ← startRequestVote rf
      some (rf', voteCalls i out)
  | .runAppendEntries j => do
      let (rf', out) ← runAppendEntries rf j
      some (rf', appendCalls i j out)

/-- The state of instance `i` changes, and it makes some calls. -/
def System.move (sys : System n Command Bytes) (i : Inst n) (rf : Raft n Command Bytes)
    (msgs : List (ApplyMsg Command)) (calls : List (RaftCall n Command × Waiter)) :
    System n Command Bytes where
  net := { sys.net with
    services := sys.net.services.put i rf msgs
    calls := sys.net.calls ++ calls.map Prod.fst }
  waiters := sys.waiters ++ calls.map Prod.snd

/-- The goroutine of call `k` has its answer. -/
def System.answered (sys : System n Command Bytes) (k : Nat) (w : Waiter) :
    System n Command Bytes :=
  { sys with waiters := sys.waiters.set k { w with waiting := false } }

/-- What the goroutine does with the answer. -/
def resume (gob : Gob Command Bytes) (sys : System n Command Bytes) (k : Nat)
    (x : RaftCall n Command) (w : Waiter) : Option (System n Command Bytes) :=
  let rf := sys.net.services.raft x.endname.1
  match x.phase with
  | .returned none => some (sys.answered k w)
  | .returned (some reply) =>
      match x.req.args, reply with
      | .requestVote args, .requestVote reply =>
          some ((sys.answered k w).move x.endname.1 (voteReply gob rf w.round args reply) [] [])
      | .appendEntries args, .appendEntries reply => do
          let (rf', msgs) ← appendReply gob rf x.endname.2 args reply
          some ((sys.answered k w).move x.endname.1 rf' msgs [])
      | _, _ => none
  | _ => none

/-- `crash1`, behind `disconnect` and `DeleteServer`: the persister is copied, and what the
    instance does from now on is lost. -/
def System.crash (sys : System n Command Bytes) (s : Fin n) : System n Command Bytes :=
  let σ := sys.net.services
  { sys with net := { sys.net with services := { σ with
      inc := Function.update σ.inc s (σ.inc s + 1)
      saved := Function.update σ.saved s (some (σ.raft (s, σ.inc s)).persister) } } }

/-- `start1`, behind `crash1`: new ends, and `Make` with the copy. -/
def System.restart (gob : Gob Command Bytes) (sys : System n Command Bytes) (s : Fin n)
    (persister : Persister Bytes) : System n Command Bytes :=
  let σ := sys.net.services
  { sys with net := { makeEnds sys.net (s, σ.inc s) with services := { σ with
      raft := Function.update σ.raft (s, σ.inc s) (make gob s persister)
      saved := Function.update σ.saved s none } } }

/-- One step; `none` when it cannot happen or ends the program.  A handler that runs, an action
    of an instance, and a crash with the copy it makes are each one step. -/
def systemStep (gob : Gob Command Bytes) (sys : System n Command Bytes) :
    Event n Command → Option (System n Command Bytes)
  | .act i a =>
      if Started sys.net.services i then do
        let (rf, calls) ← act gob i (sys.net.services.raft i) a
        some (sys.move i rf [] calls)
      else none
  | .resume k => do
      let x ← sys.net.calls[k]?
      let w ← sys.waiters[k]?
      if w.waiting then resume gob sys k x w else none
  | .turn k t => do
      let net ← Labrpc.step (raftServer gob) sys.net (.turn k t)
      some { sys with net }
  | .setunreliable unrel => some { sys with net := { sys.net with reliable := !unrel } }
  | .setlongreordering longrel =>
      some { sys with net := { sys.net with longReordering := longrel } }
  -- `connect` and `disconnect`, for the ends of a server that is up; those of a crashed one are
  -- disabled
  | .enable s j enabled =>
      if (sys.net.services.saved s).isNone then
        some { sys with net := { sys.net with
          enabled := Function.update sys.net.enabled ((s, sys.net.services.inc s), j) enabled } }
      else none
  | .deleteServer s => some { sys with net := { sys.net with
      servers := Function.update sys.net.servers s none } }
  | .crash1 s =>
      if (sys.net.services.saved s).isNone ∧ sys.net.servers s = none ∧
          ∀ j, sys.net.enabled ((s, sys.net.services.inc s), j) = false then
        some (sys.crash s)
      else none
  | .start1 s => do
      let persister ← sys.net.services.saved s
      some (sys.restart gob s persister)
  | .addServer s =>
      if (sys.net.services.saved s).isNone then
        some { sys with net := { sys.net with
          servers := Function.update sys.net.servers s (some (s, sys.net.services.inc s)) } }
      else none

/-! ## The messages of the cluster -/

/-- The state a server has, or will have when it is started again. -/
def Instances.server (gob : Gob Command Bytes) (σ : Instances n Command Bytes) (s : Fin n) :
    Raft n Command Bytes :=
  match σ.saved s with
  | none => σ.raft (s, σ.inc s)
  | some persister => make gob s persister

/-- The request of a call, in flight. -/
def requestMsg (x : RaftCall n Command) (w : Waiter) : RaftCluster.Msg n Command :=
  match x.req.args with
  | .requestVote args => .requestVote x.endname.1.1 x.endname.2 x.endname.1.2 w.round args
  | .appendEntries args => .appendEntries x.endname.1.1 x.endname.2 x.endname.1.2 args

/-- Its reply, in flight. -/
def replyMsg (x : RaftCall n Command) (w : Waiter) (reply : RaftReply) :
    Option (RaftCluster.Msg n Command) :=
  match x.req.args, reply with
  | .requestVote args, .requestVote reply =>
      some (.requestVoteReply x.endname.1.1 x.endname.2 x.endname.1.2 w.round args reply)
  | .appendEntries args, .appendEntries reply =>
      some (.appendEntriesReply x.endname.1.1 x.endname.2 x.endname.1.2 args reply)
  | _, _ => none

/-- What of a call can still be seen by an instance in use: its request as long as it may get to
    one, its reply as long as it may get back. -/
def message (inc : Fin n → Nat) (x : RaftCall n Command) (w : Waiter) :
    Option (RaftCluster.Msg n Command) :=
  match x.handler with
  | .none =>
      match x.phase with
      | .sending | .accepted => if Live inc x.endname.1 then some (requestMsg x w) else none
      | .found route => if Live inc route.server then some (requestMsg x w) else none
      | _ => none
  | .running server => if Live inc server then some (requestMsg x w) else none
  | .blocked reply | .ended reply =>
      match x.phase with
      | .waiting route | .collected route _ =>
          if w.waiting ∧ Live inc route.server then replyMsg x w reply else none
      | .passed _ _ | .delayed _ | .returned (some _) =>
          if w.waiting then replyMsg x w reply else none
      | _ => none

def System.messages (sys : System n Command Bytes) : List (RaftCluster.Msg n Command) :=
  (sys.net.calls.zip sys.waiters).filterMap fun p => message sys.net.services.inc p.1 p.2

/-! ## What the tester keeps in order -/

/-- A server that a call was sent to is an instance of the peer its end leads to. -/
def Leads (σ : Instances n Command Bytes) (e : End n) (i : Inst n) : Prop :=
  i.1 = e.2 ∧ Started σ i

/-- Where a call can have got to. -/
structure Addressed (σ : Instances n Command Bytes) (x : RaftCall n Command) : Prop where
  coherent : x.Coherent
  caller : Started σ x.endname.1
  running : ∀ i, x.handler = .running i → Leads σ x.endname i
  routed : ∀ route, x.phase = .found route ∨ x.phase = .waiting route ∨
    (∃ reply, x.phase = .collected route reply) → Leads σ x.endname route.server ∧
      route.servername = x.endname.2

/-- Ends, servers and calls as `start1`, `crash1`, `connect` and `disconnect` leave them. -/
structure InOrder (sys : System n Command Bytes) : Prop where
  length : sys.waiters.length = sys.net.calls.length
  calls : ∀ (k : Nat) x, sys.net.calls[k]? = some x → Addressed sys.net.services x
  servers : ∀ s i, sys.net.servers s = some i →
    i = (s, sys.net.services.inc s) ∧ Started sys.net.services i
  enabled : ∀ e, sys.net.enabled e = true → Live sys.net.services.inc e.1
  connections : ∀ e s, sys.net.connections e = some s → s = e.2

/-- **THE RELATION**: the servers are the instances in use, and what they can still see is in
    flight. -/
structure Simulates (gob : Gob Command Bytes) (sys : System n Command Bytes)
    (c : RaftCluster.Cluster n Command Bytes) : Prop where
  servers : c.servers = sys.net.services.server gob
  inc : c.inc = sys.net.services.inc
  applied : c.applied = sys.net.services.applied
  net : (sys.messages : Multiset (RaftCluster.Msg n Command)) ≤ (c.net : Multiset _)

/-! ## Lists of messages -/

section Lists

variable {α β : Type} {f g : α → Option β}

theorem coe_filterMap_cons (a : α) (l : List α) :
    (((a :: l).filterMap f : List β) : Multiset β) =
      ((f a).toList : Multiset β) + ((l.filterMap f : List β) : Multiset β) := by
  rw [List.filterMap_cons, Multiset.coe_add]
  cases f a <;> rfl

/-- One element of a list is replaced. -/
theorem filterMap_set {l : List α} {k : Nat} {a : α} (h : l[k]? = some a) (a' : α) :
    (((l.set k a').filterMap f : List β) : Multiset β) + ((f a).toList : Multiset β) =
      ((l.filterMap f : List β) : Multiset β) + ((f a').toList : Multiset β) := by
  induction l generalizing k with
  | nil => exact nomatch h
  | cons b l ih =>
      cases k with
      | zero =>
          obtain rfl : b = a := Option.some.inj h
          rw [List.set_cons_zero, coe_filterMap_cons, coe_filterMap_cons]
          abel
      | succ k =>
          rw [List.set_cons_succ, coe_filterMap_cons, coe_filterMap_cons, add_assoc, add_assoc,
            ih (k := k) h]

/-- Elements that give nothing any more give no more. -/
theorem filterMap_le {l : List α} (h : ∀ a ∈ l, g a = f a ∨ g a = none) :
    ((l.filterMap g : List β) : Multiset β) ≤ (l.filterMap f : List β) := by
  induction l with
  | nil => exact le_rfl
  | cons a l ih =>
      have htail := ih fun b hb => h b (List.mem_cons_of_mem a hb)
      rw [coe_filterMap_cons, coe_filterMap_cons]
      rcases h a List.mem_cons_self with heq | heq
      · rw [heq]
        exact add_le_add_right htail _
      · rw [heq]
        exact htail.trans (Multiset.le_add_left _ _)

/-- A change of one list at a place is a change of the pair there. -/
theorem zip_set {l : List α} {ws : List β} {k : Nat} {w : β} (h : ws[k]? = some w) (a : α) :
    (l.set k a).zip ws = (l.zip ws).set k (a, w) := by
  induction l generalizing ws k with
  | nil => rfl
  | cons b l ih =>
      cases ws with
      | nil => exact nomatch h
      | cons v ws =>
          cases k with
          | zero =>
              obtain rfl : v = w := Option.some.inj h
              rfl
          | succ k => exact congrArg _ (ih (k := k) h)

theorem zip_set_right {l : List α} {ws : List β} {k : Nat} {a : α} (h : l[k]? = some a) (w : β) :
    l.zip (ws.set k w) = (l.zip ws).set k (a, w) := by
  induction l generalizing ws k with
  | nil => exact nomatch h
  | cons b l ih =>
      cases ws with
      | nil => rfl
      | cons v ws =>
          cases k with
          | zero =>
              obtain rfl : b = a := Option.some.inj h
              rfl
          | succ k => exact congrArg _ (ih (k := k) h)

theorem zip_getElem? {l : List α} {ws : List β} {k : Nat} {a : α} {w : β} (ha : l[k]? = some a)
    (hw : ws[k]? = some w) : (l.zip ws)[k]? = some (a, w) :=
  List.getElem?_zip_eq_some.mpr ⟨ha, hw⟩

/-- A message in flight can be taken out. -/
theorem exists_eraseIdx {l : List α} {a : α} (h : a ∈ l) :
    ∃ k, l[k]? = some a ∧ (l : Multiset α) = a ::ₘ (l.eraseIdx k : List α) := by
  obtain ⟨k, hk, rfl⟩ := List.mem_iff_getElem.mp h
  refine ⟨k, List.getElem?_eq_getElem hk, ?_⟩
  rw [Multiset.cons_coe]
  exact (Quotient.sound (List.getElem_cons_eraseIdx_perm hk)).symm

end Lists

/-! ## The instances in use -/

section Instances

variable {gob : Gob Command Bytes} {σ : Instances n Command Bytes} {i : Inst n}
  {rf : Raft n Command Bytes} {msgs : List (ApplyMsg Command)}

/-- The server in use is its latest instance. -/
theorem Started.server (h : Started σ i) (hi : Live σ.inc i) : σ.server gob i.1 = σ.raft i := by
  rcases h with hlt | ⟨-, hsaved⟩
  · rw [Live] at hi
    omega
  · rw [Instances.server, Option.isNone_iff_eq_none.mp hsaved]
    show σ.raft (i.1, σ.inc i.1) = σ.raft i
    rw [← hi]

/-- An instance in use moves its server, -/
theorem Started.put (h : Started σ i) (hi : Live σ.inc i) :
    (σ.put i rf msgs).server gob = Function.update (σ.server gob) i.1 rf := by
  obtain ⟨s, k⟩ := i
  obtain rfl : k = σ.inc s := hi
  have hsaved : σ.saved s = none := by
    rcases h with hlt | ⟨-, hsaved⟩
    · exact absurd hlt (lt_irrefl _)
    · exact Option.isNone_iff_eq_none.mp hsaved
  funext t
  by_cases ht : t = s
  · subst ht
    rw [Function.update_self, Instances.server, Instances.put]
    simp only [hsaved]
    exact Function.update_self ..
  · rw [Function.update_of_ne ht, Instances.server, Instances.server, Instances.put]
    cases σ.saved t with
    | none => exact Function.update_of_ne (fun heq => ht (congrArg Prod.fst heq)) ..
    | some persister => rfl

/-- and an old one moves none. -/
theorem put_of_dead (hi : ¬ Live σ.inc i) : (σ.put i rf msgs).server gob = σ.server gob := by
  funext t
  rw [Instances.server, Instances.server, Instances.put]
  cases σ.saved t with
  | none =>
      refine Function.update_of_ne (fun heq => hi ?_) ..
      rw [← heq]
      exact rfl
  | some persister => rfl

end Instances

variable {gob : Gob Command Bytes} {sys sys' : System n Command Bytes}
  {c c' : RaftCluster.Cluster n Command Bytes}

/-- What a handler of an instance does. -/
theorem dispatch_cases {i : Inst n} {req : Request (RaftArgs Command)} {reply : RaftReply}
    {σ σ' : Instances n Command Bytes}
    (h : (raftServer gob i).dispatch req σ = some (reply, σ')) :
    (∃ args rf r, req.args = .requestVote args ∧ requestVote gob (σ.raft i) args = (rf, r) ∧
      reply = .requestVote r ∧ σ' = σ.put i rf []) ∨
    (∃ args rf r msgs, req.args = .appendEntries args ∧
      appendEntries gob (σ.raft i) args = some (rf, r, msgs) ∧
      reply = .appendEntries r ∧ σ' = σ.put i rf msgs) := by
  obtain ⟨⟨serviceName, methodName⟩, -, h⟩ := Option.bind_eq_some_iff.mp h
  obtain ⟨service, hservice, h⟩ := Option.bind_eq_some_iff.mp h
  obtain ⟨method, hmethod, h⟩ := Option.bind_eq_some_iff.mp h
  simp only [raftServer] at hservice
  split at hservice <;> cases hservice
  simp only [raftService] at hmethod
  split at hmethod
  · cases hmethod
    cases hargs : req.args with
    | requestVote args =>
        rw [hargs] at h
        cases h
        exact .inl ⟨args, _, _, rfl, rfl, rfl, rfl⟩
    | appendEntries args =>
        rw [hargs] at h
        exact nomatch h
  · split at hmethod <;> cases hmethod
    cases hargs : req.args with
    | requestVote args =>
        rw [hargs] at h
        exact nomatch h
    | appendEntries args =>
        rw [hargs] at h
        obtain ⟨⟨rf, r, msgs⟩, hout, h⟩ := Option.bind_eq_some_iff.mp h
        cases h
        exact .inr ⟨args, rf, r, msgs, rfl, hout, rfl, rfl⟩

/-! ## The order is kept -/

/-- A call that an instance has just made. -/
structure Fresh (i : Inst n) (x : RaftCall n Command) : Prop where
  caller : x.endname.1 = i
  phase : x.phase = .sending
  handler : x.handler = .none
  draining : x.draining = false

section Order

variable {σ σ' : Instances n Command Bytes} {i : Inst n} {x x' : RaftCall n Command}

/-- A new request comes from an instance that has been started. -/
theorem Fresh.addressed (h : Fresh i x) (hi : Started σ i) : Addressed σ x where
  coherent := by
    rw [Call.Coherent, h.phase]
    exact ⟨h.handler, h.draining⟩
  caller := by
    rw [h.caller]
    exact hi
  running := by simp [h.handler]
  routed := by simp [h.phase]

/-- No instance is forgotten. -/
theorem Addressed.mono (h : Addressed σ x) (hσ : ∀ i, Started σ i → Started σ' i) :
    Addressed σ' x where
  coherent := h.coherent
  caller := hσ _ h.caller
  running i hi := ⟨(h.running i hi).1, hσ _ (h.running i hi).2⟩
  routed route hroute :=
    ⟨⟨(h.routed route hroute).1.1, hσ _ (h.routed route hroute).1.2⟩, (h.routed route hroute).2⟩

/-- An action sends requests of its own instance. -/
theorem fresh_of_act {rf rf' : Raft n Command Bytes} {a : Act n Command}
    {calls : List (RaftCall n Command × Waiter)} (h : act gob i rf a = some (rf', calls)) :
    ∀ p ∈ calls, Fresh i p.1 := by
  intro p hp
  cases a with
  | start command =>
      cases h
      exact nomatch hp
  | loop e =>
      obtain ⟨rf₁, -, h⟩ := Option.bind_eq_some_iff.mp h
      cases h
      exact nomatch hp
  | startRequestVote =>
      obtain ⟨⟨rf₁, out⟩, -, h⟩ := Option.bind_eq_some_iff.mp h
      cases h
      cases out with
      | none => exact nomatch hp
      | some request =>
          obtain ⟨j, -, rfl⟩ := List.mem_map.mp hp
          exact ⟨rfl, rfl, rfl, rfl⟩
  | runAppendEntries j =>
      obtain ⟨⟨rf₁, out⟩, -, h⟩ := Option.bind_eq_some_iff.mp h
      cases h
      cases out with
      | none => exact nomatch hp
      | some args =>
          obtain rfl := List.mem_singleton.mp hp
          exact ⟨rfl, rfl, rfl, rfl⟩

/-- A step of an instance, with the calls it makes. -/
theorem InOrder.move (h : InOrder sys) (hi : Started sys.net.services i)
    (rf : Raft n Command Bytes) (msgs : List (ApplyMsg Command))
    {calls : List (RaftCall n Command × Waiter)} (hcalls : ∀ p ∈ calls, Fresh i p.1) :
    InOrder (sys.move i rf msgs calls) where
  length := by
    simp only [System.move, List.length_append, List.length_map, h.length]
  calls := by
    intro k x hx
    simp only [System.move, List.getElem?_append] at hx
    split at hx
    · exact (h.calls k x hx).mono fun _ hj => hj
    · obtain ⟨p, hp, rfl⟩ := List.mem_map.mp (List.mem_of_getElem? hx)
      exact ((hcalls p hp).addressed hi).mono fun _ hj => hj
  servers := h.servers
  enabled := h.enabled
  connections := h.connections

/-- A goroutine that has got its reply waits no more. -/
theorem InOrder.answered (h : InOrder sys) (k : Nat) (w : Waiter) :
    InOrder (sys.answered k w) where
  length := by
    simp only [System.answered, List.length_set, h.length]
  calls := h.calls
  servers := h.servers
  enabled := h.enabled
  connections := h.connections

/-- The server an end leads to is the instance in use. -/
theorem InOrder.route (h : InOrder sys) {e : End n} {route : Route (Fin n) (Inst n)}
    (hroute : readEndnameInfo sys.net e = some route) :
    Live sys.net.services.inc e.1 ∧ route.servername = e.2 ∧
      Live sys.net.services.inc route.server ∧ Leads sys.net.services e route.server := by
  rw [readEndnameInfo] at hroute
  split at hroute
  · next henabled =>
      obtain ⟨servername, hname, hroute⟩ := Option.bind_eq_some_iff.mp hroute
      obtain ⟨server, hserver, hroute⟩ := Option.bind_eq_some_iff.mp hroute
      obtain rfl := h.connections e servername hname
      obtain ⟨rfl, hstarted⟩ := h.servers _ server hserver
      cases hroute
      exact ⟨h.enabled e henabled, rfl, rfl, rfl, hstarted⟩
  · exact nomatch hroute

/-- A turn of `labrpc` keeps sender and receiver. -/
theorem InOrder.addressed_turned (h : InOrder sys) {t : Turn}
    (hturn : Turned (raftServer gob) sys.net x t x' σ) (hx : Addressed sys.net.services x) :
    Addressed sys.net.services x' where
  coherent := coherent_turned hturn hx.coherent
  caller := by
    rw [endname_of_turned hturn]
    exact hx.caller
  running := by
    rw [endname_of_turned hturn]
    cases hturn with
    | spawn route hphase =>
        rintro i ⟨⟩
        exact (hx.routed route (.inl hphase)).1
    | dispatch | collect | drain => exact nofun
    | _ => exact hx.running
  routed := by
    rw [endname_of_turned hturn]
    cases hturn with
    | found route hphase hroute =>
        obtain ⟨-, hname, -, hleads⟩ := h.route hroute
        rintro route' (⟨⟨⟩⟩ | hphase' | ⟨reply, hphase'⟩)
        · exact ⟨hleads, hname⟩
        · exact nomatch hphase'
        · exact nomatch hphase'
    | spawn route hphase =>
        rintro route' (hphase' | ⟨⟨⟩⟩ | ⟨reply, hphase'⟩)
        · exact nomatch hphase'
        · exact hx.routed route (.inl hphase)
        · exact nomatch hphase'
    | collect route reply hphase hhandler =>
        rintro route' (hphase' | hphase' | ⟨reply', ⟨⟩⟩)
        · exact nomatch hphase'
        · exact nomatch hphase'
        · exact hx.routed route (.inr (.inl hphase))
    | dispatch | drain | wait => exact hx.routed
    | _ => simp

end Order

/-! ## What one step can do -/

/-- The goroutines of call `k` have taken a step. -/
def System.turned (sys : System n Command Bytes) (k : Nat) (x : RaftCall n Command)
    (σ : Instances n Command Bytes) : System n Command Bytes :=
  { sys with net := { sys.net with services := σ, calls := sys.net.calls.set k x } }

/-- The steps of the system: under what condition, and to where. -/
inductive Stepped (gob : Gob Command Bytes) (sys : System n Command Bytes) :
    System n Command Bytes → Prop where
  | acted (i : Inst n) (a : Act n Command) (rf : Raft n Command Bytes)
      (calls : List (RaftCall n Command × Waiter)) (hi : Started sys.net.services i)
      (hact : act gob i (sys.net.services.raft i) a = some (rf, calls)) :
      Stepped gob sys (sys.move i rf [] calls)
  | resumed (k : Nat) (x : RaftCall n Command) (w : Waiter) (sys' : System n Command Bytes)
      (hx : sys.net.calls[k]? = some x) (hw : sys.waiters[k]? = some w)
      (hwaiting : w.waiting = true) (hresume : resume gob sys k x w = some sys') :
      Stepped gob sys sys'
  | turned (k : Nat) (t : Turn) (x x' : RaftCall n Command) (σ : Instances n Command Bytes)
      (hx : sys.net.calls[k]? = some x) (hturn : Turned (raftServer gob) sys.net x t x' σ) :
      Stepped gob sys (sys.turned k x' σ)
  /-- the tester changes the wiring -/
  | wired (net : RaftNetwork n Command Bytes) (hcalls : net.calls = sys.net.calls)
      (hservices : net.services = sys.net.services)
      (hconnections : net.connections = sys.net.connections)
      (hservers : ∀ s i, net.servers s = some i → sys.net.servers s = some i ∨
        i = (s, sys.net.services.inc s) ∧ Started sys.net.services i)
      (henabled : ∀ e, net.enabled e = true → sys.net.enabled e = true ∨
        Live sys.net.services.inc e.1) :
      Stepped gob sys { sys with net }
  | crashed (s : Fin n) (hsaved : sys.net.services.saved s = none)
      (hserver : sys.net.servers s = none)
      (hends : ∀ j, sys.net.enabled ((s, sys.net.services.inc s), j) = false) :
      Stepped gob sys (sys.crash s)
  | started (s : Fin n) (persister : Persister Bytes)
      (hsaved : sys.net.services.saved s = some persister) :
      Stepped gob sys (sys.restart gob s persister)

theorem update_cases {α β : Type} [DecidableEq α] {f : α → β} {a b : α} {v w : β}
    (h : Function.update f a v b = w) : b = a ∧ v = w ∨ f b = w := by
  by_cases hb : b = a
  · subst hb
    rw [Function.update_self] at h
    exact .inl ⟨rfl, h⟩
  · rw [Function.update_of_ne hb] at h
    exact .inr h

/-- **INVERSION** of a step of the system. -/
theorem stepped_of_systemStep {e : Event n Command} (h : systemStep gob sys e = some sys') :
    Stepped gob sys sys' := by
  cases e with
  | act i a =>
      simp only [systemStep] at h
      split at h
      · next hi =>
          obtain ⟨⟨rf, calls⟩, hact, h⟩ := Option.bind_eq_some_iff.mp h
          cases h
          exact .acted i a rf calls hi hact
      · cases h
  | resume k =>
      obtain ⟨x, hx, h⟩ := Option.bind_eq_some_iff.mp h
      obtain ⟨w, hw, h⟩ := Option.bind_eq_some_iff.mp h
      split at h
      · next hwaiting => exact .resumed k x w sys' hx hw hwaiting h
      · cases h
  | turn k t =>
      obtain ⟨net, hnet, h⟩ := Option.bind_eq_some_iff.mp h
      obtain ⟨x, hx, hnet⟩ := Option.bind_eq_some_iff.mp hnet
      obtain ⟨⟨x', σ⟩, hturn, hnet⟩ := Option.bind_eq_some_iff.mp hnet
      cases hnet
      cases h
      exact .turned k t x x' σ hx (turned_of_turn hturn)
  | setunreliable unrel =>
      cases h
      exact .wired _ rfl rfl rfl (fun _ _ hs => .inl hs) fun _ he => .inl he
  | setlongreordering longrel =>
      cases h
      exact .wired _ rfl rfl rfl (fun _ _ hs => .inl hs) fun _ he => .inl he
  | enable s j enabled =>
      simp only [systemStep] at h
      split at h <;> cases h
      refine .wired _ rfl rfl rfl (fun _ _ hs => .inl hs) fun e he => ?_
      rcases update_cases he with ⟨rfl, -⟩ | he
      · exact .inr rfl
      · exact .inl he
  | deleteServer s =>
      cases h
      refine .wired _ rfl rfl rfl (fun t i ht => ?_) fun _ he => .inl he
      rcases update_cases ht with ⟨-, hnone⟩ | ht
      · exact nomatch hnone
      · exact .inl ht
  | crash1 s =>
      simp only [systemStep] at h
      split at h
      · next hguard =>
          cases h
          exact .crashed s (Option.isNone_iff_eq_none.mp hguard.1) hguard.2.1 hguard.2.2
      · cases h
  | start1 s =>
      obtain ⟨persister, hsaved, h⟩ := Option.bind_eq_some_iff.mp h
      cases h
      exact .started s persister hsaved
  | addServer s =>
      simp only [systemStep] at h
      split at h
      · next hsaved =>
          cases h
          refine .wired _ rfl rfl rfl (fun t i ht => ?_) fun _ he => .inl he
          rcases update_cases ht with ⟨rfl, hsome⟩ | ht
          · obtain rfl := Option.some.inj hsome
            exact .inr ⟨rfl, .inr ⟨rfl, hsaved⟩⟩
          · exact .inl ht
      · cases h

/-- What a waiting goroutine does with a reply: the server's new state, and what it applies. -/
inductive Replied (gob : Gob Command Bytes) (rf : Raft n Command Bytes) (x : RaftCall n Command)
    (w : Waiter) : RaftReply → Raft n Command Bytes → List (ApplyMsg Command) → Prop where
  | vote (args : RequestVoteArgs) (reply : RequestVoteReply)
      (hargs : x.req.args = .requestVote args) :
      Replied gob rf x w (.requestVote reply) (voteReply gob rf w.round args reply) []
  | append (args : AppendEntriesArgs Command) (reply : AppendEntriesReply)
      (rf' : Raft n Command Bytes) (msgs : List (ApplyMsg Command))
      (hargs : x.req.args = .appendEntries args)
      (hout : appendReply gob rf x.endname.2 args reply = some (rf', msgs)) :
      Replied gob rf x w (.appendEntries reply) rf' msgs

/-- **INVERSION** of a waiting goroutine's step. -/
theorem resume_cases {k : Nat} {x : RaftCall n Command} {w : Waiter}
    (h : resume gob sys k x w = some sys') :
    (x.phase = .returned none ∧ sys' = sys.answered k w) ∨
    ∃ reply rf msgs, x.phase = .returned (some reply) ∧
      sys' = (sys.answered k w).move x.endname.1 rf msgs [] ∧
      Replied gob (sys.net.services.raft x.endname.1) x w reply rf msgs := by
  simp only [resume] at h
  split at h
  · next hphase =>
      cases h
      exact .inl ⟨hphase, rfl⟩
  · next reply hphase =>
      split at h
      · next args r hargs =>
          cases h
          exact .inr ⟨_, _, _, hphase, rfl, .vote args r hargs⟩
      · next args r hargs =>
          obtain ⟨⟨rf, msgs⟩, hout, h⟩ := Option.bind_eq_some_iff.mp h
          cases h
          exact .inr ⟨_, _, _, hphase, rfl, .append args r rf msgs hargs hout⟩
      · cases h
  · cases h

/-- A turn of `labrpc` crashes and starts nobody. -/
theorem services_of_turned {x x' : RaftCall n Command} {t : Turn} {σ : Instances n Command Bytes}
    (h : Turned (raftServer gob) sys.net x t x' σ) :
    σ.inc = sys.net.services.inc ∧ σ.saved = sys.net.services.saved := by
  cases h with
  | dispatch server reply _ hhandler hreply =>
      rcases dispatch_cases hreply with ⟨_, rf, _, _, _, _, rfl⟩ | ⟨_, rf, _, msgs, _, _, _, rfl⟩
      · exact ⟨rfl, rfl⟩
      · exact ⟨rfl, rfl⟩
  | _ => exact ⟨rfl, rfl⟩

/-- Who has been started depends on the crashes and the saved copies only. -/
theorem started_congr {σ σ' : Instances n Command Bytes} (hinc : σ'.inc = σ.inc)
    (hsaved : σ'.saved = σ.saved) (i : Inst n) : Started σ' i ↔ Started σ i := by
  rw [Started, Started, hinc, hsaved]

theorem inOrder_initial : InOrder (initialSystem gob : System n Command Bytes) where
  length := rfl
  calls := fun _ _ hx => nomatch hx
  servers := by
    rintro s i ⟨⟩
    exact ⟨rfl, .inr ⟨rfl, rfl⟩⟩
  enabled := fun _ he => nomatch he
  connections := by
    intro e s he
    simp only [initialSystem] at he
    split at he <;> cases he
    rfl

/-- A crash concerns its own server. -/
theorem crash_of_ne {s t : Fin n} (ht : t ≠ s) :
    (sys.crash s).net.services.inc t = sys.net.services.inc t ∧
      (sys.crash s).net.services.saved t = sys.net.services.saved t :=
  ⟨Function.update_of_ne ht .., Function.update_of_ne ht ..⟩

/-- It counts, and leaves a copy of the persister. -/
theorem crash_self (s : Fin n) :
    (sys.crash s).net.services.inc s = sys.net.services.inc s + 1 ∧
      (sys.crash s).net.services.saved s =
        some (sys.net.services.raft (s, sys.net.services.inc s)).persister :=
  ⟨Function.update_self .., Function.update_self ..⟩

theorem Started.le {σ : Instances n Command Bytes} {i : Inst n} (h : Started σ i) :
    i.2 ≤ σ.inc i.1 :=
  h.elim le_of_lt fun hlive => le_of_eq hlive.1

/-- An instance that was started stays so when it crashes. -/
theorem Started.crash {i : Inst n} (h : Started sys.net.services i) (s : Fin n) :
    Started (sys.crash s).net.services i := by
  by_cases hi : i.1 = s
  · subst hi
    left
    rw [(crash_self i.1).1]
    exact Nat.lt_succ_of_le h.le
  · rw [Started, Live, (crash_of_ne hi).1, (crash_of_ne hi).2]
    exact h

/-- The instances that a crash leaves in use were in use. -/
theorem Started.live_of_crash {i : Inst n} (h : Started sys.net.services i) {s : Fin n}
    (hlive : Live (sys.crash s).net.services.inc i) : Live sys.net.services.inc i := by
  by_cases hi : i.1 = s
  · subst hi
    rw [Live, (crash_self i.1).1] at hlive
    have := h.le
    omega
  · rw [Live, (crash_of_ne hi).1] at hlive
    exact hlive

theorem Started.restart {i : Inst n} (h : Started sys.net.services i) (s : Fin n)
    (persister : Persister Bytes) : Started (sys.restart gob s persister).net.services i := by
  rcases h with hlt | ⟨hlive, hnone⟩
  · exact .inl hlt
  · refine .inr ⟨hlive, ?_⟩
    show (Function.update sys.net.services.saved s none i.1).isNone
    by_cases hi : i.1 = s
    · rw [hi, Function.update_self]
      rfl
    · rw [Function.update_of_ne hi]
      exact hnone

/-- A turn of `labrpc` keeps the order. -/
theorem InOrder.turned (h : InOrder sys) {k : Nat} {t : Turn} {x x' : RaftCall n Command}
    {σ : Instances n Command Bytes} (hx : sys.net.calls[k]? = some x)
    (hturn : Turned (raftServer gob) sys.net x t x' σ) : InOrder (sys.turned k x' σ) := by
  obtain ⟨hinc, hsaved⟩ := services_of_turned hturn
  have hmono : ∀ i, Started sys.net.services i → Started σ i :=
    fun i => (started_congr hinc hsaved i).mpr
  refine ⟨?_, ?_, ?_, ?_, h.connections⟩
  · rw [System.turned, List.length_set, h.length]
  · intro j y hy
    rw [System.turned, List.getElem?_set] at hy
    split at hy
    · split at hy <;> cases hy
      exact (h.addressed_turned hturn (h.calls k x hx)).mono hmono
    · exact (h.calls j y hy).mono hmono
  · intro s i hi
    obtain ⟨hinst, hstarted⟩ := h.servers s i hi
    refine ⟨?_, hmono i hstarted⟩
    rw [hinst]
    exact congrArg (fun inc => (s, inc s)) hinc.symm
  · intro e he
    show e.1.2 = σ.inc e.1.1
    rw [hinc]
    exact h.enabled e he

/-- So does a crash, once the server is deleted and its ends are disabled. -/
theorem InOrder.crash (h : InOrder sys) {s : Fin n} (hserver : sys.net.servers s = none)
    (hends : ∀ j, sys.net.enabled ((s, sys.net.services.inc s), j) = false) :
    InOrder (sys.crash s) := by
  refine ⟨h.length, fun k x hx => (h.calls k x hx).mono fun i hi => hi.crash s, ?_, ?_,
    h.connections⟩
  · intro t i hi
    obtain ⟨rfl, hstarted⟩ := h.servers t i hi
    have ht : t ≠ s := by
      rintro rfl
      exact nomatch hserver.symm.trans hi
    rw [(crash_of_ne ht).1]
    exact ⟨rfl, hstarted.crash s⟩
  · rintro ⟨⟨t, k⟩, j⟩ he
    have hlive := h.enabled _ he
    have ht : t ≠ s := by
      rintro rfl
      obtain rfl : k = sys.net.services.inc t := hlive
      exact nomatch (hends j).symm.trans he
    rw [Live, (crash_of_ne ht).1]
    exact hlive

theorem InOrder.restart (h : InOrder sys) (s : Fin n) (persister : Persister Bytes) :
    InOrder (sys.restart gob s persister) := by
  refine ⟨h.length, fun k x hx => (h.calls k x hx).mono fun i hi => hi.restart s persister,
    ?_, ?_, ?_⟩
  · intro t i hi
    obtain ⟨hinst, hstarted⟩ := h.servers t i hi
    exact ⟨hinst, hstarted.restart s persister⟩
  · intro e he
    simp only [System.restart, makeEnds] at he
    split at he
    · exact nomatch he
    · exact h.enabled e he
  · intro e t he
    simp only [System.restart, makeEnds] at he
    split at he
    · exact (Option.some.inj he).symm
    · exact h.connections e t he

/-- **STEP LEMMA** of the order. -/
theorem InOrder.step (h : InOrder sys) (hstep : Stepped gob sys sys') : InOrder sys' := by
  cases hstep with
  | acted i a rf calls hi hact => exact h.move hi rf [] (fresh_of_act hact)
  | resumed k x w _ hx hw hwaiting hresume =>
      rcases resume_cases hresume with ⟨-, rfl⟩ | ⟨reply, rf, msgs, -, rfl, -⟩
      · exact h.answered k w
      · exact (h.answered k w).move (h.calls k x hx).caller rf msgs (by simp)
  | turned k t x x' σ hx hturn => exact h.turned hx hturn
  | wired net hcalls hservices hconnections hservers henabled =>
      refine ⟨?_, ?_, ?_, ?_, ?_⟩
      · simp only [hcalls, h.length]
      · simp only [hcalls, hservices]
        exact h.calls
      · intro s i hi
        simp only [hservices]
        exact (hservers s i hi).elim (h.servers s i) id
      · intro e he
        simp only [hservices]
        exact (henabled e he).elim (h.enabled e) id
      · simp only [hconnections]
        exact h.connections
  | crashed s hsaved hserver hends => exact h.crash hserver hends
  | started s persister hsaved => exact h.restart s persister

/-! ## What becomes of the messages -/

section Messages

variable {k : Nat} {x x' : RaftCall n Command} {w w' : Waiter} {t : Turn}
  {σ : Instances n Command Bytes} {m : RaftCluster.Msg n Command}

/-- One call or its goroutine moves. -/
theorem messages_set (hx : sys.net.calls[k]? = some x) (hw : sys.waiters[k]? = some w)
    (hpairs : sys'.net.calls.zip sys'.waiters = (sys.net.calls.zip sys.waiters).set k (x', w'))
    (hinc : sys'.net.services.inc = sys.net.services.inc) :
    (sys'.messages : Multiset (RaftCluster.Msg n Command)) +
        ((message sys.net.services.inc x w).toList : Multiset _) =
      (sys.messages : Multiset _) + ((message sys.net.services.inc x' w').toList : Multiset _) := by
  rw [System.messages, System.messages, hpairs, hinc]
  exact filterMap_set (zip_getElem? hx hw) (x', w')

/-- A call that becomes a message the cluster has already, or none, adds nothing. -/
theorem messages_le (hx : sys.net.calls[k]? = some x) (hw : sys.waiters[k]? = some w)
    (hpairs : sys'.net.calls.zip sys'.waiters = (sys.net.calls.zip sys.waiters).set k (x', w'))
    (hinc : sys'.net.services.inc = sys.net.services.inc)
    (hmessage : message sys.net.services.inc x' w' = message sys.net.services.inc x w ∨
      message sys.net.services.inc x' w' = none) :
    (sys'.messages : Multiset (RaftCluster.Msg n Command)) ≤ sys.messages := by
  have hset := messages_set hx hw hpairs hinc
  rcases hmessage with heq | heq
  · rw [heq] at hset
    exact le_of_eq (add_right_cancel hset)
  · rw [heq, Option.toList_none, Multiset.coe_nil, add_zero] at hset
    rw [← hset]
    exact Multiset.le_add_right _ _

/-- The message of a call is delivered. -/
theorem Simulates.delivered (h : Simulates gob sys c) (hx : sys.net.calls[k]? = some x)
    (hw : sys.waiters[k]? = some w)
    (hpairs : sys'.net.calls.zip sys'.waiters = (sys.net.calls.zip sys.waiters).set k (x', w'))
    (hinc : sys'.net.services.inc = sys.net.services.inc)
    (hm : message sys.net.services.inc x w = some m) :
    ∃ i, c.net[i]? = some m ∧
      (sys'.messages : Multiset (RaftCluster.Msg n Command)) ≤
        (c.net.eraseIdx i : Multiset _) +
          ((message sys.net.services.inc x' w').toList : Multiset _) := by
  have hset := messages_set hx hw hpairs hinc
  rw [hm] at hset
  have hmem : m ∈ (sys.messages : Multiset _) :=
    Multiset.mem_coe.mpr (List.mem_filterMap.mpr
      ⟨(x, w), List.mem_of_getElem? (zip_getElem? hx hw), hm⟩)
  obtain ⟨i, hi, herase⟩ := exists_eraseIdx (Multiset.mem_coe.mp (Multiset.mem_of_le h.net hmem))
  refine ⟨i, hi, ?_⟩
  have hle : (sys'.messages : Multiset _) + {m} ≤
      ((c.net.eraseIdx i : List _) : Multiset _) +
        ((message sys.net.services.inc x' w').toList : Multiset _) + {m} := by
    calc (sys'.messages : Multiset _) + {m}
        = (sys.messages : Multiset _) +
            ((message sys.net.services.inc x' w').toList : Multiset _) := hset
      _ ≤ (c.net : Multiset _) + ((message sys.net.services.inc x' w').toList : Multiset _) :=
          add_le_add_left h.net _
      _ = ((c.net.eraseIdx i : List _) : Multiset _) +
            ((message sys.net.services.inc x' w').toList : Multiset _) + {m} := by
          rw [herase, ← Multiset.singleton_add]
          abel
  exact le_of_add_le_add_right hle

/-- A new request is a message, unless its sender has crashed. -/
theorem message_of_fresh {i : Inst n} (h : Fresh i x) (inc : Fin n → Nat) :
    message inc x w = if Live inc i then some (requestMsg x w) else none := by
  rw [message, h.handler, h.phase, h.caller]

/-- **ISOLATION**: but for the handler itself, a step of a call's goroutines keeps its message or
    loses it. -/
theorem InOrder.message_turned (h : InOrder sys)
    (hturn : Turned (raftServer gob) sys.net x t x' σ) (hx : Addressed sys.net.services x)
    (ht : t ≠ .dispatch) :
    message sys.net.services.inc x' w = message sys.net.services.inc x w ∨
      message sys.net.services.inc x' w = none := by
  have hfits := hx.coherent
  rw [Call.Coherent] at hfits
  cases hturn with
  | accept hphase _ =>
      rw [hphase] at hfits
      left
      simp only [message, hfits.1, hphase]
      rfl
  | found route hphase hroute =>
      -- an end that is enabled is one of an instance in use, and leads to one
      obtain ⟨hcaller, -, hserver, -⟩ := h.route hroute
      rw [hphase] at hfits
      left
      simp only [message, hfits.1, hphase, if_pos hcaller, if_pos hserver]
      rfl
  | spawn route hphase =>
      rw [hphase] at hfits
      left
      simp only [message, hfits.1, hphase]
      rfl
  | dispatch => exact absurd rfl ht
  | collect route reply hphase hhandler =>
      left
      simp only [message, hphase, hhandler]
      rfl
  | giveUp route hphase _ =>
      rw [hphase] at hfits
      rcases hfits.1 with hhandler | ⟨reply, hhandler⟩
      · left
        simp only [message, hhandler]
        rfl
      · right
        simp only [message, hhandler]
  | wait => exact .inl rfl
  | drain reply hdraining hhandler =>
      left
      simp only [message, hhandler]
      rfl
  | pass route reply hphase halive =>
      rw [hphase] at hfits
      -- the server is there, so it is in use
      have hserver : sys.net.servers route.servername = some route.server := by
        simp only [isServerDead, decide_eq_false_iff_not, not_or, not_not] at halive
        exact halive.2
      have hlive : Live sys.net.services.inc route.server := by
        rw [(h.servers _ _ hserver).1]
        rfl
      left
      simp only [message, hphase, show x.handler = .ended reply from hfits, hlive, and_true]
      rfl
  | delay route reply hphase =>
      rw [hphase] at hfits
      left
      simp only [message, hphase, show x.handler = .ended reply from hfits]
      rfl
  | reply route reply hphase =>
      rw [hphase] at hfits
      left
      simp only [message, hphase, show x.handler = .ended reply from hfits]
      rfl
  | deliver reply hphase =>
      rw [hphase] at hfits
      left
      simp only [message, hphase, show x.handler = .ended reply from hfits]
      rfl
  | hangUp hphase _ =>
      rw [hphase] at hfits
      right
      simp only [message, hfits.1]
  | unreachable hphase _ =>
      rw [hphase] at hfits
      right
      simp only [message, hfits.1]
  | dropRequest route hphase _ =>
      rw [hphase] at hfits
      right
      simp only [message, hfits.1]
  | refuse route reply hphase _ =>
      rw [hphase] at hfits
      right
      simp only [message, show x.handler = .ended reply from hfits]
  | miss hphase =>
      rw [hphase] at hfits
      rcases hhandler : x.handler with _ | server | reply | reply
      · exact absurd hhandler hfits.2
      · left
        simp only [message, hhandler]
        rfl
      · right
        simp only [message]
      · right
        simp only [message]
  | dropReply route reply hphase _ =>
      rw [hphase] at hfits
      right
      simp only [message, show x.handler = .ended reply from hfits]
  | timeUp hphase =>
      rw [hphase] at hfits
      right
      simp only [message, hfits.1]

/-- A handler has run: its reply is in flight, unless nobody waits for it. -/
theorem Addressed.message_blocked (hx : Addressed σ x) {server : Inst n}
    (hhandler : x.handler = .running server) (inc : Fin n → Nat) (w : Waiter)
    (reply : RaftReply) :
    message inc { x with handler := .blocked reply } w =
        (if w.waiting ∧ Live inc server then replyMsg x w reply else none) ∨
      message inc { x with handler := .blocked reply } w = none := by
  have hfits := hx.coherent
  rw [Call.Coherent, hhandler] at hfits
  rcases hfits.pending (.inl ⟨server, rfl⟩) with ⟨route, hphase, -⟩ | ⟨-, hphase | hphase⟩
  · rw [hphase] at hfits
    obtain rfl : server = route.server := by
      rcases hfits.1 with heq | ⟨reply', heq⟩
      · exact Handler.running.inj heq
      · cases heq
    left
    simp only [message, hphase]
    rfl
  · right
    simp only [message, hphase]
  · right
    simp only [message, hphase]

end Messages

/-! ## The cluster follows -/

/-- Server `s` of the cluster takes the state `rf`, applies `msgs` and sends `sent`. -/
structure Follows (c c' : RaftCluster.Cluster n Command Bytes) (s : Fin n)
    (rf : Raft n Command Bytes) (msgs : List (ApplyMsg Command))
    (sent : List (RaftCluster.Msg n Command)) : Prop where
  servers : c'.servers = Function.update c.servers s rf
  inc : c'.inc = c.inc
  applied : c'.applied = msgs.map (fun m => (s, m)) ++ c.applied
  net : c'.net = c.net ++ sent

section Follows

variable {i : Inst n} {rf : Raft n Command Bytes} {msgs : List (ApplyMsg Command)}
  {x : RaftCall n Command} {w : Waiter}

/-- An action of a server in use is an event of the cluster. -/
theorem follows_act {a : Act n Command} {calls : List (RaftCall n Command × Waiter)}
    (hact : act gob i (c.servers i.1) a = some (rf, calls)) (hi : Live c.inc i) :
    ∃ e c', RaftCluster.clusterStep gob c e = some c' ∧
      Follows c c' i.1 rf [] (calls.map fun p => requestMsg p.1 p.2) := by
  cases a with
  | start command =>
      cases hact
      exact ⟨.start i.1 command, _, rfl, rfl, rfl, rfl, (List.append_nil _).symm⟩
  | loop e =>
      obtain ⟨rf₁, hloop, hact⟩ := Option.bind_eq_some_iff.mp hact
      cases hact
      refine ⟨.loop i.1 e, ?_⟩
      rw [RaftCluster.clusterStep, hloop]
      exact ⟨_, rfl, rfl, rfl, rfl, (List.append_nil _).symm⟩
  | startRequestVote =>
      obtain ⟨⟨rf₁, out⟩, hout, hact⟩ := Option.bind_eq_some_iff.mp hact
      cases hact
      refine ⟨.startRequestVote i.1, ?_⟩
      rw [RaftCluster.clusterStep, hout]
      refine ⟨_, rfl, rfl, rfl, rfl, congrArg (c.net ++ ·) ?_⟩
      rw [← hi]
      cases out with
      | none => rfl
      | some request =>
          rw [voteCalls, RaftCluster.voteRequests, List.map_map]
          rfl
  | runAppendEntries j =>
      obtain ⟨⟨rf₁, out⟩, hout, hact⟩ := Option.bind_eq_some_iff.mp hact
      cases hact
      refine ⟨.runAppendEntries i.1 j, ?_⟩
      rw [RaftCluster.clusterStep, hout]
      refine ⟨_, rfl, rfl, rfl, rfl, congrArg (c.net ++ ·) ?_⟩
      rw [← hi]
      cases out <;> rfl

/-- The handler of a request. -/
theorem follows_request {σ σ' : Instances n Command Bytes} {reply : RaftReply}
    (hreply : (raftServer gob i).dispatch x.req σ = some (reply, σ'))
    (hserver : c.servers i.1 = σ.raft i) (hdst : i.1 = x.endname.2) :
    ∃ rf msgs m c', σ' = σ.put i rf msgs ∧ replyMsg x w reply = some m ∧
      RaftCluster.receive gob c (requestMsg x w) = some c' ∧ Follows c c' i.1 rf msgs [m] := by
  rcases dispatch_cases hreply with ⟨args, rf, r, hargs, hout, rfl, rfl⟩ |
    ⟨args, rf, r, msgs, hargs, hout, rfl, rfl⟩
  · simp only [requestMsg, replyMsg, hargs, RaftCluster.receive, ← hdst, hserver, hout]
    exact ⟨rf, [], _, _, rfl, rfl, rfl, rfl, rfl, rfl, rfl⟩
  · simp only [requestMsg, replyMsg, hargs, RaftCluster.receive, ← hdst, hserver, hout]
    exact ⟨rf, msgs, _, _, rfl, rfl, rfl, rfl, rfl, rfl, rfl⟩

/-- A reply answers a request of its own kind. -/
theorem Replied.exists_replyMsg {reply : RaftReply} {rf' : Raft n Command Bytes}
    (h : Replied gob rf x w reply rf' msgs) : ∃ m, replyMsg x w reply = some m := by
  cases h with
  | vote args r hargs =>
      simp only [replyMsg, hargs]
      exact ⟨_, rfl⟩
  | append args r _ _ hargs hout =>
      simp only [replyMsg, hargs]
      exact ⟨_, rfl⟩

/-- The goroutine that waits for a reply. -/
theorem follows_reply {reply : RaftReply} {m : RaftCluster.Msg n Command}
    (hreply : Replied gob (c.servers x.endname.1.1) x w reply rf msgs)
    (hm : replyMsg x w reply = some m) (hlive : Live c.inc x.endname.1) :
    ∃ c', RaftCluster.receive gob c m = some c' ∧ Follows c c' x.endname.1.1 rf msgs [] := by
  rw [Live] at hlive
  cases hreply with
  | vote args r hargs =>
      simp only [replyMsg, hargs] at hm
      cases hm
      rw [RaftCluster.receive, if_pos hlive]
      exact ⟨_, rfl, rfl, rfl, rfl, (List.append_nil _).symm⟩
  | append args r _ _ hargs hout =>
      simp only [replyMsg, hargs] at hm
      cases hm
      rw [RaftCluster.receive, if_pos hlive, hout]
      exact ⟨_, rfl, rfl, rfl, rfl, (List.append_nil _).symm⟩

end Follows

/-! ## The simulation -/

section Simulation

variable {i : Inst n} {rf : Raft n Command Bytes} {msgs : List (ApplyMsg Command)}

/-- An instance in use moves, and the cluster has followed. -/
theorem Simulates.follow (h : Simulates gob sys c) {net sent : List (RaftCluster.Msg n Command)}
    (hi : Started sys.net.services i) (hlive : Live sys.net.services.inc i)
    (hservices : sys'.net.services = sys.net.services.put i rf msgs)
    (hfollows : Follows { c with net } c' i.1 rf msgs sent)
    (hnet : (sys'.messages : Multiset (RaftCluster.Msg n Command)) ≤
      (net : Multiset _) + (sent : Multiset _)) : Simulates gob sys' c' where
  servers := by
    rw [hservices, hi.put hlive, hfollows.servers, h.servers]
  inc := by
    rw [hfollows.inc, hservices]
    exact h.inc
  applied := by
    rw [hfollows.applied, h.applied, hservices]
    exact (if_pos hlive).symm
  net := by
    rw [hfollows.net, ← Multiset.coe_add]
    exact hnet

/-- An instance of the past moves, and nobody sees it. -/
theorem Simulates.ignore (h : Simulates gob sys c) (hdead : ¬ Live sys.net.services.inc i)
    (hservices : sys'.net.services = sys.net.services.put i rf msgs)
    (hnet : (sys'.messages : Multiset (RaftCluster.Msg n Command)) ≤ sys.messages) :
    Simulates gob sys' c where
  servers := by
    rw [hservices, put_of_dead hdead, h.servers]
  inc := by
    rw [h.inc, hservices]
    rfl
  applied := by
    rw [h.applied, hservices]
    exact (if_neg hdead).symm
  net := hnet.trans h.net

/-- Nothing moves but messages that get lost. -/
theorem Simulates.still (h : Simulates gob sys c)
    (hservices : sys'.net.services = sys.net.services)
    (hnet : (sys'.messages : Multiset (RaftCluster.Msg n Command)) ≤ sys.messages) :
    Simulates gob sys' c where
  servers := by
    rw [hservices, h.servers]
  inc := by
    rw [hservices, h.inc]
  applied := by
    rw [hservices, h.applied]
  net := hnet.trans h.net

/-- What an instance sends is added to the messages. -/
theorem messages_move (h : InOrder sys) {calls : List (RaftCall n Command × Waiter)} :
    (sys.move i rf msgs calls).messages =
      sys.messages ++ calls.filterMap fun p => message sys.net.services.inc p.1 p.2 := by
  simp only [System.messages, System.move, Instances.put]
  rw [List.zip_append h.length.symm, List.filterMap_append]
  rw [List.zip_map', List.map_id']

/-- **AN ACTION**: an event of the cluster, or nothing if the instance has crashed. -/
theorem simulate_act (h : Simulates gob sys c) (hord : InOrder sys) {a : Act n Command}
    {calls : List (RaftCall n Command × Waiter)} (hi : Started sys.net.services i)
    (hact : act gob i (sys.net.services.raft i) a = some (rf, calls)) :
    ∃ c', Reaches (RaftCluster.clusterStep gob) c c' ∧
      Simulates gob (sys.move i rf [] calls) c' := by
  have hfresh := fresh_of_act hact
  by_cases hlive : Live sys.net.services.inc i
  · have hserver : c.servers i.1 = sys.net.services.raft i := by
      rw [h.servers, hi.server hlive]
    rw [← hserver] at hact
    obtain ⟨e, c', hstep, hfollows⟩ := follows_act hact (by rw [h.inc]; exact hlive)
    refine ⟨c', .single ⟨e, hstep⟩, h.follow (c := c) hi hlive rfl hfollows ?_⟩
    have hsent : calls.filterMap (fun p => message sys.net.services.inc p.1 p.2) =
        calls.map fun p => requestMsg p.1 p.2 := by
      rw [← List.filterMap_eq_map]
      refine List.filterMap_congr fun p hp => ?_
      rw [message_of_fresh (hfresh p hp), if_pos hlive]
      rfl
    rw [messages_move hord, hsent, ← Multiset.coe_add]
    exact add_le_add_left h.net _
  · refine ⟨c, .refl, h.ignore hlive rfl ?_⟩
    have hsent : calls.filterMap (fun p => message sys.net.services.inc p.1 p.2) = [] := by
      refine List.filterMap_eq_nil_iff.mpr fun p hp => ?_
      rw [message_of_fresh (hfresh p hp), if_neg hlive]
    rw [messages_move hord, hsent, List.append_nil]

/-- **A REPLY**: the cluster has it in flight, unless the caller has crashed. -/
theorem simulate_resume (h : Simulates gob sys c) (hord : InOrder sys) {k : Nat}
    {x : RaftCall n Command} {w : Waiter} (hx : sys.net.calls[k]? = some x)
    (hw : sys.waiters[k]? = some w) (hwaiting : w.waiting = true)
    (hresume : resume gob sys k x w = some sys') :
    ∃ c', Reaches (RaftCluster.clusterStep gob) c c' ∧ Simulates gob sys' c' := by
  have haddr := hord.calls k x hx
  rcases resume_cases hresume with ⟨hphase, rfl⟩ | ⟨reply, rf, msgs, hphase, rfl, hreply⟩
  · -- no reply: a handler may still be running, and its request stays in flight
    refine ⟨c, .refl, h.still rfl ?_⟩
    refine messages_le hx hw (zip_set_right hx _) rfl ?_
    rcases hhandler : x.handler with _ | server | reply | reply
    · right
      simp only [message, hhandler, hphase]
    · left
      simp only [message, hhandler]
      rfl
    · right
      simp only [message, hhandler, hphase]
    · right
      simp only [message, hhandler, hphase]
  · have hhandler : x.handler = .ended reply := by
      have hfits := haddr.coherent
      rw [Call.Coherent, hphase] at hfits
      exact hfits
    have hpairs : ((sys.answered k w).move x.endname.1 rf msgs []).net.calls.zip
        ((sys.answered k w).move x.endname.1 rf msgs []).waiters =
        (sys.net.calls.zip sys.waiters).set k (x, { w with waiting := false }) := by
      simp only [System.move, System.answered, List.map_nil, List.append_nil]
      exact zip_set_right hx _
    have hgone : message sys.net.services.inc x { w with waiting := false } = none := by
      simp [message, hhandler, hphase]
    by_cases hlive : Live sys.net.services.inc x.endname.1
    · have hserver : c.servers x.endname.1.1 = sys.net.services.raft x.endname.1 := by
        rw [h.servers, haddr.caller.server hlive]
      obtain ⟨m, hm⟩ := hreply.exists_replyMsg
      have hmessage : message sys.net.services.inc x w = some m := by
        simp only [message, hhandler, hphase, hwaiting, if_true]
        exact hm
      -- the cluster has the reply in flight, and delivers it
      obtain ⟨j, hj, hnet⟩ := h.delivered hx hw hpairs rfl hmessage
      rw [← hserver] at hreply
      obtain ⟨c', hstep, hfollows⟩ :=
        follows_reply (c := { c with net := c.net.eraseIdx j }) hreply hm (by
          rw [h.inc]
          exact hlive)
      refine ⟨c', .single ⟨.deliver j, ?_⟩,
        h.follow haddr.caller hlive rfl hfollows ?_⟩
      · rw [RaftCluster.clusterStep, hj]
        exact hstep
      · rw [hgone] at hnet
        exact hnet
    · exact ⟨c, .refl, h.ignore hlive rfl (messages_le hx hw hpairs rfl (.inr hgone))⟩

/-- **A TURN OF LABRPC**: nothing, unless a handler runs on a server in use. -/
theorem simulate_turn (h : Simulates gob sys c) (hord : InOrder sys) {k : Nat} {t : Turn}
    {x x' : RaftCall n Command} {σ : Instances n Command Bytes}
    (hx : sys.net.calls[k]? = some x) (hturn : Turned (raftServer gob) sys.net x t x' σ) :
    ∃ c', Reaches (RaftCluster.clusterStep gob) c c' ∧
      Simulates gob (sys.turned k x' σ) c' := by
  have haddr := hord.calls k x hx
  obtain ⟨w, hw⟩ : ∃ w, sys.waiters[k]? = some w := by
    have hlt := (List.getElem?_eq_some_iff.mp hx).1
    rw [← hord.length] at hlt
    exact ⟨_, List.getElem?_eq_getElem hlt⟩
  have hpairs : (sys.turned k x' σ).net.calls.zip (sys.turned k x' σ).waiters =
      (sys.net.calls.zip sys.waiters).set k (x', w) := zip_set hw x'
  have hinc : (sys.turned k x' σ).net.services.inc = sys.net.services.inc :=
    (services_of_turned hturn).1
  by_cases ht : t = .dispatch
  · subst ht
    cases hturn with
    | dispatch server reply _ hhandler hreply =>
        have hleads := haddr.running server hhandler
        have hblocked := haddr.message_blocked hhandler sys.net.services.inc w reply
        by_cases hlive : Live sys.net.services.inc server
        · have hserver : c.servers server.1 = sys.net.services.raft server := by
            rw [h.servers, hleads.2.server hlive]
          have hmessage : message sys.net.services.inc x w = some (requestMsg x w) := by
            rw [message, hhandler]
            exact if_pos hlive
          -- the cluster has the request in flight, and its server handles it
          obtain ⟨j, hj, hnet⟩ := h.delivered hx hw hpairs hinc hmessage
          obtain ⟨rf, msgs, m, c', rfl, hm, hstep, hfollows⟩ :=
            follows_request (c := { c with net := c.net.eraseIdx j }) (w := w) hreply hserver
              hleads.1
          refine ⟨c', .single ⟨.deliver j, ?_⟩, h.follow hleads.2 hlive rfl hfollows ?_⟩
          · rw [RaftCluster.clusterStep, hj]
            exact hstep
          · refine hnet.trans (add_le_add_right ?_ _)
            rcases hblocked with heq | heq
            · rw [heq, hm]
              split
              · exact le_rfl
              · exact Multiset.zero_le _
            · rw [heq]
              exact Multiset.zero_le _
        · -- the old instance handles it, and its reply will be refused
          have hgone : message sys.net.services.inc { x with handler := .blocked reply } w =
              none := by
            rcases hblocked with heq | heq
            · rw [heq, if_neg fun hand => hlive hand.2]
            · exact heq
          have hle := messages_le hx hw hpairs hinc (.inr hgone)
          rcases dispatch_cases hreply with ⟨_, rf, _, -, -, -, rfl⟩ |
            ⟨_, rf, _, msgs, -, -, -, rfl⟩
          · exact ⟨c, .refl, h.ignore hlive rfl hle⟩
          · exact ⟨c, .refl, h.ignore hlive rfl hle⟩
  · have hσ : σ = sys.net.services := by
      cases hturn with
      | dispatch => exact absurd rfl ht
      | _ => rfl
    exact ⟨c, .refl, h.still hσ
      (messages_le hx hw hpairs hinc (hord.message_turned hturn haddr ht))⟩

/-- A crash: what was on its way to the instance or from it can no longer be seen. -/
theorem Addressed.message_crash {x : RaftCall n Command} (hx : Addressed sys.net.services x)
    (w : Waiter) (s : Fin n) :
    message (sys.crash s).net.services.inc x w = message sys.net.services.inc x w ∨
      message (sys.crash s).net.services.inc x w = none := by
  -- a condition that an instance is in use stays true or becomes false
  have hif : ∀ (i : Inst n) (m : Option (RaftCluster.Msg n Command)),
      Started sys.net.services i →
      (if Live (sys.crash s).net.services.inc i then m else none) =
          (if Live sys.net.services.inc i then m else none) ∨
        (if Live (sys.crash s).net.services.inc i then m else none) = none := by
    intro i m hi
    by_cases hlive : Live (sys.crash s).net.services.inc i
    · rw [if_pos hlive, if_pos (hi.live_of_crash hlive)]
      exact .inl rfl
    · rw [if_neg hlive]
      exact .inr rfl
  cases hhandler : x.handler with
  | none =>
      cases hphase : x.phase with
      | sending | accepted =>
          simp only [message, hhandler, hphase]
          exact hif _ _ hx.caller
      | found route =>
          simp only [message, hhandler, hphase]
          exact hif _ _ (hx.routed route (.inl hphase)).1.2
      | _ =>
          left
          simp only [message, hhandler, hphase]
  | running server =>
      simp only [message, hhandler]
      exact hif server _ (hx.running server hhandler).2
  | blocked reply | ended reply =>
      cases hphase : x.phase with
      | waiting route =>
          simp only [message, hhandler, hphase, ite_and]
          split
          · exact hif _ _ (hx.routed route (.inr (.inl hphase))).1.2
          · exact .inl rfl
      | collected route reply' =>
          simp only [message, hhandler, hphase, ite_and]
          split
          · exact hif _ _ (hx.routed route (.inr (.inr ⟨reply', hphase⟩))).1.2
          · exact .inl rfl
      | returned result =>
          left
          simp only [message, hhandler, hphase]
          cases result <;> rfl
      | _ =>
          left
          simp only [message, hhandler, hphase]

/-- **A CRASH** takes the messages of the server out of flight. -/
theorem simulate_crash (h : Simulates gob sys c) (hord : InOrder sys) {s : Fin n}
    (hsaved : sys.net.services.saved s = none) :
    ∃ c', Reaches (RaftCluster.clusterStep gob) c c' ∧ Simulates gob (sys.crash s) c' := by
  refine ⟨_, .single ⟨.restart s, rfl⟩, ?_, ?_, h.applied, ?_⟩
  · -- the server restarts from its persister
    have hserver : c.servers s = sys.net.services.raft (s, sys.net.services.inc s) := by
      rw [h.servers, Instances.server, hsaved]
    funext t
    by_cases ht : t = s
    · subst ht
      rw [Instances.server, (crash_self t).2]
      show Function.update c.servers t (make gob t (c.servers t).persister) t = _
      rw [Function.update_self, hserver]
    · rw [Instances.server, (crash_of_ne ht).2, (crash_of_ne ht).1]
      show Function.update c.servers s (make gob s (c.servers s).persister) t = _
      rw [Function.update_of_ne ht, h.servers]
      rfl
  · show Function.update c.inc s (c.inc s + 1) = _
    rw [h.inc]
    rfl
  · refine le_trans (filterMap_le fun p hp => ?_) h.net
    obtain ⟨k, hk⟩ := List.mem_iff_getElem?.mp hp
    exact (hord.calls k p.1 (List.getElem?_zip_eq_some.mp hk).1).message_crash p.2 s

/-- **A START**: the cluster has started the server already. -/
theorem simulate_restart (h : Simulates gob sys c) {s : Fin n} {persister : Persister Bytes}
    (hsaved : sys.net.services.saved s = some persister) :
    Simulates gob (sys.restart gob s persister) c := by
  refine ⟨?_, h.inc, h.applied, h.net⟩
  rw [h.servers]
  funext t
  by_cases ht : t = s
  · subst ht
    have hnone : (sys.restart gob t persister).net.services.saved t = none :=
      Function.update_self ..
    rw [Instances.server, Instances.server, hsaved, hnone]
    exact (Function.update_self (t, sys.net.services.inc t) (make gob t persister)
      sys.net.services.raft).symm
  · have hsame : (sys.restart gob s persister).net.services.saved t =
        sys.net.services.saved t := Function.update_of_ne ht ..
    rw [Instances.server, Instances.server, hsame]
    cases sys.net.services.saved t with
    | none => exact (Function.update_of_ne (fun heq => ht (congrArg Prod.fst heq)) ..).symm
    | some persister => rfl

/-- **STEP LEMMA** of the simulation. -/
theorem simulate_step (h : Simulates gob sys c) (hord : InOrder sys)
    (hstep : Stepped gob sys sys') :
    ∃ c', Reaches (RaftCluster.clusterStep gob) c c' ∧ Simulates gob sys' c' := by
  cases hstep with
  | acted i a rf calls hi hact => exact simulate_act h hord hi hact
  | resumed k x w _ hx hw hwaiting hresume => exact simulate_resume h hord hx hw hwaiting hresume
  | turned k t x x' σ hx hturn => exact simulate_turn h hord hx hturn
  | wired net hcalls hservices _ _ _ =>
      refine ⟨c, .refl, h.still hservices (le_of_eq ?_)⟩
      simp only [System.messages, hcalls, hservices]
  | crashed s hsaved _ _ => exact simulate_crash h hord hsaved
  | started s persister hsaved => exact ⟨c, .refl, simulate_restart h hsaved⟩

end Simulation

theorem simulates_initial :
    Simulates gob (initialSystem gob : System n Command Bytes) (RaftCluster.initial gob) :=
  ⟨rfl, rfl, rfl, Multiset.zero_le _⟩

/-- Server 0 asks for votes; server 1 crashes and is started again while the request is on its
    way, and the old instance grants it. -/
def lateVote : List (Event 3 Nat) :=
  [.enable 0 1 true, .act (0, 0) (.loop .top), .act (0, 0) (.loop .followerTimer),
    .act (0, 0) (.loop .top), .act (0, 0) .startRequestVote,
    .turn 0 .accept, .turn 0 .lookUp, .turn 0 .spawn,
    .deleteServer 1, .crash1 1, .start1 1, .addServer 1,
    .turn 0 .dispatch, .turn 0 .collect, .turn 0 .check]

def lateVoteSystem : System 3 Nat (List (GobValue Nat)) :=
  (steps (systemStep (plainGob Nat)) (initialSystem (plainGob Nat)) lateVote).getD
    (initialSystem (plainGob Nat))

theorem reaches_lateVoteSystem :
    Reaches (systemStep (plainGob Nat)) (initialSystem (plainGob Nat)) lateVoteSystem :=
  reaches_of_steps (show steps _ _ lateVote = some lateVoteSystem from rfl)

end RaftRpc
