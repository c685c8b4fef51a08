import UniqueFreshman.CipherProofs
import UniqueFreshman.GuardedRunProofs

/-! # The proxy — two relay loops in series

    `exchange_loop` waits until one of two sockets is readable, reads at most
    4096 bytes from it and passes them, encrypted or decrypted, to one call of
    `send` on the other.  The loop of the local side and the loop of the remote
    side are the same with the two functions exchanged; what the local side
    sends is what the remote side reads.

    A loop is a state machine over its calls, so that the calls of both sides
    interleave freely.  `recv` returns any part of what has arrived, `send`
    accepts any part of what it is given, and the loop does not look at how much
    that was.

    The books of one direction (`Loop.flow`): what has been sent, what is held
    between `recv` and `send`, and what is still to be read make up the same
    stream at all times, as long as `send` accepts everything. -/

namespace Proxy

open Cipher GuardedRun

/-- The two sockets of a loop, in the order it serves them. -/
inductive Side where
  | left | right
deriving DecidableEq

def Side.other : Side → Side
  | .left => .right
  | .right => .left

/-- Where a loop is: at `select` (`serve []`), before a `recv` from the first of the sockets
    still to be served, before the `send` of what was read from `src`, or behind the loop. -/
inductive Phase where
  | serve (todo : List Side)
  | send (src : Side) (data : Bytes) (todo : List Side)
  | stopped
deriving DecidableEq

/-- What can be read from a socket, what was written to it, and whether its peer writes no
    more. -/
structure Socket where
  input : Bytes
  output : Bytes
  closed : Bool

structure Loop where
  phase : Phase
  sockets : Side → Socket

/-- The calls of a loop with their results. -/
inductive Call where
  | select (ready : List Side)
  | recv (n : Nat)
  | send (n : Nat)

/-- `BUF_SIZE`. -/
def bufSize : Nat := 4 * 1024

def Socket.readable (s : Socket) : Prop := s.input ≠ [] ∨ s.closed = true

instance (s : Socket) : Decidable s.readable := inferInstanceAs (Decidable (_ ∨ _))

/-- What `select` can report. -/
def Ready (ready : List Side) : Prop :=
  ready = [.left] ∨ ready = [.right] ∨ ready = [.left, .right]

instance (ready : List Side) : Decidable (Ready ready) :=
  inferInstanceAs (Decidable (_ ∨ _ ∨ _))

/-- What `recv` can return: a part of what has arrived, or nothing at the end. -/
def Received (s : Socket) (n : Nat) : Prop :=
  (0 < n ∧ n ≤ bufSize ∧ n ≤ s.input.length) ∨ (n = 0 ∧ s.input = [] ∧ s.closed = true)

instance (s : Socket) (n : Nat) : Decidable (Received s n) :=
  inferInstanceAs (Decidable (_ ∨ _))

section Loop

variable (pass : Side → Bytes → Bytes)

/-- One call of a loop that passes data read from `src` on as `pass src data`. -/
def exchangeStep (l : Loop) : Call → Option Loop
  | .select ready =>
      match l.phase with
      | .serve [] =>
          if Ready ready ∧ ∀ side ∈ ready, (l.sockets side).readable then
            some { l with phase := .serve ready }
          else none
      | _ => none
  | .recv n =>
      match l.phase with
      | .serve (src :: todo) =>
          let s := l.sockets src
          if Received s n then
            some {
              phase := .send src (pass src (s.input.take n)) todo
              sockets := Function.update l.sockets src { s with input := s.input.drop n } }
          else none
      | _ => none
  | .send n =>
      match l.phase with
      | .send src data todo =>
          let s := l.sockets src.other
          if data = [] then
            -- `send` of no data returns `0`, and the loop ends
            if n = 0 then some { l with phase := .stopped } else none
          else if 0 < n ∧ n ≤ data.length then
            some {
              phase := .serve todo
              sockets := Function.update l.sockets src.other
                { s with output := s.output ++ data.take n } }
          else none
      | _ => none

/-- What was read from `src` and not yet sent. -/
def held (src : Side) : Phase → Bytes
  | .send src' data _ => if src' = src then data else []
  | _ => []

/-- The books of the direction from `src`. -/
def Loop.flow (l : Loop) (src : Side) : Bytes :=
  (l.sockets src.other).output ++ held src l.phase ++ pass src (l.sockets src).input

/-- A `send` that accepts everything. -/
def WholeSend : Phase → Call → Prop
  | .send _ data _, .send n => n = data.length
  | _, _ => True

instance : ∀ phase call, Decidable (WholeSend phase call)
  | .send .., .send _ => inferInstanceAs (Decidable (_ = _))
  | .send .., .select _ | .send .., .recv _ | .serve _, _ | .stopped, _ =>
      inferInstanceAs (Decidable True)

variable {pass : Side → Bytes → Bytes} {l l' : Loop} {call : Call}

/-- Everything a call can do. -/
theorem exchangeStep_cases (h : exchangeStep pass l call = some l') :
    (∃ ready, call = .select ready ∧ l.phase = .serve [] ∧
      l' = { l with phase := .serve ready }) ∨
    (∃ src todo n, call = .recv n ∧ l.phase = .serve (src :: todo) ∧
      Received (l.sockets src) n ∧ l' = {
        phase := .send src (pass src ((l.sockets src).input.take n)) todo
        sockets := Function.update l.sockets src
          { l.sockets src with input := (l.sockets src).input.drop n } }) ∨
    (∃ src todo, l.phase = .send src [] todo ∧ l' = { l with phase := .stopped }) ∨
    (∃ src data todo n, call = .send n ∧ l.phase = .send src data todo ∧ l' = {
        phase := .serve todo
        sockets := Function.update l.sockets src.other
          { l.sockets src.other with
            output := (l.sockets src.other).output ++ data.take n } }) := by
  cases call with
  | select ready =>
      simp only [exchangeStep] at h
      split at h
      · next hphase =>
          obtain ⟨-, hl⟩ := Option.ite_none_right_eq_some.mp h
          exact .inl ⟨ready, rfl, hphase, (Option.some.inj hl).symm⟩
      · exact nomatch h
  | recv n =>
      simp only [exchangeStep] at h
      split at h
      · next src todo hphase =>
          obtain ⟨hn, hl⟩ := Option.ite_none_right_eq_some.mp h
          exact .inr (.inl ⟨src, todo, n, rfl, hphase, hn, (Option.some.inj hl).symm⟩)
      · exact nomatch h
  | send n =>
      simp only [exchangeStep] at h
      split at h
      · next src data todo hphase =>
          by_cases hdata : data = []
          · rw [if_pos hdata] at h
            obtain ⟨-, hl⟩ := Option.ite_none_right_eq_some.mp h
            exact .inr (.inr (.inl ⟨src, todo, hdata ▸ hphase, (Option.some.inj hl).symm⟩))
          · rw [if_neg hdata] at h
            obtain ⟨-, hl⟩ := Option.ite_none_right_eq_some.mp h
            exact .inr (.inr (.inr ⟨src, data, todo, n, rfl, hphase, (Option.some.inj hl).symm⟩))
      · exact nomatch h

theorem Side.other_ne (side : Side) : side.other ≠ side := by
  cases side <;> decide

theorem Side.other_other (side : Side) : side.other.other = side := by
  cases side <;> rfl

theorem Side.eq_or_other (src side : Side) : side = src ∨ side = src.other := by
  cases src <;> cases side <;> decide

/-- **THE BOOKS BALANCE**: a call in which `send` accepts everything keeps both flows. -/
theorem exchangeStep_flow (hpass : ∀ src a b, pass src (a ++ b) = pass src a ++ pass src b)
    (hwhole : WholeSend l.phase call) (h : exchangeStep pass l call = some l') (side : Side) :
    l'.flow pass side = l.flow pass side := by
  rcases exchangeStep_cases h with ⟨ready, -, hphase, rfl⟩ |
    ⟨src, todo, n, -, hphase, -, rfl⟩ | ⟨src, todo, hphase, rfl⟩ |
    ⟨src, data, todo, n, rfl, hphase, rfl⟩
  · simp only [Loop.flow, hphase, held]
  · -- what is read from `src` is held until it is sent
    rcases Side.eq_or_other src side with rfl | rfl
    · have hinput := hpass side ((l.sockets side).input.take n) ((l.sockets side).input.drop n)
      rw [List.take_append_drop] at hinput
      simp only [Loop.flow, hphase, held, if_true, Function.update_self,
        Function.update_of_ne side.other_ne, hinput, List.append_nil, List.append_assoc]
    · simp only [Loop.flow, hphase, held, if_neg src.other_ne.symm, Side.other_other,
        Function.update_self, Function.update_of_ne src.other_ne]
  · simp only [Loop.flow, hphase, held, ite_self]
  · -- what was held is sent, all of it
    rw [hphase] at hwhole
    have hdata : data.take n = data := by
      rw [show n = data.length from hwhole, List.take_length]
    rcases Side.eq_or_other src side with rfl | rfl
    · simp only [Loop.flow, hphase, held, if_true, Function.update_self,
        Function.update_of_ne side.other_ne.symm, hdata, List.append_nil]
    · simp only [Loop.flow, hphase, held, if_neg src.other_ne.symm, Side.other_other,
        Function.update_self, Function.update_of_ne src.other_ne.symm]

/-- What a call appends to an output. -/
theorem exchangeStep_output (h : exchangeStep pass l call = some l') (side : Side) :
    ∃ more, (l'.sockets side).output = (l.sockets side).output ++ more := by
  rcases exchangeStep_cases h with ⟨ready, -, -, rfl⟩ | ⟨src, todo, n, -, -, -, rfl⟩ |
    ⟨src, todo, -, rfl⟩ | ⟨src, data, todo, n, -, -, rfl⟩
  · exact ⟨[], (List.append_nil _).symm⟩
  · by_cases hside : side = src
    · subst hside
      exact ⟨[], by simp only [Function.update_self, List.append_nil]⟩
    · exact ⟨[], by simp only [Function.update_of_ne hside, List.append_nil]⟩
  · exact ⟨[], (List.append_nil _).symm⟩
  · by_cases hside : side = src.other
    · subst hside
      exact ⟨data.take n, by simp only [Function.update_self]⟩
    · exact ⟨[], by simp only [Function.update_of_ne hside, List.append_nil]⟩

end Loop

/-! ## The two programs -/

/-- The local side reads from the client on its left and the remote side on its right. -/
def localPass (encrypt decrypt : Bytes → Bytes) : Side → Bytes → Bytes
  | .left => encrypt
  | .right => decrypt

/-- The remote side reads from the local side on its left and the server on its right. -/
def remotePass (encrypt decrypt : Bytes → Bytes) : Side → Bytes → Bytes
  | .left => decrypt
  | .right => encrypt

/-- Both loops; `up` and `down` are the bytes on their way from the local to the remote side
    and back, `client` and `server` the bytes of the two streams not yet read, and `toServer`
    and `toClient` what has been delivered. -/
structure System where
  localPhase : Phase
  remotePhase : Phase
  client : Bytes
  toClient : Bytes
  up : Bytes
  down : Bytes
  server : Bytes
  toServer : Bytes

/-- At the start of both loops. -/
def System.start (client server : Bytes) : System :=
  ⟨.serve [], .serve [], client, [], [], [], server, []⟩

/-- The peer of a side that has left its loop may find the end of the stream.  Leaving the loop
    does not close the connection: it stays open until the handler returns, which may be at
    any time after this. -/
def System.localLoop (s : System) : Loop where
  phase := s.localPhase
  sockets
    | .left => ⟨s.client, s.toClient, true⟩
    | .right => ⟨s.down, s.up, s.remotePhase = .stopped⟩

def System.remoteLoop (s : System) : Loop where
  phase := s.remotePhase
  sockets
    | .left => ⟨s.up, s.down, s.localPhase = .stopped⟩
    | .right => ⟨s.server, s.toServer, true⟩

def System.setLocal (s : System) (l : Loop) : System :=
  { s with
    localPhase := l.phase
    client := (l.sockets .left).input
    toClient := (l.sockets .left).output
    down := (l.sockets .right).input
    up := (l.sockets .right).output }

def System.setRemote (s : System) (l : Loop) : System :=
  { s with
    remotePhase := l.phase
    up := (l.sockets .left).input
    down := (l.sockets .left).output
    server := (l.sockets .right).input
    toServer := (l.sockets .right).output }

/-- A call of one of the sides. -/
inductive Event where
  | onLocal (call : Call)
  | onRemote (call : Call)

def systemStep (encrypt decrypt : Bytes → Bytes) (s : System) : Event → Option System
  | .onLocal call => (exchangeStep (localPass encrypt decrypt) s.localLoop call).map s.setLocal
  | .onRemote call =>
      (exchangeStep (remotePass encrypt decrypt) s.remoteLoop call).map s.setRemote

/-- Every `send` accepts everything it is given. -/
def SendsAll (s : System) : Event → Prop
  | .onLocal call => WholeSend s.localPhase call
  | .onRemote call => WholeSend s.remotePhase call

instance (s : System) : ∀ e, Decidable (SendsAll s e)
  | .onLocal call => inferInstanceAs (Decidable (WholeSend s.localPhase call))
  | .onRemote call => inferInstanceAs (Decidable (WholeSend s.remotePhase call))

/-- A stream wherever it is: delivered, held by the side that delivers it, on its way, held
    by the side that reads it, or not yet read. -/
def carried (key : KeyTable) (delivered far pipe near unread : Bytes) : Bytes :=
  delivered ++ far ++ key.decrypt (pipe ++ near ++ key.encrypt unread)

def upstream (key : KeyTable) (s : System) : Bytes :=
  carried key s.toServer (held .left s.remotePhase) s.up (held .left s.localPhase) s.client

def downstream (key : KeyTable) (s : System) : Bytes :=
  carried key s.toClient (held .right s.localPhase) s.down (held .right s.remotePhase) s.server

variable {key : KeyTable} {s s' : System}

/-- Both directions of the local side work byte by byte, -/
theorem localPass_append (src : Side) (a b : Bytes) :
    localPass key.encrypt key.decrypt src (a ++ b) =
      localPass key.encrypt key.decrypt src a ++ localPass key.encrypt key.decrypt src b := by
  cases src with
  | left => rw [localPass, key.encrypt_append]
  | right => rw [localPass, key.decrypt_append]

/-- and so do those of the remote side. -/
theorem remotePass_append (src : Side) (a b : Bytes) :
    remotePass key.encrypt key.decrypt src (a ++ b) =
      remotePass key.encrypt key.decrypt src a ++ remotePass key.encrypt key.decrypt src b := by
  cases src with
  | left => rw [remotePass, key.decrypt_append]
  | right => rw [remotePass, key.encrypt_append]

/-- A call of one side keeps the flows of that side. -/
theorem setLocal_flow {call : Call} {l : Loop} (hall : WholeSend s.localPhase call)
    (h : exchangeStep (localPass key.encrypt key.decrypt) s.localLoop call = some l)
    (side : Side) :
    l.flow (localPass key.encrypt key.decrypt) side =
      s.localLoop.flow (localPass key.encrypt key.decrypt) side :=
  exchangeStep_flow localPass_append (l := s.localLoop) hall h side

theorem setRemote_flow {call : Call} {l : Loop} (hall : WholeSend s.remotePhase call)
    (h : exchangeStep (remotePass key.encrypt key.decrypt) s.remoteLoop call = some l)
    (side : Side) :
    l.flow (remotePass key.encrypt key.decrypt) side =
      s.remoteLoop.flow (remotePass key.encrypt key.decrypt) side :=
  exchangeStep_flow remotePass_append (l := s.remoteLoop) hall h side

section Carried

variable {delivered delivered' far far' pipe pipe' near near' unread unread' : Bytes}

/-- The side that reads the stream keeps its books. -/
theorem carried_near
    (h : pipe' ++ near' ++ key.encrypt unread' = pipe ++ near ++ key.encrypt unread) :
    carried key delivered far pipe' near' unread' = carried key delivered far pipe near unread := by
  rw [carried, carried, h]

/-- What follows in the pipe does not disturb the books of the side that delivers it. -/
theorem carried_far
    (h : delivered' ++ far' ++ key.decrypt pipe' = delivered ++ far ++ key.decrypt pipe) :
    carried key delivered' far' pipe' near unread = carried key delivered far pipe near unread := by
  rw [carried, carried, List.append_assoc pipe', List.append_assoc pipe, key.decrypt_append,
    key.decrypt_append pipe, ← List.append_assoc, h, List.append_assoc]

/-- What has been delivered is a beginning of the stream, and all of it when nothing is left. -/
theorem delivered_of_carried {stream : Bytes}
    (h : carried key delivered far pipe near unread = stream) :
    delivered <+: stream ∧
      (unread = [] → near = [] → pipe = [] → far = [] → delivered = stream) := by
  subst h
  refine ⟨⟨_, (List.append_assoc ..).symm⟩, ?_⟩
  rintro rfl rfl rfl rfl
  have hnone : key.decrypt ([] ++ [] ++ key.encrypt []) = [] := key.decrypt_encrypt []
  rw [carried, hnone, List.append_nil, List.append_nil]

end Carried

/-- **ONE CALL KEEPS THE CLIENT'S STREAM.** -/
theorem upstream_step {e : Event} (hall : SendsAll s e)
    (h : systemStep key.encrypt key.decrypt s e = some s') :
    upstream key s' = upstream key s := by
  cases e with
  | onLocal call =>
      obtain ⟨l, hl, rfl⟩ := Option.map_eq_some_iff.mp h
      have hflow : (l.sockets .right).output ++ held .left l.phase ++
          key.encrypt (l.sockets .left).input =
          s.up ++ held .left s.localPhase ++ key.encrypt s.client := setLocal_flow hall hl .left
      exact carried_near hflow
  | onRemote call =>
      obtain ⟨l, hl, rfl⟩ := Option.map_eq_some_iff.mp h
      have hflow : (l.sockets .right).output ++ held .left l.phase ++
          key.decrypt (l.sockets .left).input =
          s.toServer ++ held .left s.remotePhase ++ key.decrypt s.up :=
        setRemote_flow hall hl .left
      exact carried_far hflow

/-- **ONE CALL KEEPS THE SERVER'S STREAM.** -/
theorem downstream_step {e : Event} (hall : SendsAll s e)
    (h : systemStep key.encrypt key.decrypt s e = some s') :
    downstream key s' = downstream key s := by
  cases e with
  | onLocal call =>
      obtain ⟨l, hl, rfl⟩ := Option.map_eq_some_iff.mp h
      have hflow : (l.sockets .left).output ++ held .right l.phase ++
          key.decrypt (l.sockets .right).input =
          s.toClient ++ held .right s.localPhase ++ key.decrypt s.down :=
        setLocal_flow hall hl .right
      exact carried_far hflow
  | onRemote call =>
      obtain ⟨l, hl, rfl⟩ := Option.map_eq_some_iff.mp h
      have hflow : (l.sockets .left).output ++ held .right l.phase ++
          key.encrypt (l.sockets .right).input =
          s.down ++ held .right s.remotePhase ++ key.encrypt s.server :=
        setRemote_flow hall hl .right
      exact carried_near hflow

/-- At the start nothing has been read. -/
theorem upstream_start (client server : Bytes) :
    upstream key (.start client server) = client :=
  key.decrypt_encrypt client

theorem downstream_start (client server : Bytes) :
    downstream key (.start client server) = server :=
  key.decrypt_encrypt server

/-- The client's stream has been read, and nothing of it is held or on its way. -/
def ClientProcessed (s : System) : Prop :=
  s.client = [] ∧ held .left s.localPhase = [] ∧ s.up = [] ∧ held .left s.remotePhase = []

instance (s : System) : Decidable (ClientProcessed s) :=
  inferInstanceAs (Decidable (_ ∧ _ ∧ _ ∧ _))

def ServerProcessed (s : System) : Prop :=
  s.server = [] ∧ held .right s.remotePhase = [] ∧ s.down = [] ∧ held .right s.localPhase = []

/-- **THE RELAY IS TRANSPARENT** in every run in which each `send` accepts everything: what
    has been delivered is a part of the stream from its start, and all of it once everything
    has been processed, in both directions. -/
theorem relay_transparent (key : KeyTable) (client server : Bytes) (ss : List System)
    (h : Run (systemStep key.encrypt key.decrypt) SendsAll (.start client server) ss) :
    ∀ s ∈ ss, (s.toServer <+: client ∧ (ClientProcessed s → s.toServer = client)) ∧
      (s.toClient <+: server ∧ (ServerProcessed s → s.toClient = server)) := by
  have hup : ∀ s ∈ ss, upstream key s = client :=
    h.invariant (I := fun s => upstream key s = client) (upstream_start client server)
      fun s e s' hs hall hstep => (upstream_step hall hstep).trans hs
  have hdown : ∀ s ∈ ss, downstream key s = server :=
    h.invariant (I := fun s => downstream key s = server) (downstream_start client server)
      fun s e s' hs hall hstep => (downstream_step hall hstep).trans hs
  intro s hs
  obtain ⟨hserver, hserverAll⟩ := delivered_of_carried (hup s hs)
  obtain ⟨hclient, hclientAll⟩ := delivered_of_carried (hdown s hs)
  refine ⟨⟨hserver, ?_⟩, hclient, ?_⟩
  · rintro ⟨hread, hnear, hpipe, hfar⟩
    exact hserverAll hread hnear hpipe hfar
  · rintro ⟨hread, hnear, hpipe, hfar⟩
    exact hclientAll hread hnear hpipe hfar

/-! ## Two short runs -/

/-- The client's three bytes in two chunks; the first `send` of the local side accepts `n`. -/
def twoChunks (n : Nat) : List Event :=
  [.onLocal (.select [.left]), .onLocal (.recv 2), .onLocal (.send n),
    .onLocal (.select [.left]), .onLocal (.recv 1), .onLocal (.send 1),
    .onRemote (.select [.left]), .onRemote (.recv (n + 1)), .onRemote (.send (n + 1))]

/-- Three bytes of the client in two chunks. -/
theorem relay_transparent_of_two_chunks :
    ∃ s ss, Run (systemStep nextByte.encrypt nextByte.decrypt) SendsAll (.start [1, 2, 3] [4])
        (s :: ss) ∧ ClientProcessed s ∧ s.toServer = [1, 2, 3] ∧ s.toClient <+: [4] := by
  obtain ⟨s, ss, hrun, hdone⟩ :
      ∃ s ss, Run (systemStep nextByte.encrypt nextByte.decrypt) SendsAll
        (.start [1, 2, 3] [4]) (s :: ss) ∧ ClientProcessed s := by
    refine run_reaches (twoChunks 2) ?_
    rw [nextByte_encrypt, nextByte_decrypt]
    decide +kernel
  obtain ⟨hup, hdown⟩ :=
    relay_transparent nextByte [1, 2, 3] [4] (s :: ss) hrun s List.mem_cons_self
  exact ⟨s, ss, hrun, hdone, hup.2 hdone, hdown.1⟩

/-- **A BYTE IS LOST**: the first `send` of the local side accepts one of two bytes; the
    client's stream has been processed, and its second byte was not delivered. -/
theorem partial_send_loses_byte :
    ∃ s ss, Run (systemStep nextByte.encrypt nextByte.decrypt) Always (.start [1, 2, 3] [4])
        (s :: ss) ∧ ClientProcessed s ∧ s.toServer = [1, 3] := by
  refine run_reaches (twoChunks 1) ?_
  rw [nextByte_encrypt, nextByte_decrypt]
  decide +kernel

end Proxy
