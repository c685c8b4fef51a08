import UniqueFreshman.ProxyHandshakeProofs
import UniqueFreshman.RelayProofs

/-! # The proxy — whole sessions

    `handle` of both sides from the first byte on.  A round of the local side
    reads a greeting and a request, passes the password, the key and the request
    on to the remote side, and answers the client with the reply; a round of the
    remote side checks the password, reads the request, connects to the target
    and replies.  Both go on to their relay loops when the reply is a success.

    Both handlers are `while True`.  `close_request` does not close a connection,
    because the handler's `rfile` keeps it open: only a `return` or an exception
    outside the `try` block does.  So after a refusal, and after a relay loop, a
    handler begins another round on the same connection, with the variables the
    rounds before have left: `remote` on the local side, `address` and
    `bind_address` on the remote one.

    In a round every `recv` returns as many bytes as it asks for, or fails; every
    `send` accepts all it is given, and the local side can connect to the remote
    one.  The relay loops have the calls of `exchangeStep`, and a call of a loop, as
    the wait for the reply, may raise an exception. -/

namespace Proxy

open Cipher WireFormat GuardedRun

/-! ## The handlers -/

def getMethods (n : Nat) : Reader (List UInt8) :=
  (List.range n).mapM fun _ => do lift (unpackB (← recv 1))

/-- The greeting in `SocksProxyLocal.handle`: `false` when the client does not offer to go
    without authentication. -/
def readGreeting : Reader Bool := do
  match ← recv 2 with
  | [ver, nmethods] =>
      if ver = socksVersion ∧ nmethods ≠ 0 then do
        let methods ← getMethods nmethods.toNat
        pure (decide (0 ∈ methods))
      else lift none
  | _ => lift none

/-- The answer to the greeting. -/
def greeted : Bytes := [socksVersion, 0]

/-- What the local side sends to the remote side in its `try` block. -/
def sendOpening (password : String) (encrypt : Bytes → Bytes) (req : Request) : Option Bytes := do
  let frame ← sendPassword password
  let sent ← sendRequest encrypt req
  some (frame ++ sent)

/-- Where a handler is: at the top of its loop, behind the request of the local side and before
    the reply to it, in `exchange_loop`, or behind its end. -/
inductive Stage where
  | round
  | awaiting (cmd atyp : UInt8)
  | relaying (phase : Phase)
  | ended
deriving DecidableEq

/-- Behind `exchange_loop` another round begins. -/
def stageOf : Phase → Stage
  | .stopped => .round
  | phase => .relaying phase

/-- `if reply[1] == 0 and cmd == 1`. -/
def stageAfter (reply : Bytes) (cmd : UInt8) : Stage :=
  if reply[1]? = some 0 ∧ cmd = 1 then .relaying (.serve []) else .round

/-- What a target gives: the address that the new socket is bound to, and its stream. -/
structure Target where
  host : String
  port : UInt16
  stream : Bytes

/-- A connection between the sides, with the handler of the remote side on it: `up` and `down`
    are the bytes on their way, `encrypt` and `decrypt` the functions of the last request,
    `address` and `bound` the variables `address` and `bind_address`, `asked` what it has called
    `connect` with, the last first, and `server` and `toServer` the socket to the last target. -/
structure Conn where
  stage : Stage
  up : Bytes
  down : Bytes
  encrypt : Bytes → Bytes
  decrypt : Bytes → Bytes
  address : Option String
  bound : Option (String × UInt16)
  asked : List (String × UInt16)
  server : Bytes
  toServer : Bytes

/-- A new connection; the two functions are set before they are used. -/
def Conn.fresh : Conn := ⟨.round, [], [], id, id, none, none, [], [], []⟩

/-- A round of `SocksProxyRemote.handle` on a request that was read; `connect` raises an
    exception or opens a socket to a target. -/
def Conn.serve (connect : String → UInt16 → Option Target) (c : Conn) (f : Forwarded)
    (up : Bytes) : Conn :=
  -- with another `atyp` than `1` or `3` the variable `address` is not set anew
  let address := f.address.or c.address
  let target := if f.cmd = 1 then address.bind fun a => connect a f.port else none
  let opened := target.map fun t => (t.host, t.port)
  -- and without `CONNECT` neither is `bind_address`
  let reply := remoteReply f.atyp (if f.cmd = 1 then opened else c.bound)
  { stage := stageAfter reply f.cmd
    up := up
    down := c.down ++ f.encrypt reply
    encrypt := f.encrypt
    decrypt := f.decrypt
    address := address
    bound := opened.or c.bound
    asked := if f.cmd = 1 then (address.map fun a => (a, f.port)).toList ++ c.asked else c.asked
    server := (target.map Target.stream).getD c.server
    toServer := if target.isSome then [] else c.toServer }

/-- A round of `SocksProxyRemote.handle`. -/
def remoteRound (password : String) (connect : String → UInt16 → Option Target) (c : Conn) :
    Conn :=
  match checkPassword password c.up with
  | some (true, up) =>
      match readForwarded up with
      | some (f, up) => c.serve connect f up
      | none => { c with stage := .ended }
  | _ => { c with stage := .ended }

/-- The loop of the remote side; `closed` says that the local side writes no more. -/
def Conn.loop (c : Conn) (phase : Phase) (closed : Bool) : Loop where
  phase := phase
  sockets
    | .left => ⟨c.up, c.down, closed⟩
    | .right => ⟨c.server, c.toServer, true⟩

def Conn.relayed (c : Conn) (l : Loop) : Conn :=
  { c with
    stage := stageOf l.phase
    up := (l.sockets .left).input
    down := (l.sockets .left).output
    server := (l.sockets .right).input
    toServer := (l.sockets .right).output }

/-- The handler of the local side, and the connections it has made, the last first: that is
    the variable `remote`, and the others have been closed. -/
structure Tunnel where
  stage : Stage
  client : Bytes
  toClient : Bytes
  conns : List Conn

/-- A client that is going to send these bytes. -/
def Tunnel.start (client : Bytes) : Tunnel := ⟨.round, client, [], []⟩

/-- A round of `SocksProxyLocal.handle` on a request that was read, up to the reply. -/
def Tunnel.forward (key : KeyTable) (password : String) (s : Tunnel) (req : Request)
    (client : Bytes) : Tunnel :=
  let conns := if req.cmd = 1 then .fresh :: s.conns else s.conns
  match conns, sendOpening password key.encrypt req with
  | c :: cs, some up =>
      ⟨.awaiting req.cmd req.atyp, client, s.toClient ++ greeted,
        { c with up := c.up ++ up } :: cs⟩
  -- `remote` is not set, or the length of the password cannot be packed: both before anything
  -- is sent, and the address of a request that was read can always be packed
  | conns, _ => ⟨.round, client, s.toClient ++ (greeted ++ packReply 5 req.atyp 0 0), conns⟩

/-- A round of `SocksProxyLocal.handle` up to the reply. -/
def Tunnel.request (key : KeyTable) (password : String) (s : Tunnel) : Tunnel :=
  match readGreeting s.client with
  | some (true, client) =>
      match readRequest client with
      | some (req, client) => s.forward key password req client
      | none => { s with stage := .ended, toClient := s.toClient ++ greeted }
  | _ => { s with stage := .ended }

/-- The reply, and what comes after it. -/
def Tunnel.answered (key : KeyTable) (s : Tunnel) (cmd atyp : UInt8) (c : Conn)
    (cs : List Conn) : Tunnel :=
  let (reply, down) := localReply key.decrypt atyp c.down
  { s with
    stage := stageAfter reply cmd
    toClient := s.toClient ++ reply
    conns := { c with down := down } :: cs }

/-- The loop of the local side. -/
def Tunnel.loop (s : Tunnel) (c : Conn) (phase : Phase) : Loop where
  phase := phase
  sockets
    | .left => ⟨s.client, s.toClient, true⟩
    | .right => ⟨c.down, c.up, c.stage = .ended⟩

def Tunnel.relayed (c : Conn) (cs : List Conn) (l : Loop) : Tunnel where
  stage := stageOf l.phase
  client := (l.sockets .left).input
  toClient := (l.sockets .left).output
  conns := { c with down := (l.sockets .right).input, up := (l.sockets .right).output } :: cs

/-! ## Steps -/

/-- A round up to the reply, the reply, a call of the relay loop, or an exception. -/
inductive LocalMove where
  | request
  | answer
  | call (call : Call)
  | raise

inductive RemoteMove where
  | round
  | call (call : Call)
  | raise

/-- A step of the local side, or of the remote side on one of the connections. -/
inductive Move where
  | onLocal (m : LocalMove)
  | onRemote (i : Nat) (m : RemoteMove)

def localStep (key : KeyTable) (password : String) (s : Tunnel) : LocalMove → Option Tunnel
  | .request => if s.stage = .round then some (s.request key password) else none
  | .answer =>
      match s.stage, s.conns with
      | .awaiting cmd atyp, c :: cs =>
          -- `recv` waits until something has arrived, or nothing can arrive any more
          if c.down ≠ [] ∨ c.stage = .ended then some (s.answered key cmd atyp c cs) else none
      | _, _ => none
  | .call call =>
      match s.stage, s.conns with
      | .relaying phase, c :: cs =>
          (exchangeStep (localPass key.encrypt key.decrypt) (s.loop c phase) call).map
            (Tunnel.relayed c cs)
      | _, _ => none
  | .raise =>
      match s.stage with
      -- the wait for the reply is in the `try` block
      | .awaiting _ atyp =>
          some { s with stage := .round, toClient := s.toClient ++ packReply 5 atyp 0 0 }
      | .relaying _ => some { s with stage := .ended }
      | _ => none

def remoteStep (password : String) (connect : String → UInt16 → Option Target) (closed : Bool)
    (c : Conn) : RemoteMove → Option Conn
  | .round =>
      if c.stage = .round ∧ (c.up ≠ [] ∨ closed = true) then some (remoteRound password connect c)
      else none
  | .call call =>
      match c.stage with
      | .relaying phase =>
          (exchangeStep (remotePass c.encrypt c.decrypt) (c.loop phase closed) call).map c.relayed
      | _ => none
  | .raise =>
      match c.stage with
      | .relaying _ => some { c with stage := .ended }
      | _ => none

def tunnelStep (key : KeyTable) (password remotePassword : String)
    (connect : String → UInt16 → Option Target) (s : Tunnel) : Move → Option Tunnel
  | .onLocal m => localStep key password s m
  | .onRemote i m =>
      match s.conns[i]? with
      | none => none
      | some c =>
          (remoteStep remotePassword connect (i ≠ 0 ∨ s.stage = .ended) c m).map fun c' =>
            { s with conns := s.conns.set i c' }

variable {key : KeyTable} {password remotePassword : String}
  {connect : String → UInt16 → Option Target} {s s' : Tunnel} {c c' : Conn}

/-- Everything a step of the local side can do. -/
theorem localStep_cases {m : LocalMove} (h : localStep key password s m = some s') :
    (m = .request ∧ s.stage = .round ∧ s' = s.request key password) ∨
    (∃ cmd atyp c cs, m = .answer ∧ s.stage = .awaiting cmd atyp ∧ s.conns = c :: cs ∧
      (c.down ≠ [] ∨ c.stage = .ended) ∧ s' = s.answered key cmd atyp c cs) ∨
    (∃ call phase c cs l, m = .call call ∧ s.stage = .relaying phase ∧ s.conns = c :: cs ∧
      exchangeStep (localPass key.encrypt key.decrypt) (s.loop c phase) call = some l ∧
      s' = .relayed c cs l) ∨
    (m = .raise ∧ ((∃ cmd atyp, s.stage = .awaiting cmd atyp ∧
        s' = { s with stage := .round, toClient := s.toClient ++ packReply 5 atyp 0 0 }) ∨
      ∃ phase, s.stage = .relaying phase ∧ s' = { s with stage := .ended })) := by
  cases m with
  | request =>
      obtain ⟨hstage, hs'⟩ := Option.ite_none_right_eq_some.mp h
      exact .inl ⟨rfl, hstage, (Option.some.inj hs').symm⟩
  | answer =>
      simp only [localStep] at h
      split at h
      · next cmd atyp c cs hstage hconns =>
          obtain ⟨hdown, hs'⟩ := Option.ite_none_right_eq_some.mp h
          exact .inr (.inl ⟨cmd, atyp, c, cs, rfl, hstage, hconns, hdown,
            (Option.some.inj hs').symm⟩)
      · cases h
  | call call =>
      simp only [localStep] at h
      split at h
      · next phase c cs hstage hconns =>
          obtain ⟨l, hl, hs'⟩ := Option.map_eq_some_iff.mp h
          exact .inr (.inr (.inl ⟨call, phase, c, cs, l, rfl, hstage, hconns, hl, hs'.symm⟩))
      · cases h
  | raise =>
      simp only [localStep] at h
      split at h
      · next cmd atyp hstage =>
          exact .inr (.inr (.inr ⟨rfl, .inl ⟨cmd, atyp, hstage, (Option.some.inj h).symm⟩⟩))
      · next phase hstage =>
          exact .inr (.inr (.inr ⟨rfl, .inr ⟨phase, hstage, (Option.some.inj h).symm⟩⟩))
      · cases h

/-- Everything a step of the remote side can do. -/
theorem remoteStep_cases {closed : Bool} {m : RemoteMove}
    (h : remoteStep password connect closed c m = some c') :
    (m = .round ∧ c.stage = .round ∧ c' = remoteRound password connect c) ∨
    (∃ call phase l, m = .call call ∧ c.stage = .relaying phase ∧
      exchangeStep (remotePass c.encrypt c.decrypt) (c.loop phase closed) call = some l ∧
      c' = c.relayed l) ∨
    (∃ phase, m = .raise ∧ c.stage = .relaying phase ∧ c' = { c with stage := .ended }) := by
  cases m with
  | round =>
      obtain ⟨⟨hstage, -⟩, hc'⟩ := Option.ite_none_right_eq_some.mp h
      exact .inl ⟨rfl, hstage, (Option.some.inj hc').symm⟩
  | call call =>
      simp only [remoteStep] at h
      split at h
      · next phase hstage =>
          obtain ⟨l, hl, hc'⟩ := Option.map_eq_some_iff.mp h
          exact .inr (.inl ⟨call, phase, l, rfl, hstage, hl, hc'.symm⟩)
      · cases h
  | raise =>
      simp only [remoteStep] at h
      split at h
      · next phase hstage =>
          exact .inr (.inr ⟨phase, rfl, hstage, (Option.some.inj h).symm⟩)
      · cases h

/-- A step on a connection changes that connection. -/
theorem tunnelStep_remote {i : Nat} {m : RemoteMove}
    (h : tunnelStep key password remotePassword connect s (.onRemote i m) = some s') :
    ∃ c c', s.conns[i]? = some c ∧
      remoteStep remotePassword connect (i ≠ 0 ∨ s.stage = .ended) c m = some c' ∧
      s' = { s with conns := s.conns.set i c' } := by
  simp only [tunnelStep] at h
  split at h
  · cases h
  · next c hc =>
      obtain ⟨c', hc', hs'⟩ := Option.map_eq_some_iff.mp h
      exact ⟨c, c', hc, hc', hs'.symm⟩

/-- What was read from `src` and not yet sent. -/
def heldIn (src : Side) : Stage → Bytes
  | .relaying phase => held src phase
  | _ => []

theorem heldIn_stageOf (src : Side) (phase : Phase) :
    heldIn src (stageOf phase) = held src phase := by
  cases phase with
  | serve todo => rfl
  | send src' data todo => rfl
  | stopped => rfl

/-! ## The way to the target -/

/-- An ASCII password is accepted by a remote side that has the same one. -/
theorem checkPassword_self (hp : password.length < 256) (hascii : IsAscii password)
    (rest : Bytes) :
    checkPassword password (UInt8.ofNat password.length :: encodeUtf8 password ++ rest) =
      some (true, rest) := by
  obtain ⟨htake, hdrop⟩ := take_encodeUtf8_of_ascii hascii
  rw [checkPassword_accepts hp, htake, hdrop]
  exact ⟨rfl, rfl⟩

/-- The frame of the password, and the request behind it. -/
theorem sendOpening_eq {req : Request} (hp : password.length < 256) {sent : Bytes}
    (hsent : sendRequest key.encrypt req = some sent) :
    sendOpening password key.encrypt req =
      some (UInt8.ofNat password.length :: encodeUtf8 password ++ sent) := by
  rw [sendOpening, sendPassword_eq hp, hsent]
  rfl

/-- What a client asks for: a greeting and a request to connect to `name`, and behind them
    `payload`; and a target that is reached there, whose socket is bound to `addr`. -/
structure Asks (connect : String → UInt16 → Option Target) (client : Bytes) (req : Request)
    (name : String) (payload : Bytes) (t : Target) (addr : Nat) : Prop where
  reads : ∃ rest, readGreeting client = some (true, rest) ∧ readRequest rest = some (req, payload)
  named : req.address.name = some name
  connects : req.cmd = 1
  reached : connect name req.port = some t
  bound : (inetAton t.host).bind unpackI = some addr

/-- The connection when the local side has sent its request. -/
def Conn.opened (up : Bytes) : Conn := { Conn.fresh with up := up }

/-- The connection when the remote side has replied. -/
def Conn.connected (key : KeyTable) (name : String) (asked : UInt16) (t : Target) (addr : Nat) :
    Conn :=
  { stage := .relaying (.serve [])
    up := []
    down := key.encrypt (packReply 0 1 addr t.port)
    encrypt := key.encrypt
    decrypt := key.decrypt
    address := some name
    bound := some (t.host, t.port)
    asked := [(name, asked)]
    server := t.stream
    toServer := [] }

section Asks

variable {client payload : Bytes} {req : Request} {name : String} {t : Target} {addr : Nat}
  (h : Asks connect client req name payload t addr)
include h

/-- The reply names what the socket to the target is bound to. -/
theorem Asks.remoteReply_eq :
    remoteReply req.atyp (some (t.host, t.port)) = packReply 0 1 addr t.port := by
  obtain ⟨data, hdata, haddr⟩ := Option.bind_eq_some_iff.mp h.bound
  simp [remoteReply, hdata, haddr]

/-- **THE TARGET IS REACHED**: the first round of the remote side, on what the local side has
    sent in its first round, connects to the address and the port of the request, and replies
    with what its socket is bound to. -/
theorem Asks.opens (key : KeyTable) (hp : password.length < 256) (hascii : IsAscii password) :
    ∃ up, up ≠ [] ∧
      (Tunnel.start client).request key password =
        ⟨.awaiting 1 req.atyp, payload, greeted, [.opened up]⟩ ∧
      remoteRound password connect (.opened up) = .connected key name req.port t addr := by
  obtain ⟨rest, hgreeting, hreq⟩ := h.reads
  obtain ⟨sent, hsent, hreads⟩ :
      ∃ sent, sendRequest key.encrypt req = some sent ∧ Reads readForwarded sent
        ⟨key.encrypt, key.decrypt, socksVersion, req.cmd, req.atyp, some name, req.port⟩ :=
    reads_forwarded (readRequest_wellRead hreq) h.named
  have hopening := sendOpening_eq hp hsent
  have hforwarded := hreads []
  rw [List.append_nil] at hforwarded
  refine ⟨UInt8.ofNat password.length :: encodeUtf8 password ++ sent, List.cons_ne_nil _ _,
    ?_, ?_⟩
  · have hstart : (Tunnel.start client).client = client := rfl
    rw [Tunnel.request, hstart, hgreeting]
    simp only [hreq]
    rw [Tunnel.forward, h.connects, if_pos rfl, hopening]
    rfl
  · have hup : (Conn.opened (UInt8.ofNat password.length :: encodeUtf8 password ++ sent)).up =
        UInt8.ofNat password.length :: encodeUtf8 password ++ sent := rfl
    rw [remoteRound, hup, checkPassword_self hp hascii]
    simp only [hforwarded]
    simp only [Conn.serve, h.connects, if_true, Option.some_or, Option.bind_some, h.reached,
      Option.map_some, h.remoteReply_eq]
    rfl

end Asks

/-! ## The first session -/

/-- A call that sends sends everything. -/
def Stage.SendsAll (stage : Stage) (call : Call) : Prop :=
  match stage with
  | .relaying phase => WholeSend phase call
  | _ => True

instance (stage : Stage) (call : Call) : Decidable (stage.SendsAll call) := by
  cases stage with
  | relaying phase => exact inferInstanceAs (Decidable (WholeSend phase call))
  | round => exact inferInstanceAs (Decidable True)
  | awaiting cmd atyp => exact inferInstanceAs (Decidable True)
  | ended => exact inferInstanceAs (Decidable True)

/-- Neither side begins a second round, each `send` accepts everything, and nothing raises an
    exception. -/
def FirstSession (s : Tunnel) : Move → Prop
  | .onLocal .request => s.conns = []
  | .onLocal .answer => True
  | .onLocal (.call call) => s.stage.SendsAll call
  | .onRemote i .round => ∀ c ∈ s.conns[i]?, c.asked = []
  | .onRemote i (.call call) => ∀ c ∈ s.conns[i]?, c.stage.SendsAll call
  | .onLocal .raise | .onRemote _ .raise => False

instance (s : Tunnel) : ∀ m, Decidable (FirstSession s m)
  | .onLocal .request => decidable_of_iff (s.conns.isEmpty = true) List.isEmpty_iff
  | .onLocal .answer => inferInstanceAs (Decidable True)
  | .onLocal (.call call) => inferInstanceAs (Decidable (s.stage.SendsAll call))
  | .onRemote i .round => inferInstanceAs (Decidable (∀ c ∈ s.conns[i]?, c.asked = []))
  | .onRemote i (.call call) =>
      inferInstanceAs (Decidable (∀ c ∈ s.conns[i]?, c.stage.SendsAll call))
  | .onLocal .raise | .onRemote _ .raise => inferInstanceAs (Decidable False)

/-- The client's stream has been read, and nothing of it is held or on its way. -/
def Tunnel.UpDone (s : Tunnel) (c : Conn) : Prop :=
  s.client = [] ∧ heldIn .left s.stage = [] ∧ c.up = [] ∧ heldIn .left c.stage = []

instance (s : Tunnel) (c : Conn) : Decidable (s.UpDone c) :=
  inferInstanceAs (Decidable (_ ∧ _ ∧ _ ∧ _))

/-- The remote side has been asked for a target, whose stream has been read, and nothing of it
    is held or on its way. -/
def Tunnel.DownDone (s : Tunnel) (c : Conn) : Prop :=
  c.asked ≠ [] ∧ c.server = [] ∧ heldIn .right c.stage = [] ∧ c.down = [] ∧
    heldIn .right s.stage = []

/-- The sides are connected, and both streams are accounted for; the reply belongs to the one
    to the client, and its bytes are at the front as long as the local side waits for them. -/
structure Underway (key : KeyTable) (target : String × UInt16) (payload : Bytes) (addr : Nat)
    (t : Target) (s : Tunnel) (c : Conn) : Prop where
  conns : s.conns = [c]
  asked : c.asked = [target]
  encrypt : c.encrypt = key.encrypt
  decrypt : c.decrypt = key.decrypt
  up : carried key c.toServer (heldIn .left c.stage) c.up (heldIn .left s.stage) s.client =
    payload
  down : carried key s.toClient (heldIn .right s.stage) c.down (heldIn .right c.stage) c.server =
    greeted ++ packReply 0 1 addr t.port ++ t.stream
  pending : ∀ cmd atyp, s.stage = .awaiting cmd atyp →
    cmd = 1 ∧ ∃ rest, c.down = key.encrypt (packReply 0 1 addr t.port) ++ rest

section Underway

variable {target : String × UInt16} {payload : Bytes} {addr : Nat} {t : Target}

theorem stageOf_ne_awaiting (phase : Phase) (cmd atyp : UInt8) :
    stageOf phase ≠ .awaiting cmd atyp := by
  cases phase with
  | serve todo => exact Stage.noConfusion
  | send src data todo => exact Stage.noConfusion
  | stopped => exact Stage.noConfusion

/-- The state in which the remote side has replied. -/
theorem underway_connected (name : String) (port : UInt16) (atyp : UInt8) :
    Underway key (name, port) payload addr t
      ⟨.awaiting 1 atyp, payload, greeted, [.connected key name port t addr]⟩
      (.connected key name port t addr) where
  conns := rfl
  asked := rfl
  encrypt := rfl
  decrypt := rfl
  up := key.decrypt_encrypt payload
  down := by
    have hreply : key.decrypt (key.encrypt (packReply 0 1 addr t.port) ++ [] ++
        key.encrypt t.stream) = packReply 0 1 addr t.port ++ t.stream := by
      rw [List.append_nil, key.decrypt_append, key.decrypt_encrypt, key.decrypt_encrypt]
    show greeted ++ [] ++ key.decrypt (key.encrypt (packReply 0 1 addr t.port) ++ [] ++
      key.encrypt t.stream) = _
    rw [List.append_nil greeted, hreply, List.append_assoc]
  pending := by
    intro cmd atyp' hstage
    cases hstage
    exact ⟨rfl, [], (List.append_nil _).symm⟩

/-- The reply: the local side takes eight of its bytes and leaves those of the port. -/
theorem answered_eq {atyp : UInt8} {rest : Bytes} {cs : List Conn}
    (hdown : c.down = key.encrypt (packReply 0 1 addr t.port) ++ rest) :
    s.answered key 1 atyp c cs =
      { s with
        stage := .relaying (.serve [])
        toClient := s.toClient ++ ([socksVersion, 0, 0, 1] ++ packI addr)
        conns := { c with down := key.encrypt (packH t.port) ++ rest } :: cs } := by
  rw [Tunnel.answered, hdown, localReply_packReply, if_pos rfl]
  rfl

theorem Underway.answered {atyp : UInt8} (h : Underway key target payload addr t s c)
    (hstage : s.stage = .awaiting 1 atyp) :
    ∃ c', Underway key target payload addr t (s.answered key 1 atyp c []) c' := by
  obtain ⟨-, rest, hdown⟩ := h.pending 1 atyp hstage
  have hheld (src : Side) : heldIn src s.stage = [] := by rw [hstage]; rfl
  have hreply : s.toClient ++ ([socksVersion, 0, 0, 1] ++ packI addr) ++ [] ++
      key.decrypt (key.encrypt (packH t.port) ++ rest) =
      s.toClient ++ heldIn .right s.stage ++ key.decrypt c.down := by
    rw [hheld, hdown, packReply, key.decrypt_append, key.decrypt_append, key.decrypt_encrypt,
      key.decrypt_encrypt]
    simp only [List.append_assoc, List.append_nil]
  rw [answered_eq hdown]
  refine ⟨{ c with down := key.encrypt (packH t.port) ++ rest }, rfl, h.asked, h.encrypt,
    h.decrypt, ?_, ?_, fun cmd atyp' hawait => Stage.noConfusion hawait⟩
  · have hup := h.up
    rw [hheld] at hup
    exact hup
  · exact (carried_far hreply).trans h.down

/-- A call of the local side. -/
theorem Underway.onLocal {phase : Phase} {call : Call} {l : Loop}
    (h : Underway key target payload addr t s c) (hstage : s.stage = .relaying phase)
    (hall : WholeSend phase call)
    (hl : exchangeStep (localPass key.encrypt key.decrypt) (s.loop c phase) call = some l) :
    ∃ c', Underway key target payload addr t (.relayed c [] l) c' := by
  have hflow := exchangeStep_flow localPass_append (l := s.loop c phase) hall hl
  have hleft : (l.sockets .right).output ++ held .left l.phase ++
      key.encrypt (l.sockets .left).input =
      c.up ++ heldIn .left s.stage ++ key.encrypt s.client := by
    rw [hstage]
    exact hflow .left
  have hright : (l.sockets .left).output ++ held .right l.phase ++
      key.decrypt (l.sockets .right).input =
      s.toClient ++ heldIn .right s.stage ++ key.decrypt c.down := by
    rw [hstage]
    exact hflow .right
  rw [← heldIn_stageOf] at hleft hright
  exact ⟨_, rfl, h.asked, h.encrypt, h.decrypt, (carried_near hleft).trans h.up,
    (carried_far hright).trans h.down,
    fun cmd atyp hawait => absurd hawait (stageOf_ne_awaiting l.phase cmd atyp)⟩

/-- A call of the remote side; what it sends comes behind the reply. -/
theorem Underway.onRemote {phase : Phase} {closed : Bool} {call : Call} {l : Loop}
    (h : Underway key target payload addr t s c) (hstage : c.stage = .relaying phase)
    (hall : WholeSend phase call)
    (hl : exchangeStep (remotePass c.encrypt c.decrypt) (c.loop phase closed) call = some l) :
    Underway key target payload addr t { s with conns := [c.relayed l] } (c.relayed l) := by
  rw [h.encrypt, h.decrypt] at hl
  have hflow := exchangeStep_flow remotePass_append (l := c.loop phase closed) hall hl
  have hleft : (l.sockets .right).output ++ held .left l.phase ++
      key.decrypt (l.sockets .left).input =
      c.toServer ++ heldIn .left c.stage ++ key.decrypt c.up := by
    rw [hstage]
    exact hflow .left
  have hright : (l.sockets .left).output ++ held .right l.phase ++
      key.encrypt (l.sockets .right).input =
      c.down ++ heldIn .right c.stage ++ key.encrypt c.server := by
    rw [hstage]
    exact hflow .right
  rw [← heldIn_stageOf] at hleft hright
  refine ⟨rfl, h.asked, h.encrypt, h.decrypt, (carried_far hleft).trans h.up,
    (carried_near hright).trans h.down, ?_⟩
  intro cmd atyp hawait
  obtain ⟨hcmd, rest, hdown⟩ := h.pending cmd atyp hawait
  obtain ⟨more, hmore⟩ : ∃ more, (l.sockets .left).output = c.down ++ more :=
    exchangeStep_output hl .left
  refine ⟨hcmd, rest ++ more, ?_⟩
  show (l.sockets .left).output = _
  rw [hmore, hdown, List.append_assoc]

/-- **ONE STEP OF A SESSION UNDER WAY.** -/
theorem Underway.step {m : Move} (h : Underway key target payload addr t s c)
    (hfirst : FirstSession s m)
    (hstep : tunnelStep key password remotePassword connect s m = some s') :
    ∃ c', Underway key target payload addr t s' c' := by
  have hmem : c ∈ s.conns[0]? := by rw [h.conns]; rfl
  cases m with
  | onLocal m =>
      rcases localStep_cases hstep with ⟨rfl, -, -⟩ |
        ⟨cmd, atyp, c', cs, rfl, hstage, hconns, -, rfl⟩ |
        ⟨call, phase, c', cs, l, rfl, hstage, hconns, hl, rfl⟩ | ⟨rfl, -⟩
      · exact absurd (h.conns.symm.trans hfirst) (List.cons_ne_nil _ _)
      · obtain ⟨rfl, rfl⟩ := List.cons.inj (h.conns.symm.trans hconns)
        obtain rfl := (h.pending cmd atyp hstage).1
        exact h.answered hstage
      · obtain ⟨rfl, rfl⟩ := List.cons.inj (h.conns.symm.trans hconns)
        rw [FirstSession, hstage] at hfirst
        exact h.onLocal hstage hfirst hl
      · exact hfirst.elim
  | onRemote i m =>
      obtain ⟨c₀, c', hc₀, hc', rfl⟩ := tunnelStep_remote hstep
      -- there is no other connection
      obtain ⟨rfl, rfl⟩ : i = 0 ∧ c₀ = c := by
        rw [h.conns, List.getElem?_eq_some_iff] at hc₀
        obtain ⟨hi, hget⟩ := hc₀
        obtain rfl : i = 0 := Nat.lt_one_iff.mp hi
        exact ⟨rfl, hget.symm⟩
      rcases remoteStep_cases hc' with ⟨rfl, -, -⟩ | ⟨call, phase, l, rfl, hstage, hl, rfl⟩ |
        ⟨phase, rfl, -⟩
      · exact absurd (h.asked.symm.trans (hfirst c₀ hmem)) (List.cons_ne_nil _ _)
      · have hall := hfirst c₀ hmem
        rw [hstage] at hall
        rw [h.conns]
        exact ⟨_, h.onRemote hstage hall hl⟩
      · exact hfirst.elim

end Underway

/-- A first session before the local side has sent its request, before the remote side has
    replied to it, and from then on. -/
def Progress (key : KeyTable) (client : Bytes) (req : Request) (name : String)
    (payload up : Bytes) (addr : Nat) (t : Target) (s : Tunnel) : Prop :=
  s = .start client ∨ s = ⟨.awaiting 1 req.atyp, payload, greeted, [.opened up]⟩ ∨
    ∃ c, Underway key (name, req.port) payload addr t s c

section Progress

variable {client payload up : Bytes} {req : Request} {name : String} {t : Target} {addr : Nat}

/-- While the remote side has not replied, its first round is the only step. -/
theorem opened_step {m : Move}
    (hround : remoteRound password connect (.opened up) = .connected key name req.port t addr)
    (hfirst : FirstSession ⟨.awaiting 1 req.atyp, payload, greeted, [.opened up]⟩ m)
    (hstep : tunnelStep key remotePassword password connect
      ⟨.awaiting 1 req.atyp, payload, greeted, [.opened up]⟩ m = some s') :
    s' = ⟨.awaiting 1 req.atyp, payload, greeted, [.connected key name req.port t addr]⟩ := by
  cases m with
  | onLocal m =>
      rcases localStep_cases hstep with ⟨-, hstage, -⟩ |
        ⟨cmd, atyp, c, cs, -, -, hconns, hdown, -⟩ |
        ⟨call, phase, c, cs, l, -, hstage, -⟩ | ⟨rfl, -⟩
      · cases hstage
      · obtain ⟨rfl, -⟩ := List.cons.inj hconns
        rcases hdown with hdown | hstage
        · exact absurd rfl hdown
        · cases hstage
      · cases hstage
      · exact hfirst.elim
  | onRemote i m =>
      obtain ⟨c, c', hc, hc', rfl⟩ := tunnelStep_remote hstep
      obtain ⟨hi, hget⟩ := List.getElem?_eq_some_iff.mp hc
      obtain rfl : i = 0 := Nat.lt_one_iff.mp hi
      obtain rfl : Conn.opened up = c := hget
      rcases remoteStep_cases hc' with ⟨-, -, rfl⟩ | ⟨call, phase, l, -, hstage, -⟩ |
        ⟨phase, -, hstage, -⟩
      · rw [hround]
        rfl
      · cases hstage
      · cases hstage

/-- **ONE STEP OF A FIRST SESSION.** -/
theorem Progress.step {m : Move}
    (hrequest : (Tunnel.start client).request key password =
      ⟨.awaiting 1 req.atyp, payload, greeted, [.opened up]⟩)
    (hround : remoteRound password connect (.opened up) = .connected key name req.port t addr)
    (h : Progress key client req name payload up addr t s) (hfirst : FirstSession s m)
    (hstep : tunnelStep key password password connect s m = some s') :
    Progress key client req name payload up addr t s' := by
  rcases h with rfl | rfl | ⟨c, hc⟩
  · -- without a connection only the local side can take a step
    cases m with
    | onLocal m =>
        rcases localStep_cases hstep with ⟨-, -, rfl⟩ | ⟨cmd, atyp, c, cs, -, hstage, -⟩ |
          ⟨call, phase, c, cs, l, -, hstage, -⟩ | ⟨rfl, -⟩
        · exact .inr (.inl hrequest)
        · cases hstage
        · cases hstage
        · exact hfirst.elim
    | onRemote i m =>
        obtain ⟨c, -, hc, -⟩ := tunnelStep_remote hstep
        cases hc
  · rw [opened_step hround hfirst hstep]
    exact .inr (.inr ⟨_, underway_connected name req.port req.atyp⟩)
  · exact .inr (.inr (hc.step hfirst hstep))

/-- What the invariant says about the two streams. -/
theorem Progress.delivered (hup : up ≠ [])
    (h : Progress key client req name payload up addr t s) :
    (∀ c ∈ s.conns, c.asked <+: [(name, req.port)] ∧ c.toServer <+: payload ∧
      (s.UpDone c → c.toServer = payload) ∧
      (s.DownDone c → s.toClient = greeted ++ packReply 0 1 addr t.port ++ t.stream)) ∧
    s.toClient <+: greeted ++ packReply 0 1 addr t.port ++ t.stream := by
  rcases h with rfl | rfl | ⟨c, hc⟩
  · exact ⟨fun c hc => absurd hc List.not_mem_nil, List.nil_prefix⟩
  · refine ⟨?_, ⟨packReply 0 1 addr t.port ++ t.stream, (List.append_assoc ..).symm⟩⟩
    intro c hc
    obtain rfl := List.mem_singleton.mp hc
    refine ⟨List.nil_prefix, List.nil_prefix, ?_, ?_⟩
    · rintro ⟨-, -, hdone, -⟩
      exact absurd hdone hup
    · rintro ⟨hasked, -⟩
      exact absurd rfl hasked
  · obtain ⟨hserver, hserverAll⟩ := delivered_of_carried hc.up
    obtain ⟨hclient, hclientAll⟩ := delivered_of_carried hc.down
    refine ⟨?_, hclient⟩
    intro c' hc'
    rw [hc.conns] at hc'
    obtain rfl := List.mem_singleton.mp hc'
    refine ⟨hc.asked ▸ List.prefix_rfl, hserver, ?_, ?_⟩
    · rintro ⟨hread, hnear, hpipe, hfar⟩
      exact hserverAll hread hnear hpipe hfar
    · rintro ⟨-, hread, hnear, hpipe, hfar⟩
      exact hclientAll hread hnear hpipe hfar

/-- The request, the first round of the remote side and the reply lead both sides into their
    loops. -/
theorem first_session_reaches (hup : up ≠ [])
    (hrequest : (Tunnel.start client).request key password =
      ⟨.awaiting 1 req.atyp, payload, greeted, [.opened up]⟩)
    (hround : remoteRound password connect (.opened up) = .connected key name req.port t addr) :
    ∃ s c ss, Run (tunnelStep key password password connect) FirstSession (.start client)
        (s :: ss) ∧
      s.stage = .relaying (.serve []) ∧ s.conns = [c] ∧ c.stage = .relaying (.serve []) ∧
      c.asked = [(name, req.port)] := by
  have hopen : tunnelStep key password password connect (.start client) (.onLocal .request) =
      some ⟨.awaiting 1 req.atyp, payload, greeted, [.opened up]⟩ :=
    congrArg some hrequest
  have hserve : remoteStep password connect false (.opened up) .round =
      some (.connected key name req.port t addr) := by
    rw [← hround]
    exact if_pos ⟨rfl, .inl hup⟩
  have hconnect : tunnelStep key password password connect
      ⟨.awaiting 1 req.atyp, payload, greeted, [.opened up]⟩ (.onRemote 0 .round) =
      some ⟨.awaiting 1 req.atyp, payload, greeted, [.connected key name req.port t addr]⟩ :=
    congrArg (Option.map fun c' => (⟨.awaiting 1 req.atyp, payload, greeted, [c']⟩ : Tunnel)) hserve
  have hasked : FirstSession ⟨.awaiting 1 req.atyp, payload, greeted, [.opened up]⟩
      (.onRemote 0 .round) := by
    intro c hc
    cases hc
    rfl
  have hdown : (Conn.connected key name req.port t addr).down =
      key.encrypt (packReply 0 1 addr t.port) ++ [] := (List.append_nil _).symm
  have hwaits : (Conn.connected key name req.port t addr).down ≠ [] := by
    intro hnil
    have hlength := congrArg List.length hnil
    rw [hdown, List.append_nil, length_encrypt] at hlength
    cases hlength
  have hanswer : tunnelStep key password password connect
      ⟨.awaiting 1 req.atyp, payload, greeted, [.connected key name req.port t addr]⟩
      (.onLocal .answer) = some (Tunnel.answered key
        ⟨.awaiting 1 req.atyp, payload, greeted, [.connected key name req.port t addr]⟩ 1 req.atyp
        (.connected key name req.port t addr) []) := by
    simp only [tunnelStep, localStep]
    exact if_pos (.inl hwaits)
  rw [answered_eq hdown] at hanswer
  have hrun : Run (tunnelStep key password password connect) FirstSession (.start client) _ :=
    .next (.onLocal .answer) (.next (.onRemote 0 .round)
      (.next (.onLocal .request) .start rfl hopen) hasked hconnect) trivial hanswer
  exact ⟨_, _, _, hrun, rfl, rfl, rfl, rfl⟩

end Progress

/-- **A SESSION REACHES ITS TARGET AND NOTHING ELSE.**  The request, the first round of the
    remote side and the reply to it lead both sides into their loops.  In every run of the
    first session the remote side has connected to nothing but the target of the request; the
    target has got a part of the client's stream from its start, and the client the answer to
    its greeting, the reply and a part of the target's stream, and both all of it once
    everything has been processed. -/
theorem session_relays (key : KeyTable) (password : String) (hp : password.length < 256)
    (hascii : IsAscii password) (connect : String → UInt16 → Option Target)
    (client payload : Bytes) (req : Request) (name : String) (t : Target) (addr : Nat)
    (h : Asks connect client req name payload t addr) :
    (∃ s c ss, Run (tunnelStep key password password connect) FirstSession (.start client)
        (s :: ss) ∧
      s.stage = .relaying (.serve []) ∧ s.conns = [c] ∧ c.stage = .relaying (.serve []) ∧
      c.asked = [(name, req.port)]) ∧
    ∀ ss, Run (tunnelStep key password password connect) FirstSession (.start client) ss →
      ∀ s ∈ ss,
        (∀ c ∈ s.conns, c.asked <+: [(name, req.port)] ∧ c.toServer <+: payload ∧
          (s.UpDone c → c.toServer = payload) ∧
          (s.DownDone c → s.toClient = greeted ++ packReply 0 1 addr t.port ++ t.stream)) ∧
        s.toClient <+: greeted ++ packReply 0 1 addr t.port ++ t.stream := by
  obtain ⟨up, hup, hrequest, hround⟩ := h.opens key hp hascii
  refine ⟨?_, ?_⟩
  · exact first_session_reaches hup hrequest hround
  · intro ss hrun s hs
    have hkept := hrun.invariant (I := Progress key client req name payload up addr t) (.inl rfl)
      fun s m s' hs hfirst hstep => hs.step hrequest hround hfirst hstep
    exact (hkept s hs).delivered hup

/-- Every target is reached, through a socket bound to port 4000 of `10.0.0.2`, and sends one
    byte. -/
def boundTo (_name : String) (_port : UInt16) : Option Target :=
  some ⟨String.ofList ['1', '0', '.', '0', '.', '0', '.', '2'], 4000, [7]⟩

/-- A client that connects to port 80 of `127.0.0.1`, and sends one byte more. -/
def connecting : Bytes := [5, 1, 0] ++ [5, 1, 0, 1, 127, 0, 0, 1, 0, 80] ++ [9]

/-- The handshake, and the way of that byte. -/
def oneByte : List Move :=
  [.onLocal .request, .onRemote 0 .round, .onLocal .answer,
    .onLocal (.call (.select [.left])), .onLocal (.call (.recv 1)), .onLocal (.call (.send 1)),
    .onRemote 0 (.call (.select [.left])), .onRemote 0 (.call (.recv 1)),
    .onRemote 0 (.call (.send 1))]

/-- The byte behind the request reaches the target. -/
theorem session_relays_of_connect :
    ∃ s ss, Run (tunnelStep nextByte (String.ofList ['a', 'b']) (String.ofList ['a', 'b']) boundTo)
        FirstSession (.start connecting) (s :: ss) ∧
      (∃ c ∈ s.conns, s.UpDone c ∧ c.toServer = [9] ∧
        c.asked <+: [(String.ofList ['1', '2', '7', '.', '0', '.', '0', '.', '1'], 80)]) ∧
      s.toClient <+: greeted ++ packReply 0 1 0x0a000002 4000 ++ [7] := by
  obtain ⟨s, ss, hrun, c, hc, hdone⟩ :
      ∃ s ss, Run (tunnelStep nextByte (String.ofList ['a', 'b']) (String.ofList ['a', 'b'])
        boundTo) FirstSession (.start connecting) (s :: ss) ∧ ∃ c ∈ s.conns, s.UpDone c := by
    refine run_reaches oneByte ?_
    decide +kernel
  have hall := session_relays nextByte (String.ofList ['a', 'b']) (by decide) (by decide) boundTo
    connecting [9] ⟨1, 1, .text (String.ofList ['1', '2', '7', '.', '0', '.', '0', '.', '1']), 80⟩
    (String.ofList ['1', '2', '7', '.', '0', '.', '0', '.', '1'])
    ⟨String.ofList ['1', '0', '.', '0', '.', '0', '.', '2'], 4000, [7]⟩ 0x0a000002
    ⟨⟨[5, 1, 0, 1, 127, 0, 0, 1, 0, 80] ++ [9], rfl, rfl⟩, rfl, rfl, rfl, rfl⟩
  obtain ⟨hconns, hclient⟩ := hall.2 (s :: ss) hrun s List.mem_cons_self
  obtain ⟨hasked, -, hserver, -⟩ := hconns c hc
  exact ⟨s, ss, hrun, ⟨c, hc, hdone, hserver hdone, hasked⟩, hclient⟩

/-! ## A wrong password -/

/-- The answers of the local side to as many rounds. -/
def refusals (atyps : List UInt8) : Bytes :=
  atyps.flatMap fun atyp => greeted ++ packReply 5 atyp 0 0

theorem refusals_snoc (atyps : List UInt8) (atyp : UInt8) :
    refusals (atyps ++ [atyp]) = refusals atyps ++ greeted ++ packReply 5 atyp 0 0 := by
  rw [refusals, List.flatMap_append, List.flatMap_singleton, ← List.append_assoc]
  rfl

/-- What the client has got: refusals, and the answer to one more greeting when the local side
    waits for a reply. -/
def Refused (s : Tunnel) : Prop :=
  match s.stage with
  | .round => ∃ atyps, s.toClient = refusals atyps
  | .awaiting _ _ => ∃ atyps, s.toClient = refusals atyps ++ greeted
  | .relaying _ => False
  | .ended => ∃ atyps, s.toClient <+: refusals atyps

/-- The password, with its length in front. -/
def passwordFrame (password : String) : Bytes :=
  UInt8.ofNat password.length :: encodeUtf8 password

/-- A connection on which nothing comes back: the remote side has left it, or is going to when
    it reads the password. -/
structure Shut (password : String) (c : Conn) : Prop where
  asked : c.asked = []
  unsent : c.toServer = []
  silent : c.down = []
  stage : c.stage = .ended ∨ (c.stage = .round ∧ (c.up = [] ∨ passwordFrame password <+: c.up))

/-- What holds in every run when the passwords differ. -/
structure Refusing (password : String) (s : Tunnel) : Prop where
  shut : ∀ c ∈ s.conns, Shut password c
  refused : Refused s

theorem Refusing.atRound (h : Refusing password s) (hstage : s.stage = .round) :
    ∃ atyps, s.toClient = refusals atyps := by
  have hrefused := h.refused
  rw [Refused, hstage] at hrefused
  exact hrefused

theorem shut_fresh : Shut password .fresh :=
  ⟨rfl, rfl, rfl, .inr ⟨rfl, .inl rfl⟩⟩

/-- What the local side sends begins with the password. -/
theorem frame_of_sendOpening {req : Request} {up : Bytes} (hp : password.length < 256)
    (h : sendOpening password key.encrypt req = some up) : passwordFrame password <+: up := by
  rw [sendOpening, sendPassword_eq hp, Option.bind_eq_bind, Option.bind_some] at h
  obtain ⟨sent, -, hup⟩ := Option.bind_eq_some_iff.mp h
  exact ⟨sent, Option.some.inj hup⟩

/-- What the local side sends does not open the connection. -/
theorem Shut.send {up : Bytes} (h : Shut password c) (hup : passwordFrame password <+: up) :
    Shut password { c with up := c.up ++ up } := by
  refine ⟨h.asked, h.unsent, h.silent, ?_⟩
  rcases h.stage with hended | ⟨hround, hnone | hframe⟩
  · exact .inl hended
  · refine .inr ⟨hround, .inr ?_⟩
    show _ <+: c.up ++ up
    rw [hnone]
    exact hup
  · exact .inr ⟨hround, .inr (hframe.trans (List.prefix_append ..))⟩

/-- **THE REMOTE SIDE LEAVES** when it has read another password, or none. -/
theorem remoteRound_shut (hp : password.length < 256) (hascii : IsAscii password)
    (hne : password ≠ remotePassword) (h : Shut password c) (hround : c.stage = .round) :
    remoteRound remotePassword connect c = { c with stage := .ended } := by
  have hwrong : ∀ rest, checkPassword remotePassword c.up ≠ some (true, rest) := by
    intro rest haccepts
    rcases h.stage with hended | ⟨-, hnone | ⟨sent, hsent⟩⟩
    · cases hended.symm.trans hround
    · rw [hnone] at haccepts
      cases haccepts
    · rw [← hsent, passwordFrame, checkPassword_accepts hp,
        (take_encodeUtf8_of_ascii hascii).1] at haccepts
      exact hne (encodeUtf8_injective haccepts.1).symm
  rw [remoteRound]
  split
  · next rest haccepts => exact absurd haccepts (hwrong rest)
  · rfl

/-- A step of the remote side. -/
theorem Shut.step {closed : Bool} {m : RemoteMove} (hp : password.length < 256)
    (hascii : IsAscii password) (hne : password ≠ remotePassword) (h : Shut password c)
    (hstep : remoteStep remotePassword connect closed c m = some c') : Shut password c' := by
  have hidle : ∀ phase, c.stage ≠ .relaying phase := by
    intro phase hstage
    rcases h.stage with hended | ⟨hround, -⟩
    · cases hended.symm.trans hstage
    · cases hround.symm.trans hstage
  rcases remoteStep_cases hstep with ⟨-, hround, rfl⟩ | ⟨call, phase, l, -, hstage, -⟩ |
    ⟨phase, -, hstage, -⟩
  · rw [remoteRound_shut hp hascii hne h hround]
    exact ⟨h.asked, h.unsent, h.silent, .inl rfl⟩
  · exact absurd hstage (hidle phase)
  · exact absurd hstage (hidle phase)

/-- A request: an answer to the greeting, and a refusal when there is no connection or the
    request cannot be sent. -/
theorem Refusing.forward {req : Request} {client : Bytes} (hp : password.length < 256)
    (h : Refusing password s) (hstage : s.stage = .round) :
    Refusing password (s.forward key password req client) := by
  obtain ⟨atyps, hatyps⟩ := h.atRound hstage
  have hshut : ∀ c ∈ (if req.cmd = 1 then .fresh :: s.conns else s.conns), Shut password c := by
    intro c hc
    split at hc
    · rcases List.mem_cons.mp hc with rfl | hold
      · exact shut_fresh
      · exact h.shut c hold
    · exact h.shut c hc
  rw [Tunnel.forward]
  split
  · next c cs up hconns hopening =>
      rw [hconns] at hshut
      refine ⟨?_, atyps, congrArg (· ++ greeted) hatyps⟩
      intro c' hc'
      rcases List.mem_cons.mp hc' with rfl | hold
      · exact (hshut c List.mem_cons_self).send (frame_of_sendOpening hp hopening)
      · exact hshut c' (List.mem_cons_of_mem _ hold)
  · refine ⟨hshut, atyps ++ [req.atyp], ?_⟩
    rw [refusals_snoc, ← hatyps, List.append_assoc]

theorem Refusing.request (hp : password.length < 256) (h : Refusing password s)
    (hstage : s.stage = .round) : Refusing password (s.request key password) := by
  obtain ⟨atyps, hatyps⟩ := h.atRound hstage
  rw [Tunnel.request]
  split
  · next client hgreeting =>
      split
      · next req client hreq => exact h.forward hp hstage
      · refine ⟨h.shut, atyps ++ [0], packReply 5 0 0 0, ?_⟩
        rw [refusals_snoc, ← hatyps]
  · refine ⟨h.shut, atyps, ?_⟩
    rw [hatyps]

/-- A reply that does not come. -/
theorem localReply_closed (decrypt : Bytes → Bytes) (atyp : UInt8) :
    localReply decrypt atyp [] = (packReply 5 atyp 0 0, []) := rfl

/-- Behind a refusal another round begins. -/
theorem stageAfter_refusal (atyp cmd : UInt8) :
    stageAfter (packReply 5 atyp 0 0) cmd = .round := by
  have hrefused : (packReply 5 atyp 0 0)[1]? = some 5 := rfl
  rw [stageAfter, hrefused]
  exact if_neg fun h => absurd h.1 (by decide)

/-- Nothing has come back: the local side refuses the request itself. -/
theorem answered_of_silent {cmd atyp : UInt8} {cs : List Conn} (hdown : c.down = []) :
    s.answered key cmd atyp c cs =
      { s with
        stage := .round
        toClient := s.toClient ++ packReply 5 atyp 0 0
        conns := { c with down := [] } :: cs } := by
  rw [Tunnel.answered, hdown, localReply_closed]
  simp only [stageAfter_refusal]

/-- The answer to a request is a refusal. -/
theorem Refusing.refuse {cmd atyp : UInt8} {cs : List Conn} (h : Refusing password s)
    (hstage : s.stage = .awaiting cmd atyp) (hcs : ∀ c ∈ cs, Shut password c) :
    Refusing password
      { s with stage := .round, toClient := s.toClient ++ packReply 5 atyp 0 0, conns := cs } := by
  have hrefused := h.refused
  rw [Refused, hstage] at hrefused
  obtain ⟨atyps, hatyps⟩ := hrefused
  refine ⟨hcs, atyps ++ [atyp], ?_⟩
  show s.toClient ++ packReply 5 atyp 0 0 = _
  rw [refusals_snoc, hatyps]

/-- A step of the local side. -/
theorem Refusing.onLocal {m : LocalMove} (hp : password.length < 256) (h : Refusing password s)
    (hstep : localStep key password s m = some s') : Refusing password s' := by
  have hidle : ∀ phase, s.stage ≠ .relaying phase := by
    intro phase hstage
    have hrefused := h.refused
    rw [Refused, hstage] at hrefused
    exact hrefused
  rcases localStep_cases hstep with ⟨-, hstage, rfl⟩ |
    ⟨cmd, atyp, c, cs, -, hstage, hconns, -, rfl⟩ | ⟨call, phase, c, cs, l, -, hstage, -⟩ |
    ⟨-, ⟨cmd, atyp, hstage, rfl⟩ | ⟨phase, hstage, -⟩⟩
  · exact h.request hp hstage
  · have hc := h.shut c (hconns ▸ List.mem_cons_self)
    rw [answered_of_silent hc.silent]
    refine h.refuse hstage fun c' hc' => ?_
    rcases List.mem_cons.mp hc' with rfl | hold
    · exact ⟨hc.asked, hc.unsent, rfl, hc.stage⟩
    · exact h.shut c' (hconns ▸ List.mem_cons_of_mem _ hold)
  · exact absurd hstage (hidle phase)
  · exact h.refuse hstage h.shut
  · exact absurd hstage (hidle phase)

/-- **ONE STEP WITH A WRONG PASSWORD.** -/
theorem Refusing.step {m : Move} (hp : password.length < 256) (hascii : IsAscii password)
    (hne : password ≠ remotePassword) (h : Refusing password s)
    (hstep : tunnelStep key password remotePassword connect s m = some s') :
    Refusing password s' := by
  cases m with
  | onLocal m => exact h.onLocal hp hstep
  | onRemote i m =>
      obtain ⟨c, c', hc, hc', rfl⟩ := tunnelStep_remote hstep
      have hshut := (h.shut c (List.mem_of_getElem? hc)).step hp hascii hne hc'
      refine ⟨fun d hd => ?_, h.refused⟩
      rcases List.mem_or_eq_of_mem_set hd with hold | rfl
      · exact h.shut d hold
      · exact hshut

/-- The client has got refusals, or the beginning of one more. -/
theorem Refused.answered (h : Refused s) : ∃ atyps, s.toClient <+: refusals atyps := by
  rw [Refused] at h
  split at h
  · obtain ⟨atyps, hatyps⟩ := h
    exact ⟨atyps, hatyps ▸ List.prefix_rfl⟩
  · obtain ⟨atyps, hatyps⟩ := h
    refine ⟨atyps ++ [0], packReply 5 0 0 0, ?_⟩
    rw [refusals_snoc, hatyps]
  · exact h.elim
  · exact h

/-- **A WRONG PASSWORD REACHES NOTHING**, in whatever order the sides take their steps, and
    whatever the client sends: the remote side is on no connection led to a target, none gets a
    byte, and the client gets an answer to its greeting and a refusal, as often as it asks. -/
theorem wrong_password_reaches_nothing (key : KeyTable) (password remotePassword : String)
    (hp : password.length < 256) (hascii : IsAscii password) (hne : password ≠ remotePassword)
    (connect : String → UInt16 → Option Target) (client : Bytes) (ss : List Tunnel)
    (hrun : Run (tunnelStep key password remotePassword connect) Always (.start client) ss) :
    ∀ s ∈ ss, (∀ c ∈ s.conns, c.asked = [] ∧ c.toServer = []) ∧
      ∃ atyps : List UInt8,
        s.toClient <+: atyps.flatMap fun atyp => greeted ++ packReply 5 atyp 0 0 := by
  have hstart : Refusing password (.start client) :=
    ⟨fun c hc => absurd hc List.not_mem_nil, [], rfl⟩
  have hkept := hrun.invariant (I := Refusing password) hstart fun s m s' hs _ hstep =>
    hs.step hp hascii hne hstep
  intro s hs
  have hs' := hkept s hs
  exact ⟨fun c hc => ⟨(hs'.shut c hc).asked, (hs'.shut c hc).unsent⟩, hs'.refused.answered⟩

/-- The two bytes for the greeting, and the refusal of one request. -/
theorem wrong_password_reaches_nothing_of_connect :
    ∃ s ss, Run (tunnelStep nextByte (String.ofList ['a']) (String.ofList ['b']) boundTo) Always
        (.start connecting) (s :: ss) ∧
      s.toClient = greeted ++ packReply 5 1 0 0 ∧
      (∀ c ∈ s.conns, c.asked = [] ∧ c.toServer = []) := by
  obtain ⟨s, ss, hrun, hclient⟩ :
      ∃ s ss, Run (tunnelStep nextByte (String.ofList ['a']) (String.ofList ['b']) boundTo) Always
        (.start connecting) (s :: ss) ∧ s.toClient = greeted ++ packReply 5 1 0 0 := by
    refine run_reaches [.onLocal .request, .onRemote 0 .round, .onLocal .answer] ?_
    decide +kernel
  have hall := wrong_password_reaches_nothing nextByte (String.ofList ['a']) (String.ofList ['b'])
    (by decide) (by decide) (by decide) boundTo connecting (s :: ss) hrun s List.mem_cons_self
  exact ⟨s, ss, hrun, hclient, hall.1⟩

end Proxy
