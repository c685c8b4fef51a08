import UniqueFreshman.GuardedRunProofs

/-! # `labrpc` — the simulated network

    `Task5/labrpc/labrpc.go` as a state machine over its goroutines.  A request
    is taken by the network's goroutine, which starts one of `processReq` for it;
    that one looks its end up, starts another that runs the handler, waits for
    it, and looks again whether the server is still there before it lets the
    reply through.  `turn` is one step of the goroutines of one request; any
    number of requests and the calls that change the network interleave.

    What is random in the source (which message is dropped or delayed) is a
    choice of the step, possible where the source tests for it.  Sleeps and
    timers end whenever they like.  `labgob` copies arguments and replies, so
    they are values here; the counters for statistics and `longDelays`, which
    only stretches a timer, are left out.

    `Turned` says what a step of a request's goroutines can do, `Stepped` what a
    step of the network does to the calls; what holds of calls follows from them
    by two rules (`Stepped.forall_calls`, `Stepped.call`). -/

namespace Labrpc

open GuardedRun

/-! ## Servers -/

/-- `Service`: the methods that can be called, by name.  They act on the state `σ` of the
    program behind all servers, and one that panics ends the program. -/
structure Service (σ Args Reply : Type) where
  methods : String → Option (Args → σ → Option (Reply × σ))

/-- `Server`. -/
structure Server (σ Args Reply : Type) where
  services : String → Option (Service σ Args Reply)

/-- `svcMeth[:dot]` and `svcMeth[dot+1:]` for the last dot; without a dot the first slice is out
    of range. -/
def splitMethod (svcMeth : String) : Option (String × String) :=
  let cs := svcMeth.toList.reverse
  match cs.dropWhile (· ≠ '.') with
  | [] => none
  | _ :: front =>
      some (String.ofList front.reverse, String.ofList (cs.takeWhile (· ≠ '.')).reverse)

/-- A request: the method's name and the decoded arguments. -/
structure Request (Args : Type) where
  svcMeth : String
  args : Args

section Dispatch

variable {σ Args Reply : Type}

/-- `Service.dispatch`; `log.Fatalf` for an unknown method ends the program. -/
def Service.dispatch (svc : Service σ Args Reply) (methname : String) (args : Args) (s : σ) :
    Option (Reply × σ) := do
  let method ← svc.methods methname
  method args s

/-- `Server.dispatch`. -/
def Server.dispatch (rs : Server σ Args Reply) (req : Request Args) (s : σ) :
    Option (Reply × σ) := do
  let (serviceName, methodName) ← splitMethod req.svcMeth
  let service ← rs.services serviceName
  service.dispatch methodName req.args s

end Dispatch

/-! ## The network -/

/-- What `readEndnameInfo` returned for an end that leads to a server. -/
structure Route (Name Srv : Type) where
  servername : Name
  server : Srv
  reliable : Bool
  longreordering : Bool

/-- Where `Call` and `processReq` are with a request. -/
inductive Phase (Name Srv Reply : Type) where
  /-- `Call` offers it to the network -/
  | sending
  /-- `processReq` was started -/
  | accepted
  /-- no server there: a timer will report that no reply came -/
  | unreachable
  | found (route : Route Name Srv)
  /-- in the loop, until the handler has returned or the server is dead -/
  | waiting (route : Route Name Srv)
  /-- behind the loop with a reply, before the server is looked for again -/
  | collected (route : Route Name Srv) (reply : Reply)
  /-- behind the loop without one -/
  | gaveUp
  /-- the server was there -/
  | passed (route : Route Name Srv) (reply : Reply)
  /-- a timer will deliver the reply -/
  | delayed (reply : Reply)
  /-- `Call` has returned -/
  | returned (result : Option Reply)

/-- The goroutine that runs the handler: not started, about to call `dispatch`, blocked in
    `ech <- r`, or ended. -/
inductive Handler (Srv Reply : Type) where
  | none
  | running (server : Srv)
  | blocked (reply : Reply)
  | ended (reply : Reply)

/-- A request with its goroutines; `draining` is the one that empties `ech`. -/
structure Call (End Name Srv Args Reply : Type) where
  endname : End
  req : Request Args
  phase : Phase Name Srv Reply
  handler : Handler Srv Reply
  draining : Bool

/-- `Network`.  `listening` is its own goroutine, which ends some time after `done` is closed;
    `services` is the state of the program behind the servers. -/
structure Network (End Name Srv σ Args Reply : Type) where
  reliable : Bool
  longReordering : Bool
  ends : End → Bool
  enabled : End → Bool
  servers : Name → Option Srv
  connections : End → Option Name
  done : Bool
  listening : Bool
  services : σ
  calls : List (Call End Name Srv Args Reply)

variable {End Name Srv σ Args Reply : Type}

/-- `MakeNetwork`. -/
def makeNetwork (services : σ) : Network End Name Srv σ Args Reply where
  reliable := true
  longReordering := false
  ends := fun _ => false
  enabled := fun _ => false
  servers := fun _ => none
  connections := fun _ => none
  done := false
  listening := true
  services := services
  calls := []

/-- `readEndnameInfo`, and the test `enabled && servername != nil && server != nil`. -/
def readEndnameInfo (net : Network End Name Srv σ Args Reply) (endname : End) :
    Option (Route Name Srv) :=
  if net.enabled endname then do
    let servername ← net.connections endname
    let server ← net.servers servername
    some ⟨servername, server, net.reliable, net.longReordering⟩
  else none

/-- What the goroutine of the handler can be doing, and whether somebody empties its channel,
    for where `processReq` is. -/
def Phase.Fits : Phase Name Srv Reply → Handler Srv Reply → Bool → Prop
  | .sending, handler, draining | .accepted, handler, draining
  | .unreachable, handler, draining | .found _, handler, draining =>
      handler = .none ∧ draining = false
  | .waiting route, handler, draining =>
      (handler = .running route.server ∨ ∃ reply, handler = .blocked reply) ∧ draining = false
  | .collected _ reply, handler, _ | .passed _ reply, handler, _
  | .delayed reply, handler, _ | .returned (some reply), handler, _ => handler = .ended reply
  | .gaveUp, handler, draining => draining = true ∧ handler ≠ .none
  | .returned none, handler, draining =>
      draining = true ∨ handler = .none ∨ ∃ reply, handler = .ended reply

def Call.Coherent (x : Call End Name Srv Args Reply) : Prop :=
  x.phase.Fits x.handler x.draining

/-- A handler that has not handed its reply over: the loop waits for it, or somebody else. -/
theorem Phase.Fits.pending {phase : Phase Name Srv Reply} {handler : Handler Srv Reply}
    {draining : Bool} (h : phase.Fits handler draining)
    (hpending : (∃ server, handler = .running server) ∨ ∃ reply, handler = .blocked reply) :
    (∃ route, phase = .waiting route ∧ draining = false) ∨
      (draining = true ∧ (phase = .gaveUp ∨ phase = .returned none)) := by
  rcases phase with _ | _ | _ | _ | route | _ | _ | _ | _ | (_ | reply)
  case waiting => exact .inl ⟨route, rfl, h.2⟩
  case gaveUp => exact .inr ⟨h.1, .inl rfl⟩
  case returned.none =>
    refine .inr ⟨h.resolve_right ?_, .inr rfl⟩
    rintro (rfl | ⟨reply, rfl⟩) <;> simp at hpending
  all_goals simp [Phase.Fits] at h; simp [h] at hpending

/-! ## The goroutines of a request -/

variable [DecidableEq Srv]

/-- `isServerDead`. -/
def isServerDead (net : Network End Name Srv σ Args Reply) (endname : End) (servername : Name)
    (server : Srv) : Bool :=
  net.enabled endname = false ∨ net.servers servername ≠ some server

/-- A step of the goroutines of one request. -/
inductive Turn where
  | accept | hangUp | lookUp | dropRequest | spawn | dispatch | collect | timeout | drain
  | check | dropReply | delay | reply | expire
deriving DecidableEq, Repr

/-- What a step of the goroutines does to the request and to the state behind the servers;
    `none` when none of them can take it. -/
def turn (rs : Srv → Server σ Args Reply) (net : Network End Name Srv σ Args Reply)
    (x : Call End Name Srv Args Reply) : Turn → Option (Call End Name Srv Args Reply × σ)
  -- the two `select`s over `endCh` and `done`
  | .accept =>
      match x.phase with
      | .sending =>
          if net.listening then some ({ x with phase := .accepted }, net.services) else none
      | _ => none
  | .hangUp =>
      match x.phase with
      | .sending =>
          if net.done then some ({ x with phase := .returned none }, net.services) else none
      | _ => none
  | .lookUp =>
      match x.phase with
      | .accepted =>
          match readEndnameInfo net x.endname with
          | some route => some ({ x with phase := .found route }, net.services)
          | none => some ({ x with phase := .unreachable }, net.services)
      | _ => none
  | .dropRequest =>
      match x.phase with
      | .found route =>
          if route.reliable = false then some ({ x with phase := .returned none }, net.services)
          else none
      | _ => none
  | .spawn =>
      match x.phase with
      | .found route =>
          some ({ x with phase := .waiting route, handler := .running route.server },
            net.services)
      | _ => none
  | .dispatch =>
      match x.handler with
      | .running server => do
          let (reply, services) ← (rs server).dispatch x.req net.services
          some ({ x with handler := .blocked reply }, services)
      | _ => none
  | .collect =>
      match x.phase, x.handler with
      | .waiting route, .blocked reply =>
          some ({ x with phase := .collected route reply, handler := .ended reply },
            net.services)
      | _, _ => none
  | .timeout =>
      match x.phase with
      | .waiting route =>
          if isServerDead net x.endname route.servername route.server then
            some ({ x with phase := .gaveUp, draining := true }, net.services)
          else some (x, net.services)
      | _ => none
  | .drain =>
      match x.draining, x.handler with
      | true, .blocked reply => some ({ x with handler := .ended reply }, net.services)
      | _, _ => none
  | .check =>
      match x.phase with
      | .collected route reply =>
          if isServerDead net x.endname route.servername route.server then
            some ({ x with phase := .returned none }, net.services)
          else some ({ x with phase := .passed route reply }, net.services)
      | .gaveUp => some ({ x with phase := .returned none }, net.services)
      | _ => none
  | .dropReply =>
      match x.phase with
      | .passed route _ =>
          if route.reliable = false then some ({ x with phase := .returned none }, net.services)
          else none
      | _ => none
  | .delay =>
      match x.phase with
      | .passed route reply =>
          if route.longreordering then some ({ x with phase := .delayed reply }, net.services)
          else none
      | _ => none
  | .reply =>
      match x.phase with
      | .passed _ reply => some ({ x with phase := .returned (some reply) }, net.services)
      | _ => none
  | .expire =>
      match x.phase with
      | .unreachable => some ({ x with phase := .returned none }, net.services)
      | .delayed reply => some ({ x with phase := .returned (some reply) }, net.services)
      | _ => none

/-! ## What a step of the goroutines can do -/

variable {rs : Srv → Server σ Args Reply} {net net' : Network End Name Srv σ Args Reply}
  {x x' : Call End Name Srv Args Reply} {services : σ}

/-- The steps of a request's goroutines: from where, under what condition, and to where. -/
inductive Turned (rs : Srv → Server σ Args Reply) (net : Network End Name Srv σ Args Reply)
    (x : Call End Name Srv Args Reply) : Turn → Call End Name Srv Args Reply → σ → Prop where
  | accept (hphase : x.phase = .sending) (hlistening : net.listening = true) :
      Turned rs net x .accept { x with phase := .accepted } net.services
  | hangUp (hphase : x.phase = .sending) (hdone : net.done = true) :
      Turned rs net x .hangUp { x with phase := .returned none } net.services
  | found (route : Route Name Srv) (hphase : x.phase = .accepted)
      (hroute : readEndnameInfo net x.endname = some route) :
      Turned rs net x .lookUp { x with phase := .found route } net.services
  | unreachable (hphase : x.phase = .accepted)
      (hroute : readEndnameInfo net x.endname = none) :
      Turned rs net x .lookUp { x with phase := .unreachable } net.services
  | dropRequest (route : Route Name Srv) (hphase : x.phase = .found route)
      (hreliable : route.reliable = false) :
      Turned rs net x .dropRequest { x with phase := .returned none } net.services
  | spawn (route : Route Name Srv) (hphase : x.phase = .found route) :
      Turned rs net x .spawn
        { x with phase := .waiting route, handler := .running route.server } net.services
  | dispatch (server : Srv) (reply : Reply) (services : σ) (hhandler : x.handler = .running server)
      (hreply : (rs server).dispatch x.req net.services = some (reply, services)) :
      Turned rs net x .dispatch { x with handler := .blocked reply } services
  | collect (route : Route Name Srv) (reply : Reply) (hphase : x.phase = .waiting route)
      (hhandler : x.handler = .blocked reply) :
      Turned rs net x .collect
        { x with phase := .collected route reply, handler := .ended reply } net.services
  | giveUp (route : Route Name Srv) (hphase : x.phase = .waiting route)
      (hdead : isServerDead net x.endname route.servername route.server = true) :
      Turned rs net x .timeout { x with phase := .gaveUp, draining := true } net.services
  | wait (route : Route Name Srv) (hphase : x.phase = .waiting route) :
      Turned rs net x .timeout x net.services
  | drain (reply : Reply) (hdraining : x.draining = true) (hhandler : x.handler = .blocked reply) :
      Turned rs net x .drain { x with handler := .ended reply } net.services
  | refuse (route : Route Name Srv) (reply : Reply) (hphase : x.phase = .collected route reply)
      (hdead : isServerDead net x.endname route.servername route.server = true) :
      Turned rs net x .check { x with phase := .returned none } net.services
  | pass (route : Route Name Srv) (reply : Reply) (hphase : x.phase = .collected route reply)
      (halive : isServerDead net x.endname route.servername route.server = false) :
      Turned rs net x .check { x with phase := .passed route reply } net.services
  | miss (hphase : x.phase = .gaveUp) :
      Turned rs net x .check { x with phase := .returned none } net.services
  | dropReply (route : Route Name Srv) (reply : Reply) (hphase : x.phase = .passed route reply)
      (hreliable : route.reliable = false) :
      Turned rs net x .dropReply { x with phase := .returned none } net.services
  | delay (route : Route Name Srv) (reply : Reply) (hphase : x.phase = .passed route reply) :
      Turned rs net x .delay { x with phase := .delayed reply } net.services
  | reply (route : Route Name Srv) (reply : Reply) (hphase : x.phase = .passed route reply) :
      Turned rs net x .reply { x with phase := .returned (some reply) } net.services
  | timeUp (hphase : x.phase = .unreachable) :
      Turned rs net x .expire { x with phase := .returned none } net.services
  | deliver (reply : Reply) (hphase : x.phase = .delayed reply) :
      Turned rs net x .expire { x with phase := .returned (some reply) } net.services

/-- **INVERSION** of a step of the goroutines. -/
theorem turned_of_turn {t : Turn} (h : turn rs net x t = some (x', services)) :
    Turned rs net x t x' services := by
  cases t <;> simp only [turn] at h
  case dispatch =>
    split at h
    · next server hhandler =>
        obtain ⟨⟨reply, s⟩, hreply, h⟩ := Option.bind_eq_some_iff.mp h
        cases h
        exact .dispatch server reply _ hhandler hreply
    · cases h
  -- every other step is a branch of its `match`, with the tests on the way to it
  all_goals
    (repeat' split at h) <;> cases h
  · next hphase hlistening => exact .accept hphase hlistening
  · next hphase hdone => exact .hangUp hphase hdone
  · next hphase _ route hroute => exact .found route hphase hroute
  · next hphase _ hroute => exact .unreachable hphase hroute
  · next route hphase hreliable => exact .dropRequest route hphase hreliable
  · next route hphase => exact .spawn route hphase
  · next route reply hphase hhandler => exact .collect route reply hphase hhandler
  · next route hphase hdead => exact .giveUp route hphase hdead
  · next route hphase _ => exact .wait route hphase
  · next reply hdraining hhandler => exact .drain reply hdraining hhandler
  · next route reply hphase hdead => exact .refuse route reply hphase hdead
  · next route reply hphase halive =>
      exact .pass route reply hphase (eq_false_of_ne_true halive)
  · next hphase => exact .miss hphase
  · next route reply hphase hreliable => exact .dropReply route reply hphase hreliable
  · next route reply hphase _ => exact .delay route reply hphase
  · next route reply hphase => exact .reply route reply hphase
  · next hphase => exact .timeUp hphase
  · next reply hphase => exact .deliver reply hphase

theorem endname_of_turned {t : Turn} (h : Turned rs net x t x' services) :
    x'.endname = x.endname := by
  cases h <;> rfl

theorem req_of_turned {t : Turn} (h : Turned rs net x t x' services) : x'.req = x.req := by
  cases h <;> rfl

/-- A turn leaves a call in a phase that fits what it has got. -/
theorem coherent_turned {t : Turn} (h : Turned rs net x t x' services) (hx : x.Coherent) :
    x'.Coherent := by
  rw [Call.Coherent] at hx ⊢
  cases h with
  | dispatch server reply s hhandler hreply =>
      rw [hhandler] at hx
      rcases hx.pending (.inl ⟨server, rfl⟩) with ⟨route, hphase, hdraining⟩ | ⟨hdraining, hphase⟩
      · simp only [hphase, hdraining]
        exact ⟨.inr ⟨reply, rfl⟩, rfl⟩
      · rcases hphase with hphase | hphase
        · simp only [hphase, hdraining]
          exact ⟨rfl, nofun⟩
        · simp only [hphase, hdraining]
          exact .inl rfl
  | drain reply hdraining hhandler =>
      rw [hhandler] at hx
      rcases hx.pending (.inr ⟨reply, rfl⟩) with ⟨route, _, hfree⟩ | ⟨-, hphase⟩
      · exact absurd hdraining (by simp [hfree])
      · rcases hphase with hphase | hphase
        · simp only [hphase]
          exact ⟨hdraining, nofun⟩
        · simp only [hphase]
          exact .inl hdraining
  | giveUp route hphase hdead =>
      rw [hphase] at hx
      refine ⟨rfl, ?_⟩
      rcases hx.1 with hhandler | ⟨reply, hhandler⟩ <;> simp [hhandler]
  | wait => exact hx
  -- the other steps read the handler off the phase
  | _ => simp_all [Phase.Fits]

/-! ## The calls that change the network -/

inductive Event (End Name Srv Args : Type) where
  | call (endname : End) (req : Request Args)
  | turn (i : Nat) (t : Turn)
  | makeEnd (endname : End)
  | addServer (servername : Name) (server : Srv)
  | deleteServer (servername : Name)
  | connect (endname : End) (servername : Name)
  | enable (endname : End) (enabled : Bool)
  | reliable (yes : Bool)
  | longReordering (yes : Bool)
  | cleanup
  | stop

/-- One step of the network; `none` when it cannot happen or ends the program. -/
def step [DecidableEq End] [DecidableEq Name] (rs : Srv → Server σ Args Reply)
    (net : Network End Name Srv σ Args Reply) :
    Event End Name Srv Args → Option (Network End Name Srv σ Args Reply)
  | .call endname req =>
      if net.ends endname then
        some { net with calls := net.calls ++ [⟨endname, req, .sending, .none, false⟩] }
      else none
  | .turn i t => do
      let x ← net.calls[i]?
      let (x', services) ← turn rs net x t
      some { net with services, calls := net.calls.set i x' }
  | .makeEnd endname =>
      if net.ends endname then none
      else some { net with
        ends := Function.update net.ends endname true
        enabled := Function.update net.enabled endname false
        connections := Function.update net.connections endname none }
  | .addServer servername server =>
      some { net with servers := Function.update net.servers servername (some server) }
  | .deleteServer servername =>
      some { net with servers := Function.update net.servers servername none }
  | .connect endname servername =>
      some { net with connections := Function.update net.connections endname (some servername) }
  | .enable endname enabled =>
      some { net with enabled := Function.update net.enabled endname enabled }
  | .reliable yes => some { net with reliable := yes }
  | .longReordering yes => some { net with longReordering := yes }
  | .cleanup => if net.done then none else some { net with done := true }
  -- the network's goroutine sees that `done` is closed
  | .stop => if net.done then some { net with listening := false } else none

/-! ## What a step of the network can do -/

variable {e : Event End Name Srv Args}

/-- What a step of the network can do to the calls. -/
inductive Stepped (rs : Srv → Server σ Args Reply) (net net' : Network End Name Srv σ Args Reply) :
    Prop where
  | other (hcalls : net'.calls = net.calls) (hservices : net'.services = net.services)
  | called (endname : End) (req : Request Args)
      (hcalls : net'.calls = net.calls ++ [⟨endname, req, .sending, .none, false⟩])
      (hservices : net'.services = net.services)
  | turned (i : Nat) (t : Turn) (x x' : Call End Name Srv Args Reply)
      (hx : net.calls[i]? = some x) (hturn : Turned rs net x t x' net'.services)
      (hcalls : net'.calls = net.calls.set i x')

/-- Everything a step of the network can do. -/
theorem stepped_of_step [DecidableEq End] [DecidableEq Name]
    (h : step rs net e = some net') : Stepped rs net net' := by
  cases e <;> simp only [step] at h
  case turn i t =>
    obtain ⟨x, hx, h⟩ := Option.bind_eq_some_iff.mp h
    obtain ⟨⟨x', services⟩, hturn, h⟩ := Option.bind_eq_some_iff.mp h
    cases h
    exact .turned i t x x' hx (turned_of_turn hturn) rfl
  case call endname req =>
    split at h <;> cases h
    exact .called endname req rfl rfl
  all_goals
    (repeat' split at h) <;> cases h
    exact .other rfl rfl

/-- **CALL RULE**: what every new call has and every step of a call's goroutines keeps, all calls
    have. -/
theorem Stepped.forall_calls {P : Nat → Call End Name Srv Args Reply → Prop}
    (h : Stepped rs net net')
    (hcall : ∀ endname req, P net.calls.length ⟨endname, req, .sending, .none, false⟩)
    (hturn : ∀ i t x x' services, P i x → Turned rs net x t x' services → P i x')
    (hall : ∀ (i : Nat) x, net.calls[i]? = some x → P i x) :
    ∀ (i : Nat) x, net'.calls[i]? = some x → P i x := by
  intro i y hy
  cases h with
  | other hcalls _ =>
      rw [hcalls] at hy
      exact hall i y hy
  | called endname req hcalls _ =>
      rw [hcalls, List.getElem?_append] at hy
      split at hy
      · exact hall i y hy
      · next hi =>
          obtain ⟨hlt, rfl⟩ := List.getElem?_eq_some_iff.mp hy
          have heq : i = net.calls.length := by
            simp only [List.length_singleton] at hlt
            omega
          subst heq
          simpa using hcall endname req
  | turned j t x x' hx hstep hcalls =>
      rw [hcalls, List.getElem?_set] at hy
      by_cases hji : j = i
      · subst hji
        have hlt := (List.getElem?_eq_some_iff.mp hx).1
        rw [if_pos rfl, if_pos hlt] at hy
        rw [← Option.some.inj hy]
        exact hturn j t x x' _ (hall j x hx) hstep
      · rw [if_neg hji] at hy
        exact hall i y hy

/-- A call stays where it is, and what becomes of it is a step of its own goroutines. -/
theorem Stepped.call (h : Stepped rs net net') {i : Nat} (hx : net.calls[i]? = some x) :
    ∃ x', net'.calls[i]? = some x' ∧ (x' = x ∨ ∃ t services, Turned rs net x t x' services) := by
  have hlt := (List.getElem?_eq_some_iff.mp hx).1
  cases h with
  | other hcalls _ => exact ⟨x, by rw [hcalls, hx], .inl rfl⟩
  | called endname req hcalls _ =>
      exact ⟨x, by rw [hcalls, List.getElem?_append_left hlt, hx], .inl rfl⟩
  | turned j t y y' hy hstep hcalls =>
      by_cases hji : j = i
      · subst hji
        obtain rfl := Option.some.inj (hx.symm.trans hy)
        exact ⟨y', by rw [hcalls, List.getElem?_set_self hlt], .inr ⟨t, _, hstep⟩⟩
      · exact ⟨x, by rw [hcalls, List.getElem?_set_ne hji, hx], .inl rfl⟩

/-- The requests fit together with their handlers. -/
def Coherent (net : Network End Name Srv σ Args Reply) : Prop :=
  ∀ (i : Nat) (x : Call End Name Srv Args Reply), net.calls[i]? = some x → x.Coherent

/-- **ONE STEP KEEPS EVERY CALL COHERENT.** -/
theorem coherent_step [DecidableEq End] [DecidableEq Name] (hcoherent : Coherent net)
    (h : step rs net e = some net') :
    Coherent net' :=
  (stepped_of_step h).forall_calls (P := fun _ x => x.Coherent) (fun _ _ => ⟨rfl, rfl⟩)
    (fun _ _ _ _ _ hx hturn => coherent_turned hturn hx) hcoherent

end Labrpc
