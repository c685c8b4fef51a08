import UniqueFreshman.AtMostOnceProofs
import UniqueFreshman.RpcNetworkProofs

/-! # `labrpc` — what its callers can rely on

    Four promises of `Call` in `Task5/labrpc/labrpc.go`, for every interleaving
    of the goroutines and of the calls that change the network:

    * `refines_at_most_once` — the network is one of remote calls that are
      executed at most once;
    * `dead_server_silent` — nobody gets an answer from a server that was
      deleted before the answer was let through;
    * `reliable_loses_nothing` — a reliable network answers;
    * `every_call_can_end` — no goroutine of a call is ever stuck. -/

namespace Labrpc

open GuardedRun

variable {End Name Srv σ Args Reply : Type} [DecidableEq Srv]
  {rs : Srv → Server σ Args Reply} {net net' : Network End Name Srv σ Args Reply}
  {x x' : Call End Name Srv Args Reply} {services : σ} {e : Event End Name Srv Args}

/-! ## At most once -/

/-- The reply of the handler, once it has run. -/
def Handler.executed : Handler Srv Reply → Option Reply
  | .none | .running _ => Option.none
  | .blocked reply | .ended reply => some reply

/-- What `Call` returned, once it has. -/
def Phase.result : Phase Name Srv Reply → Option (Option Reply)
  | .returned result => some result
  | _ => none

def Call.invocation (x : Call End Name Srv Args Reply) :
    AtMostOnce.Invocation (Request Args) Reply :=
  ⟨x.req, x.handler.executed, x.phase.result⟩

/-- The network as remote calls, without the way they take. -/
def abstraction (net : Network End Name Srv σ Args Reply) :
    AtMostOnce.State σ (Request Args) Reply :=
  ⟨net.services, net.calls.map Call.invocation⟩

/-- What the servers do with a request. -/
def handle (rs : Srv → Server σ Args Reply) : AtMostOnce.Handle σ (Request Args) Srv Reply :=
  fun server req s => (rs server).dispatch req s

/-- **EVERY STEP OF THE GOROUTINES** is one that a remote call may take, or none. -/
theorem advance_of_turned {t : Turn} (h : Turned rs net x t x' services) (hx : x.Coherent) :
    AtMostOnce.Advance (handle rs) net.services x.invocation x'.invocation services := by
  rw [Call.Coherent] at hx
  have hstay (heq : x'.invocation = x.invocation) :
      AtMostOnce.Advance (handle rs) net.services x.invocation x'.invocation net.services :=
    heq ▸ .stay _
  cases h with
  | dispatch server reply s hhandler hreply =>
      rw [Call.invocation, hhandler]
      exact .execute server hreply
  | reply _ reply hphase | deliver reply hphase =>
      rw [hphase] at hx
      have hhandler : x.handler = .ended reply := hx
      rw [Call.invocation, Call.invocation, hhandler, hphase]
      exact .succeed x.req reply
  | hangUp hphase _ | dropRequest _ hphase _ | refuse _ _ hphase _ | miss hphase
  | dropReply _ _ hphase _ | timeUp hphase =>
      rw [Call.invocation, hphase]
      exact .fail x.req x.handler.executed
  | spawn route hphase =>
      rw [hphase] at hx
      exact hstay (by rw [Call.invocation, Call.invocation, hphase, hx.1]; rfl)
  | collect _ _ hphase hhandler =>
      exact hstay (by rw [Call.invocation, Call.invocation, hphase, hhandler]; rfl)
  | drain _ _ hhandler =>
      exact hstay (by rw [Call.invocation, Call.invocation, hhandler]; rfl)
  | wait => exact .stay _
  | accept hphase _ | found _ hphase _ | unreachable hphase _ | giveUp _ hphase _
  | pass _ _ hphase _ | delay _ _ hphase =>
      exact hstay (by rw [Call.invocation, Call.invocation, hphase]; rfl)

/-- Every step is one of the remote calls, or none. -/
theorem simulate_step [DecidableEq End] [DecidableEq Name] (hcoherent : Coherent net)
    (h : step rs net e = some net') :
    Reaches (AtMostOnce.step (handle rs)) (abstraction net) (abstraction net') := by
  cases stepped_of_step h with
  | other hcalls hservices =>
      have heq : abstraction net' = abstraction net := by
        rw [abstraction, hcalls, hservices]
        rfl
      rw [heq]
      exact .refl
  | called endname req hcalls hservices =>
      refine .single ⟨.invoke req, ?_⟩
      rw [abstraction, abstraction, hcalls, hservices, List.map_append]
      rfl
  | turned i t x x' hx hturn hcalls =>
      have hi : (abstraction net).calls[i]? = some x.invocation := by
        rw [abstraction, List.getElem?_map, hx]
        rfl
      have hreaches := AtMostOnce.reaches_of_advance (s := abstraction net) hi
        (advance_of_turned hturn (hcoherent i x hx))
      have heq : abstraction net' =
          ⟨net'.services, (abstraction net).calls.set i x'.invocation⟩ := by
        rw [abstraction, abstraction, hcalls, List.map_set]
      rw [heq]
      exact hreaches

/-- **THE NETWORK REFINES REMOTE CALLS THAT ARE EXECUTED AT MOST ONCE.**  Whatever is lost,
    delayed, disabled, deleted or cleaned up, in any order: every state of the network is,
    without the goroutines, one that such calls can reach. -/
theorem refines_at_most_once [DecidableEq End] [DecidableEq Name] (services : σ)
    (h : Reaches (step rs) (makeNetwork services) net) :
    Reaches (AtMostOnce.step (handle rs)) (AtMostOnce.initial services) (abstraction net) := by
  have hsimulated : ∃ a, Reaches (AtMostOnce.step (handle rs)) (AtMostOnce.initial services) a ∧
      a = abstraction net ∧ Coherent net := by
    refine h.simulate (R := fun net a => a = abstraction net ∧ Coherent net) ?_ ?_
    · exact ⟨rfl, fun i x hx => by simp [makeNetwork] at hx⟩
    · rintro net e net' _ ⟨rfl, hcoherent⟩ hstep
      exact ⟨_, simulate_step hcoherent hstep, rfl, coherent_step hcoherent hstep⟩
  obtain ⟨_, hreaches, rfl, -⟩ := hsimulated
  exact hreaches

/-- Servers with one method, which adds to a number. -/
def adder : Bool → Server Nat Nat Nat := fun _ =>
  ⟨fun name => if name = "S" then some ⟨fun method =>
    if method = "add" then some fun n s => some (s + n, s + n) else none⟩ else none⟩

/-- An end that leads to one of them, and a call over it. -/
def callAdder : List (Event Unit Unit Bool Nat) :=
  [.makeEnd (), .addServer () true, .connect () (), .enable () true, .call () ⟨"S.add", 3⟩]

/-- The network after that and some other steps. -/
def adderNetwork (es : List (Event Unit Unit Bool Nat)) : Network Unit Unit Bool Nat Nat Nat :=
  (steps (step adder) (makeNetwork 4) (callAdder ++ es)).getD (makeNetwork 4)

theorem reaches_adderNetwork (es : List (Event Unit Unit Bool Nat))
    (h : (steps (step adder) (makeNetwork 4) (callAdder ++ es)).isSome = true) :
    Reaches (step adder) (makeNetwork 4) (adderNetwork es) := by
  obtain ⟨net, hnet⟩ := Option.isSome_iff_exists.mp h
  rw [adderNetwork, hnet]
  exact reaches_of_steps hnet

theorem refines_at_most_once_of_adder :
    Reaches (AtMostOnce.step (handle adder)) (AtMostOnce.initial 4)
      (abstraction (adderNetwork [.turn 0 .accept, .turn 0 .lookUp, .turn 0 .spawn,
        .turn 0 .dispatch])) :=
  refines_at_most_once 4 (reaches_adderNetwork _ rfl)

/-! ## A server that is dead -/

/-- `processReq` has found the server and not asked again whether it is dead, or the call has
    failed. -/
def Phase.Unchecked (route : Route Name Srv) : Phase Name Srv Reply → Prop
  | .found route' | .waiting route' | .collected route' _ => route' = route
  | .gaveUp | .returned none => True
  | _ => False

/-- A call to a dead server stays unanswered, whatever turn it takes. -/
theorem unchecked_turned {t : Turn} {route : Route Name Srv} (h : Turned rs net x t x' services)
    (hdead : isServerDead net x.endname route.servername route.server = true)
    (hx : x.phase.Unchecked route) : x'.phase.Unchecked route := by
  cases h with
  | dispatch | drain | wait => exact hx
  | pass route' reply hphase halive =>
      -- the second look at the server, which is dead
      rw [hphase] at hx
      obtain rfl : route' = route := hx
      exact absurd hdead (by rw [halive]; exact nofun)
  | spawn _ hphase | collect _ _ hphase =>
      rw [hphase] at hx
      exact hx
  | hangUp | dropRequest | giveUp | refuse | miss | dropReply | timeUp => exact trivial
  | accept hphase | found _ hphase | unreachable hphase | delay _ _ hphase | reply _ _ hphase
  | deliver _ hphase =>
      rw [hphase] at hx
      exact hx.elim

/-- **A DEAD SERVER IS SILENT.**  From the moment on at which the end is disabled or the server is
    no longer the one of its name, no request that was on its way to this server succeeds,
    whether or not the handler has run or still runs. -/
theorem dead_server_silent [DecidableEq End] [DecidableEq Name] {i : Nat} {route : Route Name Srv}
    {nets : List (Network End Name Srv σ Args Reply)} (hx : net.calls[i]? = some x)
    (hphase : x.phase = .found route ∨ x.phase = .waiting route ∨
      ∃ reply, x.phase = .collected route reply)
    (hrun : Run (step rs) (fun net _ =>
      isServerDead net x.endname route.servername route.server = true) net nets) :
    ∀ net' ∈ nets, ∀ x', net'.calls[i]? = some x' → ∀ reply, x'.phase ≠ .returned (some reply) := by
  have hinvariant := hrun.invariant
    (I := fun net => ∃ y, net.calls[i]? = some y ∧ y.endname = x.endname ∧
      y.phase.Unchecked route) ?_ ?_
  · intro net' hmem x' hx' reply heq
    obtain ⟨y, hy, -, hunchecked⟩ := hinvariant net' hmem
    rw [Option.some.inj (hy.symm.trans hx'), heq] at hunchecked
    exact hunchecked
  · refine ⟨x, hx, rfl, ?_⟩
    rcases hphase with hphase | hphase | ⟨reply, hphase⟩
    all_goals
      rw [hphase]
      exact rfl
  · rintro net e net' ⟨y, hy, hend, hunchecked⟩ hdead hstep
    obtain ⟨y', hy', rfl | ⟨t, s, hturn⟩⟩ := (stepped_of_step hstep).call hy
    · exact ⟨y', hy', hend, hunchecked⟩
    · exact ⟨y', hy', (endname_of_turned hturn).trans hend,
        unchecked_turned hturn (hend ▸ hdead) hunchecked⟩

/-- The adder, deleted after the request was routed to it. -/
def deletedAdder : Network Unit Unit Bool Nat Nat Nat :=
  adderNetwork [.turn 0 .accept, .turn 0 .lookUp, .turn 0 .spawn, .deleteServer ()]

/-- It adds all the same, and the call fails. -/
theorem dead_server_silent_of_adder :
    ∃ net ∈ replay (step adder) (fun net _ => isServerDead net () () true = true) deletedAdder
      [.turn 0 .dispatch, .turn 0 .collect, .turn 0 .check],
    net.services = 7 ∧
      ∃ x, net.calls[0]? = some x ∧ ∀ reply, x.phase ≠ .returned (some reply) := by
  have hx : deletedAdder.calls[0]? =
      some ⟨(), ⟨"S.add", 3⟩, .waiting ⟨(), true, true, false⟩, .running true, false⟩ := rfl
  have hrun : Run (step adder) (fun net _ => isServerDead net () () true = true) deletedAdder _ :=
    run_replay [.turn 0 .dispatch, .turn 0 .collect, .turn 0 .check] rfl
  exact ⟨_, List.mem_cons_self, rfl, _, rfl,
    dead_server_silent hx (.inr (.inl rfl)) hrun _ List.mem_cons_self _ rfl⟩

/-! ## A network that is reliable -/

/-- The end leads to the server, over a reliable network. -/
structure Serving (net : Network End Name Srv σ Args Reply) (endname : End) (servername : Name)
    (server : Srv) : Prop where
  reliable : net.reliable = true
  running : net.done = false
  enabled : net.enabled endname = true
  connected : net.connections endname = some servername
  registered : net.servers servername = some server

/-- No step so far has lost the request or its reply. -/
def Phase.Kept (servername : Name) (server : Srv) : Phase Name Srv Reply → Prop
  | .sending | .accepted | .delayed _ | .returned (some _) => True
  | .found route | .waiting route | .collected route _ | .passed route _ =>
      route.servername = servername ∧ route.server = server ∧ route.reliable = true
  | .unreachable | .gaveUp | .returned none => False

/-- A server that serves an end is not dead for it. -/
theorem Serving.alive {endname : End} {servername : Name} {server : Srv}
    (h : Serving net endname servername server) :
    isServerDead net endname servername server = false := by
  simp [isServerDead, h.enabled, h.registered]

omit [DecidableEq Srv] in
/-- `readEndnameInfo` finds it. -/
theorem Serving.route {endname : End} {servername : Name} {server : Srv}
    (h : Serving net endname servername server) :
    readEndnameInfo net endname = some ⟨servername, server, true, net.longReordering⟩ := by
  simp [readEndnameInfo, h.enabled, h.connected, h.registered, h.reliable]

/-- On a reliable network a call to a serving server is not dropped. -/
theorem kept_turned {t : Turn} {servername : Name} {server : Srv}
    (h : Turned rs net x t x' services) (hserving : Serving net x.endname servername server)
    (hx : x.phase.Kept servername server) : x'.phase.Kept servername server := by
  cases h with
  | dispatch | drain | wait => exact hx
  | accept | reply | deliver | delay => exact trivial
  | found route hphase hroute =>
      rw [hserving.route] at hroute
      rw [← Option.some.inj hroute]
      exact ⟨rfl, rfl, rfl⟩
  | unreachable hphase hroute =>
      rw [hserving.route] at hroute
      exact nomatch hroute
  | spawn _ hphase | collect _ _ hphase | pass _ _ hphase =>
      rw [hphase] at hx
      exact hx
  | hangUp hphase hdone => exact absurd hdone (by rw [hserving.running]; exact nofun)
  | dropRequest route hphase hreliable | dropReply route _ hphase hreliable =>
      rw [hphase] at hx
      exact absurd hx.2.2 (by rw [hreliable]; exact nofun)
  | giveUp route hphase hdead | refuse route _ hphase hdead =>
      rw [hphase] at hx
      obtain ⟨rfl, rfl, -⟩ := hx
      exact absurd hdead (by rw [hserving.alive]; exact nofun)
  | miss hphase | timeUp hphase =>
      rw [hphase] at hx
      exact hx.elim

/-- **A RELIABLE NETWORK LOSES NOTHING.**  As long as it is reliable and an end leads to a server,
    no call that is made over this end fails. -/
theorem reliable_loses_nothing [DecidableEq End] [DecidableEq Name] {endname : End}
    {servername : Name} {server : Srv}
    {nets : List (Network End Name Srv σ Args Reply)}
    (hrun : Run (step rs) (fun net _ => Serving net endname servername server) net nets) :
    ∀ net' ∈ nets, ∀ (i : Nat) x, net.calls.length ≤ i → net'.calls[i]? = some x →
      x.endname = endname → x.phase ≠ .returned none := by
  have hinvariant := hrun.invariant
    (I := fun net' => ∀ (i : Nat) x, net'.calls[i]? = some x → net.calls.length ≤ i →
      x.endname = endname → x.phase.Kept servername server) ?_ ?_
  · intro net' hmem i x hi hx hend heq
    have hkept := hinvariant net' hmem i x hx hi hend
    rw [heq] at hkept
    exact hkept
  · intro i x hx hi
    exact absurd (List.getElem?_eq_some_iff.mp hx).1 (Nat.not_lt.mpr hi)
  · intro net' e net'' hall hserving hstep
    refine (stepped_of_step hstep).forall_calls (P := fun i x => net.calls.length ≤ i →
      x.endname = endname → x.phase.Kept servername server) ?_ ?_ hall
    · exact fun _ _ _ _ => trivial
    · intro i t x x' s hx hturn hi hend
      rw [endname_of_turned hturn] at hend
      exact kept_turned hturn (hend ▸ hserving) (hx hi hend)

/-- A second call, behind one that has been made. -/
theorem reliable_loses_nothing_of_adder :
    ∃ x, (adderNetwork [.call () ⟨"S.add", 5⟩]).calls[1]? = some x ∧
      x.phase ≠ .returned none := by
  have hrun : Run (step adder) (fun net _ => Serving net () () true) (adderNetwork [])
      [adderNetwork [.call () ⟨"S.add", 5⟩], adderNetwork []] :=
    .next (.call () ⟨"S.add", 5⟩) .start ⟨rfl, rfl, rfl, rfl, rfl⟩ rfl
  exact ⟨_, rfl, reliable_loses_nothing hrun _ List.mem_cons_self 1 _ le_rfl rfl rfl⟩

/-! ## Nothing is stuck -/

/-- `Call` has returned and the handler's goroutine has ended, if there was one. -/
def Call.Finished (x : Call End Name Srv Args Reply) : Prop :=
  (∃ result, x.phase = .returned result) ∧
    (x.handler = .none ∨ ∃ reply, x.handler = .ended reply)

/-- The goroutines of call `i` can end with at most `n` steps of their own. -/
def EndsWithin [DecidableEq End] [DecidableEq Name] (rs : Srv → Server σ Args Reply)
    (i n : Nat) (net : Network End Name Srv σ Args Reply) : Prop :=
  ∃ ts : List Turn, ts.length ≤ n ∧ ∃ net' x', steps (step rs) net (ts.map (.turn i)) = some net' ∧
    net'.calls[i]? = some x' ∧ x'.Finished

/-- A finished call needs no more turns. -/
theorem EndsWithin.finished [DecidableEq End] [DecidableEq Name] {i n : Nat}
    (hx : net.calls[i]? = some x) (h : x.Finished) :
    EndsWithin rs i n net :=
  ⟨[], Nat.zero_le n, net, x, rfl, hx, h⟩

/-- A turn that can be taken, and the turns after it. -/
theorem EndsWithin.turn [DecidableEq End] [DecidableEq Name] {i n : Nat} {t : Turn}
    (hx : net.calls[i]? = some x)
    (hturn : turn rs net x t = some (x', services))
    (h : EndsWithin rs i n { net with services, calls := net.calls.set i x' }) :
    EndsWithin rs i (n + 1) net := by
  obtain ⟨ts, hlength, net', y, hsteps, hy, hfinished⟩ := h
  refine ⟨t :: ts, Nat.succ_le_succ hlength, net', y, steps_cons ?_ hsteps, hy, hfinished⟩
  simp only [step, hx, hturn, Option.bind_eq_bind, Option.bind_some]

/-- The program behind the servers answers the request. -/
def Answered (rs : Srv → Server σ Args Reply) (req : Request Args) : Prop :=
  ∀ server s, ∃ reply s', (rs server).dispatch req s = some (reply, s')

/-- The steps `processReq` still needs, and those of the handler's goroutine. -/
def Phase.remaining : Phase Name Srv Reply → Nat
  | .sending => 7
  | .accepted => 6
  | .found _ => 5
  | .waiting _ | .collected _ _ => 2
  | .unreachable | .gaveUp | .passed _ _ | .delayed _ => 1
  | .returned _ => 0

def Handler.remaining : Handler Srv Reply → Nat
  | .running _ => 2
  | .blocked _ => 1
  | .none | .ended _ => 0

def Call.remaining (x : Call End Name Srv Args Reply) : Nat :=
  x.phase.remaining + x.handler.remaining

/-- `processReq` can go on where it does not wait for the handler. -/
theorem exists_turn_of_idle (hnet : net.listening = true ∨ net.done = true)
    (hwaiting : ∀ route, x.phase ≠ .waiting route)
    (hreturned : ∀ result, x.phase ≠ .returned result) :
    ∃ t x' services, turn rs net x t = some (x', services) ∧ x'.remaining < x.remaining := by
  have hgo (t : Turn) (phase : Phase Name Srv Reply)
      (hturn : turn rs net x t = some ({ x with phase }, net.services))
      (hless : phase.remaining < x.phase.remaining) :
      ∃ t x' services, turn rs net x t = some (x', services) ∧ x'.remaining < x.remaining :=
    ⟨t, _, _, hturn, Nat.add_lt_add_right hless _⟩
  cases hphase : x.phase with
  | sending =>
      rcases hnet with hlistening | hdone
      · exact hgo .accept .accepted (by simp [turn, hphase, hlistening])
          (by simp [hphase, Phase.remaining])
      · exact hgo .hangUp (.returned none) (by simp [turn, hphase, hdone])
          (by simp [hphase, Phase.remaining])
  | accepted =>
      cases hroute : readEndnameInfo net x.endname with
      | some route =>
          exact hgo .lookUp (.found route) (by simp [turn, hphase, hroute])
            (by simp [hphase, Phase.remaining])
      | none =>
          exact hgo .lookUp .unreachable (by simp [turn, hphase, hroute])
            (by simp [hphase, Phase.remaining])
  | unreachable =>
      exact hgo .expire (.returned none) (by simp [turn, hphase])
        (by simp [hphase, Phase.remaining])
  | found route =>
      refine ⟨.spawn, { x with phase := .waiting route, handler := .running route.server },
        net.services, by simp [turn, hphase], ?_⟩
      simp only [Call.remaining, hphase, Phase.remaining, Handler.remaining]
      omega
  | waiting route => exact absurd hphase (hwaiting route)
  | collected route reply =>
      by_cases hdead : isServerDead net x.endname route.servername route.server = true
      · exact hgo .check (.returned none) (by simp [turn, hphase, hdead])
          (by simp [hphase, Phase.remaining])
      · exact hgo .check (.passed route reply) (by simp [turn, hphase, hdead])
          (by simp [hphase, Phase.remaining])
  | gaveUp =>
      exact hgo .check (.returned none) (by simp [turn, hphase])
        (by simp [hphase, Phase.remaining])
  | passed route reply =>
      exact hgo .reply (.returned (some reply)) (by simp [turn, hphase])
        (by simp [hphase, Phase.remaining])
  | delayed reply =>
      exact hgo .expire (.returned (some reply)) (by simp [turn, hphase])
        (by simp [hphase, Phase.remaining])
  | returned result => exact absurd hphase (hreturned result)

/-- **PROGRESS**: some goroutine of a call that is not finished can take a step. -/
theorem exists_turn (hcoherent : x.Coherent) (hanswered : Answered rs x.req)
    (hnet : net.listening = true ∨ net.done = true) (hx : ¬ x.Finished) :
    ∃ t x' services, turn rs net x t = some (x', services) ∧ x'.remaining < x.remaining := by
  rw [Call.Coherent] at hcoherent
  cases hhandler : x.handler with
  | running server =>
      obtain ⟨reply, s', hreply⟩ := hanswered server net.services
      refine ⟨.dispatch, { x with handler := .blocked reply }, s', ?_, ?_⟩
      · simp only [turn, hhandler, hreply, Option.bind_eq_bind, Option.bind_some]
      · simp only [Call.remaining, hhandler, Handler.remaining]
        omega
  | blocked reply =>
      rcases hcoherent.pending (.inr ⟨reply, hhandler⟩) with ⟨route, hphase, -⟩ | ⟨hdraining, -⟩
      · refine ⟨.collect, { x with phase := .collected route reply, handler := .ended reply },
          net.services, ?_, ?_⟩
        · simp only [turn, hphase, hhandler]
        · simp only [Call.remaining, hphase, hhandler, Phase.remaining, Handler.remaining]
          omega
      · refine ⟨.drain, { x with handler := .ended reply }, net.services, ?_, ?_⟩
        · simp only [turn, hdraining, hhandler]
        · simp only [Call.remaining, hhandler, Handler.remaining]
          omega
  | none | ended _ =>
      refine exists_turn_of_idle hnet ?_ ?_
      · intro route hphase
        rw [hphase, hhandler] at hcoherent
        rcases hcoherent.1 with h | ⟨reply, h⟩ <;> cases h
      · intro result hphase
        exact hx ⟨⟨result, hphase⟩, by simp [hhandler]⟩

/-- By induction on the turns that remain: there is always a next one, and it leaves fewer. -/
theorem ends_within [DecidableEq End] [DecidableEq Name] {i n : Nat} (hn : x.remaining ≤ n)
    (hx : net.calls[i]? = some x)
    (hcoherent : x.Coherent) (hanswered : Answered rs x.req)
    (hnet : net.listening = true ∨ net.done = true) : EndsWithin rs i n net := by
  induction n generalizing net x with
  | zero =>
      refine .finished hx (by_contra fun hfinished => ?_)
      obtain ⟨t, x', s, -, hless⟩ := exists_turn hcoherent hanswered hnet hfinished
      omega
  | succ n ih =>
      by_cases hfinished : x.Finished
      · exact .finished hx hfinished
      · obtain ⟨t, x', s, hturn, hless⟩ := exists_turn hcoherent hanswered hnet hfinished
        have hturned := turned_of_turn hturn
        have hlt := (List.getElem?_eq_some_iff.mp hx).1
        refine .turn hx hturn (ih (x := x') (by omega) (List.getElem?_set_self hlt)
          (coherent_turned hturned hcoherent) ?_ hnet)
        rw [req_of_turned hturned]
        exact hanswered

/-- The network's goroutine ends only when `done` is closed. -/
theorem listening_step [DecidableEq End] [DecidableEq Name]
    (hnet : net.listening = true ∨ net.done = true)
    (h : step rs net e = some net') : net'.listening = true ∨ net'.done = true := by
  cases e <;> simp only [step] at h
  case turn i t =>
    obtain ⟨x, hx, h⟩ := Option.bind_eq_some_iff.mp h
    obtain ⟨⟨x', services⟩, hturn, h⟩ := Option.bind_eq_some_iff.mp h
    cases h
    exact hnet
  case stop =>
    split at h <;> cases h
    next hdone => exact .inr hdone
  case cleanup =>
    split at h <;> cases h
    exact .inr rfl
  all_goals
    (repeat' split at h) <;> cases h
    exact hnet

omit [DecidableEq Srv] in
/-- From its start a call has seven turns. -/
theorem Call.Coherent.remaining_le (h : x.Coherent) : x.remaining ≤ 7 := by
  have hhandler : x.handler.remaining ≤ 2 := by
    cases x.handler <;> simp [Handler.remaining]
  rw [Call.Coherent] at h
  rw [Call.remaining]
  cases hphase : x.phase <;> rw [hphase] at h
  case sending | accepted | found =>
    -- no handler yet
    rw [h.1]
    simp [Phase.remaining, Handler.remaining]
  all_goals
    simp only [Phase.remaining]
    omega

/-- **EVERY CALL CAN END.**  In every state that can be reached, whatever else has happened and
    without anybody else's help, `Call` can return and the goroutine of the handler end, with at
    most seven steps of the goroutines of this call. -/
theorem every_call_can_end [DecidableEq End] [DecidableEq Name] (s : σ)
    (h : Reaches (step rs) (makeNetwork s) net) {i : Nat} (hx : net.calls[i]? = some x)
    (hanswered : Answered rs x.req) : EndsWithin rs i 7 net := by
  have hinvariant : Coherent net ∧ (net.listening = true ∨ net.done = true) := by
    refine h.invariant (I := fun net => Coherent net ∧ (net.listening = true ∨ net.done = true))
      ⟨fun i x hx => by simp [makeNetwork] at hx, .inl rfl⟩ ?_
    rintro net e net' ⟨hcoherent, hnet⟩ hstep
    exact ⟨coherent_step hcoherent hstep, listening_step hnet hstep⟩
  obtain ⟨hcoherent, hnet⟩ := hinvariant
  have hx' := hcoherent i x hx
  exact ends_within hx'.remaining_le hx hx' hanswered hnet

/-- A call that has been accepted. -/
theorem every_call_can_end_of_adder : EndsWithin adder 0 7 (adderNetwork [.turn 0 .accept]) :=
  every_call_can_end 4 (reaches_adderNetwork _ rfl) rfl fun _ _ => ⟨_, _, rfl⟩

end Labrpc
