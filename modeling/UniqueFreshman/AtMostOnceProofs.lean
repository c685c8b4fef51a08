import UniqueFreshman.GuardedRunProofs

/-! # Remote calls — executed at most once

    What a network of remote calls is for, without a network.  A call is a
    request; some server may execute it, once, and its caller gets the answer of
    that execution or none.  A call that came back without an answer may have
    been executed all the same, and may still be executed later: a caller cannot
    tell. -/

namespace AtMostOnce

open GuardedRun

variable {σ Request Server Reply : Type}

/-- A call: what the one execution of it answered, and what its caller got. -/
structure Invocation (Request Reply : Type) where
  request : Request
  executed : Option Reply
  result : Option (Option Reply)

/-- The state behind the servers, and the calls in the order they were made. -/
structure State (σ Request Reply : Type) where
  services : σ
  calls : List (Invocation Request Reply)

inductive Event (Request Server : Type) where
  | invoke (request : Request)
  | execute (i : Nat) (server : Server)
  | succeed (i : Nat)
  | fail (i : Nat)

/-- What a server does with a request. -/
abbrev Handle (σ Request Server Reply : Type) :=
  Server → Request → σ → Option (Reply × σ)

def initial (services : σ) : State σ Request Reply := ⟨services, []⟩

/-- One step; `none` when it cannot happen. -/
def step (handle : Handle σ Request Server Reply) (s : State σ Request Reply) :
    Event Request Server → Option (State σ Request Reply)
  | .invoke request => some { s with calls := s.calls ++ [⟨request, none, none⟩] }
  | .execute i server => do
      let x ← s.calls[i]?
      match x.executed with
      | some _ => none
      | none =>
          let (reply, services) ← handle server x.request s.services
          some ⟨services, s.calls.set i { x with executed := some reply }⟩
  | .succeed i => do
      let x ← s.calls[i]?
      match x.executed, x.result with
      | some reply, none =>
          some { s with calls := s.calls.set i { x with result := some (some reply) } }
      | _, _ => none
  | .fail i => do
      let x ← s.calls[i]?
      match x.result with
      | none => some { s with calls := s.calls.set i { x with result := some none } }
      | some _ => none

/-- What one call may do, with the state behind the servers before and after. -/
inductive Advance (handle : Handle σ Request Server Reply) (services : σ) :
    Invocation Request Reply → Invocation Request Reply → σ → Prop where
  | stay (x : Invocation Request Reply) : Advance handle services x x services
  | execute {request : Request} {result : Option (Option Reply)} {reply : Reply} {services' : σ}
      (server : Server) (h : handle server request services = some (reply, services')) :
      Advance handle services ⟨request, none, result⟩ ⟨request, some reply, result⟩ services'
  | succeed (request : Request) (reply : Reply) :
      Advance handle services ⟨request, some reply, none⟩
        ⟨request, some reply, some (some reply)⟩ services
  | fail (request : Request) (executed : Option Reply) :
      Advance handle services ⟨request, executed, none⟩ ⟨request, executed, some none⟩ services

variable {handle : Handle σ Request Server Reply} {s : State σ Request Reply}

/-- An advance of one call is a step or none. -/
theorem reaches_of_advance {i : Nat} {x x' : Invocation Request Reply} {services : σ}
    (hi : s.calls[i]? = some x) (h : Advance handle s.services x x' services) :
    Reaches (step handle) s ⟨services, s.calls.set i x'⟩ := by
  cases h with
  | stay =>
      obtain ⟨hlt, rfl⟩ := List.getElem?_eq_some_iff.mp hi
      rw [List.set_getElem_self]
      exact .refl
  | execute server h =>
      refine .single ⟨.execute i server, ?_⟩
      simp only [step, hi, h, Option.bind_eq_bind, Option.bind_some]
  | succeed request reply =>
      refine .single ⟨.succeed i, ?_⟩
      simp only [step, hi, Option.bind_eq_bind, Option.bind_some]
  | fail request executed =>
      refine .single ⟨.fail i, ?_⟩
      simp only [step, hi, Option.bind_eq_bind, Option.bind_some]

end AtMostOnce
