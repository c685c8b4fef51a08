import UniqueFreshman.GuardedRunProofs
import UniqueFreshman.RaftMoveProofs

/-! # Crash recovery — the persister always holds the server's own fields

    `persist` is called on about ten paths, some of them inside the `convertTo*`
    helpers.  The invariant `Durable` says that the saved bytes decode to the
    five fields `persist` encodes (or that nothing was saved and the fields are
    still those of `Make`).  Every step either ends in `persist` or leaves both
    the bytes and the five fields alone, so `Durable` holds after every step
    and `Make` gives back what a crash took away. -/

namespace RaftRecovery

open GuardedRun RaftServer RaftHandler RaftMove

variable {n : Nat} {Command Bytes : Type} {gob : Gob Command Bytes}
variable {rf rf' : Raft n Command Bytes}

/-- The saved bytes decode to the server's current persistent fields; a server
    that never saved still has those of `Make`. -/
def Durable (gob : Gob Command Bytes) (rf : Raft n Command Bytes) : Prop :=
  match rf.persister.raftstate with
  | none => persisted rf = [.int 0, .int (-1), .log [], .int 0, .int 0]
  | some data => gob.decode data = persisted rf

/-- What was just saved is durable. -/
theorem durable_of_saved (h : rf.persister = ⟨some (gob.encode (persisted rf))⟩) :
    Durable gob rf := by
  unfold Durable
  rw [h]
  exact gob.decode_encode _

/-- Durability is about the saved bytes and the five fields only. -/
theorem durable_congr (h : Durable gob rf) (hp : rf'.persister = rf.persister)
    (hf : persisted rf' = persisted rf) : Durable gob rf' := by
  unfold Durable at h ⊢
  rw [hp, hf]
  exact h

/-- The five fields are part of the core. -/
theorem persisted_of_sameCore (h : SameCore rf rf') : persisted rf' = persisted rf := by
  unfold persisted
  rw [h.currentTerm, h.votedFor, h.log, h.voteGranted, h.voteNotGranted]

/-- **RECOVERY**: `Make` on a durable persister restores the five fields. -/
theorem persisted_make (h : Durable gob rf) (me : Fin n) :
    persisted (make gob me rf.persister) = persisted rf := by
  unfold Durable at h
  cases hst : rf.persister.raftstate with
  | none =>
      rw [hst] at h
      rw [h]
      simp [make, readPersist, savedValues, hst, decodeInt, decodeLog, persisted]
  | some data =>
      rw [hst] at h
      simp only [make, readPersist, savedValues, hst, h]
      rfl

/-- The three fields a server recovers, read off the five. -/
theorem fields_of_persisted (h : persisted rf' = persisted rf) :
    rf'.currentTerm = rf.currentTerm ∧ rf'.votedFor = rf.votedFor ∧ rf'.log = rf.log := by
  unfold persisted at h
  injection h with h1 h
  injection h with h2 h
  injection h with h3 h
  exact ⟨GobValue.int.inj h1, GobValue.int.inj h2, GobValue.log.inj h3⟩

/-- A fresh server is durable: nothing is saved and nothing needs to be. -/
theorem durable_fresh (gob : Gob Command Bytes) (me : Fin n) :
    Durable gob (make gob me ⟨none⟩) := by
  unfold Durable
  simp [make, readPersist, savedValues, decodeInt, decodeLog, persisted]

/-- **STEP**: every step of a server keeps it durable. -/
theorem serverStep_durable {e : Input n Command} (h : Durable gob rf)
    (hs : serverStep gob rf e = some rf') : Durable gob rf' := by
  cases move_of_step hs with
  | still hcore hsaved =>
      rcases hsaved with hp | hp
      · exact durable_congr h hp (persisted_of_sameCore hcore)
      · exact durable_of_saved hp
  | vote hout => exact durable_of_saved hout.saved
  | accept _ hout => exact durable_of_saved hout.saved
  | append | stepDown | count | win | forget | stand => exact durable_of_saved rfl
  -- the leader's books and `committedIndex` are not saved
  | backUp | matched => exact durable_congr h rfl rfl
  | restart => exact durable_congr h rfl (persisted_make h rf.me)

/-- **STEP**: no step of a durable server lowers its term, a restart included. -/
theorem serverStep_term_le {e : Input n Command} (h : Durable gob rf)
    (hs : serverStep gob rf e = some rf') : rf.currentTerm ≤ rf'.currentTerm := by
  cases move_of_step hs with
  | still hcore _ => exact hcore.currentTerm.ge
  | vote hout =>
      rw [hout.currentTerm]
      exact le_max_left _ _
  | accept _ hout =>
      rw [hout.currentTerm]
      exact le_max_left _ _
  | append | count | win | backUp | matched | forget => exact le_refl _
  | stepDown _ hlt => exact le_of_lt hlt
  | stand _ =>
      show rf.currentTerm ≤ rf.currentTerm + 1
      omega
  | restart => exact le_of_eq (fields_of_persisted (persisted_make h rf.me)).1.symm

/-- Within a term only `RequestVote` and the `heartBeat` loop touch the vote. -/
theorem serverStep_votedFor {e : Input n Command} (h : Durable gob rf)
    (hs : serverStep gob rf e = some rf') (hvote : ∀ args, e ≠ .requestVote args)
    (hloop : ∀ l, e ≠ .loop l) (hterm : rf'.currentTerm = rf.currentTerm) :
    rf'.votedFor = rf.votedFor := by
  cases move_of_step hs with
  | still hcore _ => exact hcore.votedFor
  | vote _ => exact absurd rfl (hvote _)
  | accept _ hout => exact hout.votedFor
  | append | count | win | backUp | matched => rfl
  | stepDown _ hlt => exact absurd hterm hlt.ne'
  | forget _ | stand _ => exact absurd rfl (hloop _)
  | restart => exact (fields_of_persisted (persisted_make h rf.me)).2.1

/-- A server never changes its index. -/
theorem serverStep_me {e : Input n Command} (hs : serverStep gob rf e = some rf') :
    rf'.me = rf.me := by
  cases move_of_step hs with
  | still hcore _ => exact hcore.me
  | vote hout => exact hout.me
  | accept _ hout => exact hout.me
  | append | stepDown | count | win | backUp | matched | forget | stand | restart => rfl

/-- Every state of a server's life is durable. -/
theorem run_durable {me : Fin n} {cs : List (Raft n Command Bytes)}
    (h : Run (serverStep gob) Always (make gob me ⟨none⟩) cs) :
    ∀ rf ∈ cs, Durable gob rf :=
  Run.invariant (I := Durable gob) (durable_fresh gob me)
    (fun _ _ _ hd _ hs => serverStep_durable hd hs) h

/-- A follower that stood for election, adopted a later leader's term and took
    an entry from it, then crashed. -/
def acceptAndCrash : List (Input 3 Nat) :=
  [.loop .top, .loop .followerTimer, .appendEntries ⟨2, 1, -1, -1, [⟨7, 2⟩], -1⟩, .restart]

end RaftRecovery
