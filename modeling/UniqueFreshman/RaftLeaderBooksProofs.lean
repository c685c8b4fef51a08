import UniqueFreshman.RaftBackupProofs

/-! # The leader's books — `nextIndex` and `matchIndex` under overlapping rounds

    Several rounds of `AppendEntries` to one peer overlap, and their replies
    come late and in any order.  What keeps the books in range is the leader's
    own log: while it serves a term its log only grows (as long as no other
    server leads the same term), so everything it has sent in that term still
    lies inside.

    `Serving` is the order between two states of one server that carries this
    along a run; `Accounted` says that a request, or the reply to it, lies
    inside the log of the leader that waits for it.

    In range is not in order: a late reply of an earlier round LOWERS
    `matchIndex`. -/

namespace RaftLeaderBooks

open GuardedRun GoSlice RaftServer RaftHandler RaftMove RaftRecovery RaftCluster
open RaftLogMatching RaftAppendEntries RaftBackup

variable {n : Nat} {Command Bytes : Type} {gob : Gob Command Bytes}
variable {rf rf' : Raft n Command Bytes}

/-! ## Serving a term -/

/-- From `rf` to `rf'` the term grows; or it stays, and a server that is no candidate
    does not become one, and is leader only if it was and with a longer log. -/
def Serving (rf rf' : Raft n Command Bytes) : Prop :=
  rf.currentTerm < rf'.currentTerm ∨
    (rf'.currentTerm = rf.currentTerm ∧ (rf.state ≠ .candidate →
      rf'.state ≠ .candidate ∧ (rf'.state = .leader → rf.state = .leader ∧ rf.log <+: rf'.log)))

theorem Serving.refl (rf : Raft n Command Bytes) : Serving rf rf :=
  .inr ⟨rfl, fun h => ⟨h, fun hlead => ⟨hlead, List.prefix_rfl⟩⟩⟩

theorem Serving.trans {rf'' : Raft n Command Bytes} (h : Serving rf rf') (h' : Serving rf' rf'') :
    Serving rf rf'' := by
  rcases h with hlt | ⟨heq, hkeep⟩ <;> rcases h' with hlt' | ⟨heq', hkeep'⟩
  · exact .inl (hlt.trans hlt')
  · exact .inl (heq' ▸ hlt)
  · exact .inl (heq ▸ hlt')
  · refine .inr ⟨heq'.trans heq, fun hcand => ?_⟩
    obtain ⟨hcand', hlead'⟩ := hkeep hcand
    obtain ⟨hcand'', hlead''⟩ := hkeep' hcand'
    refine ⟨hcand'', fun hlead => ?_⟩
    obtain ⟨hl', hpre'⟩ := hlead'' hlead
    obtain ⟨hl, hpre⟩ := hlead' hl'
    exact ⟨hl, hpre.trans hpre'⟩

/-- Within a term the role and the log stay, or the server falls back to follower. -/
theorem Serving.of_role (hterm : rf.currentTerm ≤ rf'.currentTerm)
    (hrole : rf'.currentTerm = rf.currentTerm → rf'.state = .follower ∨
      (rf'.state = rf.state ∧ (rf'.state = .leader → rf.log <+: rf'.log))) :
    Serving rf rf' := by
  rcases hterm.lt_or_eq with hlt | heq
  · exact .inl hlt
  · refine .inr ⟨heq.symm, fun hcand => ?_⟩
    rcases hrole heq.symm with hf | ⟨hsame, hlog⟩
    · rw [hf]
      exact ⟨by rintro ⟨⟩, by rintro ⟨⟩⟩
    · rw [hsame] at hlog ⊢
      exact ⟨hcand, fun hlead => ⟨hlead, hlog hlead⟩⟩

/-- **ONE STEP of a server**, if a leader's own log takes no entries from a request of its
    term. -/
theorem serving_step (hdur : Durable gob rf) {input : Input n Command}
    (hs : serverStep gob rf input = some rf')
    (hown : ∀ args, input = .appendEntries args → rf.state = .leader → rf'.state = .leader →
      rf'.log = rf.log) : Serving rf rf' := by
  have hterm := serverStep_term_le hdur hs
  cases move_of_step hs with
  | still hcore _ =>
      refine .of_role hterm fun _ => .inr ⟨hcore.state, fun _ => ?_⟩
      rw [hcore.log]
  | vote hout =>
      refine .of_role hterm fun _ => ?_
      refine (role_of_adopt hout.currentTerm hout.state).imp_right fun h => ⟨h.2, fun _ => ?_⟩
      rw [hout.log]
  | accept _ hout =>
      refine .of_role hterm fun _ => ?_
      refine (role_of_adopt hout.currentTerm hout.state).imp_right fun h => ⟨h.2, fun hlead => ?_⟩
      rw [hown _ rfl (h.2 ▸ hlead) hlead]
  | append _ => exact .of_role hterm fun _ => .inr ⟨rfl, fun _ => List.prefix_append ..⟩
  | stepDown _ _ | forget _ => exact .of_role hterm fun _ => .inl rfl
  | count hcand => exact .inr ⟨rfl, fun hno => absurd hcand hno⟩
  | win hcand => exact .inr ⟨rfl, fun hno => absurd hcand hno⟩
  | backUp | matched => exact .of_role hterm fun _ => .inr ⟨rfl, fun _ => List.prefix_rfl⟩
  | stand _ => exact .inl (Int.lt_succ _)
  | restart => exact .of_role hterm fun _ => .inl rfl

variable {c c' : Cluster n Command Bytes} {cs : List (Cluster n Command Bytes)}

/-- The leader of a term refuses every other request of that term. -/
theorem leader_log_of_request {led : Fin n → Int → Prop} {a : Book n Command}
    (hfol : Follows led c a) {s caller : Fin n} {inc : Nat} {args : AppendEntriesArgs Command}
    (hmem : Msg.appendEntries caller s inc args ∈ c.net)
    {reply : AppendEntriesReply} {msgs : List (ApplyMsg Command)}
    (hout : AppendOutcome gob (c.servers s) args rf' reply msgs)
    (hlead : (c.servers s).state = .leader) (hlead' : rf'.state = .leader) :
    rf'.log = (c.servers s).log := by
  cases hsuc : reply.success with
  | false => exact (hout.refused hsuc).1
  | true =>
      obtain ⟨hle, -⟩ := (consistencyCheck_spec hout.check).2 hsuc
      have hterm := hout.currentTerm
      have hnot : ¬ args.term > (c.servers s).currentTerm := by
        intro hgt
        have hst := hout.state
        rw [if_pos hgt, hlead'] at hst
        cases hst
      have hsame : args.term = (c.servers s).currentTerm := by omega
      obtain ⟨hcaller, hne, -⟩ := hfol.requests caller s inc args hmem
      rw [hsame, (hfol.servers s).leads hlead] at hcaller
      exact absurd (Option.some.inj hcaller).symm hne

/-- **ONE STEP of the cluster**, as long as no term has two leaders. -/
theorem serving_clusterStep {led : Fin n → Int → Prop} {a : Book n Command}
    (hfol : Follows led c a) (hdur : ServersDurable gob c) {e : Event n Command}
    (hs : clusterStep gob c e = some c') (s : Fin n) : Serving (c.servers s) (c'.servers s) := by
  rcases serverStep_of_clusterStep (fun s => (hdur s).1) hs s with
    ⟨-, heq⟩ | ⟨input, hserved, hstep⟩
  · rw [heq]
    exact .refl _
  · refine serving_step (hdur s).2 hstep ?_
    rintro args rfl hlead hlead'
    obtain ⟨caller, inc, hmem⟩ := (served_deliver hserved).1 args rfl
    obtain ⟨⟨rf', reply, msgs⟩, happ, heq⟩ := Option.map_eq_some_iff.mp hstep
    rw [← heq] at hlead' ⊢
    exact leader_log_of_request hfol hmem (appendEntries_spec happ) hlead hlead'

/-! ## Messages inside the log -/

/-- The request starts at the front or behind, and lies inside the log of a leader that
    still serves its term. -/
def Accounted (rf : Raft n Command Bytes) (args : AppendEntriesArgs Command) : Prop :=
  -1 ≤ args.prevLogIndex ∧ (args.term < rf.currentTerm ∨
    (args.term = rf.currentTerm ∧ rf.state ≠ .candidate ∧ (rf.state = .leader →
      args.prevLogIndex + args.entries.length < rf.log.length)))

/-- The request, or the reply to it, is in flight; its caller is `s`. -/
def Pending (c : Cluster n Command Bytes) (s : Fin n) (args : AppendEntriesArgs Command) :
    Prop :=
  (∃ dst inc, Msg.appendEntries s dst inc args ∈ c.net) ∨
    ∃ j inc reply, Msg.appendEntriesReply s j inc args reply ∈ c.net

theorem Accounted.mono {args : AppendEntriesArgs Command} (h : Accounted rf args)
    (hserving : Serving rf rf') : Accounted rf' args := by
  refine ⟨h.1, ?_⟩
  rcases hserving with hlt | ⟨heq, hkeep⟩
  · rcases h.2 with hold | ⟨hnow, -⟩
    · exact .inl (hold.trans hlt)
    · exact .inl (hnow ▸ hlt)
  · rcases h.2 with hold | ⟨hnow, hcand, hin⟩
    · exact .inl (heq ▸ hold)
    · obtain ⟨hcand', hlead'⟩ := hkeep hcand
      refine .inr ⟨heq ▸ hnow, hcand', fun hl => ?_⟩
      obtain ⟨hlead, hpre⟩ := hlead' hl
      have := hin hlead
      have := hpre.length_le
      omega

/-- A request is cut out of the leader's log. -/
theorem accounted_of_appendRequest {j : Fin n} {args : AppendEntriesArgs Command}
    (hlead : rf.state = .leader) (hargs : appendRequest rf j = some args) :
    Accounted rf args := by
  obtain ⟨k, hk, hprev, hentries, -, -, hterm, -⟩ := appendRequest_spec hargs
  refine ⟨by omega, .inr ⟨hterm, by rw [hlead]; rintro ⟨⟩, fun _ => ?_⟩⟩
  rw [hprev, hentries, List.length_drop]
  omega

/-- What is pending after a step was pending before, or was just sent. -/
theorem pending_step {e : Event n Command} (ht : Transition gob c e c') {s : Fin n}
    {args : AppendEntriesArgs Command} (h : Pending c' s args) :
    Pending c s args ∨ ∃ j, (c.servers s).state = .leader ∧
      appendRequest (c.servers s) j = some args := by
  rcases h with ⟨dst, inc, hmem⟩ | ⟨j, inc, reply, hmem⟩
  · rcases newlySent_of_transition ht hmem with hold | hnew
    · exact .inl (.inl ⟨dst, inc, hold⟩)
    · exact .inr ⟨dst, hnew⟩
  · rcases newlySent_of_transition ht hmem with hold | ⟨hreq, -⟩
    · exact .inl (.inr ⟨j, inc, reply, hold⟩)
    · exact .inl (.inl ⟨j, inc, hreq⟩)

/-! ## The books -/

/-- `nextIndex` and `matchIndex` are in range. -/
structure Books (rf : Raft n Command Bytes) : Prop where
  next : ∀ j, 0 ≤ rf.nextIndex j ∧ rf.nextIndex j ≤ rf.log.length
  matched : ∀ j, -1 ≤ rf.matchIndex j ∧ rf.matchIndex j < rf.log.length

theorem Books.mono (h : Books rf) (hnext : rf'.nextIndex = rf.nextIndex)
    (hmatch : rf'.matchIndex = rf.matchIndex) (hlog : rf.log.length ≤ rf'.log.length) :
    Books rf' := by
  constructor
  · intro j
    rw [hnext]
    have := h.next j
    omega
  · intro j
    rw [hmatch]
    have := h.matched j
    omega

/-- The scan names a place of the log, or what it was given. -/
theorem conflictScan_le {reply : AppendEntriesReply} {next : Int} :
    ∀ {log : List (LogEntry Command)} {i : Nat} {has : Bool},
      next ≤ ((i + log.length : Nat) : Int) →
      reply.conflictIndex ≤ ((i + log.length : Nat) : Int) →
      conflictScan reply next i has log ≤ ((i + log.length : Nat) : Int) := by
  intro log
  induction log with
  | nil =>
      intro i has hnext _
      exact hnext
  | cons e log ih =>
      intro i has hnext hconf
      rw [List.length_cons] at hnext hconf ⊢
      show (if e.term > reply.conflictTerm then _ else _) ≤ _
      split
      · split <;> omega
      · have hlen : i + (log.length + 1) = i + 1 + log.length := by omega
        rw [hlen] at hnext hconf ⊢
        exact ih hnext hconf

/-- What a leader needs to know of a reply of its own term. -/
structure Inside (rf : Raft n Command Bytes) (args : AppendEntriesArgs Command)
    (reply : AppendEntriesReply) : Prop where
  front : -1 ≤ args.prevLogIndex
  back : args.prevLogIndex + args.entries.length < rf.log.length
  conflict : reply.success = false → reply.conflictIndex ≤ args.prevLogIndex

/-- A leader that backs up after a rejection keeps its books. -/
theorem Books.backUp (h : Books rf) {j : Fin n} {args : AppendEntriesArgs Command}
    {reply : AppendEntriesReply} {go : Fin n → Nat} (hin : Inside rf args reply)
    (hrej : reply.success = false) :
    Books { rf with
      nextIndex := Function.update rf.nextIndex j
        (max 0 (conflictScan reply (rf.nextIndex j) 0 false rf.log))
      appendGo := go } := by
  refine ⟨?_, h.matched⟩
  have hscan : conflictScan reply (rf.nextIndex j) 0 false rf.log ≤
      ((0 + rf.log.length : Nat) : Int) := by
    have := h.next j
    have := hin.back
    have := hin.conflict hrej
    exact conflictScan_le (by omega) (by omega)
  rw [Function.forall_update_iff rf.nextIndex (p := fun _ x => 0 ≤ x ∧ x ≤ rf.log.length)]
  refine ⟨⟨le_max_left .., ?_⟩, fun v _ => h.next v⟩
  rw [Nat.zero_add] at hscan
  exact max_le (by omega) hscan

/-- A leader that records a match keeps its books. -/
theorem Books.recordMatch (h : Books rf) {j : Fin n} {args : AppendEntriesArgs Command}
    {reply : AppendEntriesReply} (hin : Inside rf args reply) :
    Books (recordMatch rf j args) := by
  have hfront := hin.front
  have hback := hin.back
  constructor
  · exact (Function.forall_update_iff rf.nextIndex
      (p := fun _ x => 0 ≤ x ∧ x ≤ rf.log.length)).mpr
        ⟨⟨by omega, by omega⟩, fun v _ => h.next v⟩
  · exact (Function.forall_update_iff rf.matchIndex
      (p := fun _ x => -1 ≤ x ∧ x < rf.log.length)).mpr
        ⟨⟨by omega, by omega⟩, fun v _ => h.matched v⟩

/-- **ONE STEP of a leader's books.** -/
theorem books_step {input : Input n Command} (h : rf.state = .leader → Books rf)
    (hs : serverStep gob rf input = some rf') (hserving : Serving rf rf')
    (hreply : ∀ j args reply, input = .appendReply j args reply → rf.state = .leader →
      rf.currentTerm = args.term → reply.term ≤ rf.currentTerm → Inside rf args reply) :
    rf'.state = .leader → Books rf' := by
  intro hlead'
  -- a leader that was leader before has a longer log
  have hlonger : rf.state = .leader → rf'.currentTerm = rf.currentTerm →
      rf.log.length ≤ rf'.log.length := by
    intro hlead hterm
    rcases hserving with hlt | ⟨-, hkeep⟩
    · omega
    · exact ((hkeep (by rw [hlead]; rintro ⟨⟩)).2 hlead').2.length_le
  cases move_of_step hs with
  | still hcore _ =>
      exact (h (hcore.state ▸ hlead')).mono hcore.nextIndex hcore.matchIndex (by rw [hcore.log])
  | vote hout =>
      rcases role_of_adopt hout.currentTerm hout.state with hf | ⟨-, hsame⟩
      · exact nomatch hf.symm.trans hlead'
      · exact (h (hsame ▸ hlead')).mono hout.nextIndex hout.matchIndex (by rw [hout.log])
  | accept _ hout =>
      rcases role_of_adopt hout.currentTerm hout.state with hf | ⟨hterm, hsame⟩
      · exact nomatch hf.symm.trans hlead'
      · have hlead := hsame ▸ hlead'
        exact (h hlead).mono hout.nextIndex hout.matchIndex (hlonger hlead hterm)
  | append hlead => exact (h hlead).mono rfl rfl (hlonger hlead rfl)
  | count hcand => exact nomatch hcand.symm.trans hlead'
  | win hcand =>
      constructor
      · intro j
        exact ⟨Int.natCast_nonneg _, le_rfl⟩
      · intro j
        refine ⟨le_rfl, ?_⟩
        show (-1 : Int) < (rf.log.length : Int)
        omega
  | backUp hle hterm hlead hrej => exact (h hlead).backUp (hreply _ _ _ rfl hlead hterm hle) hrej
  | matched hle hterm hlead hsuc hcommit _ _ =>
      exact ((h hlead).recordMatch (hreply _ _ _ rfl hlead hterm hle)).mono rfl rfl le_rfl
  | stepDown _ _ | forget _ | stand _ | restart => cases hlead'

/-- The requests of a leader with its books in range are built without a panic. -/
theorem Books.appendRequest (h : Books rf) (j : Fin n) :
    ∃ args, appendRequest rf j = some args := by
  obtain ⟨hlo, hhi⟩ := h.next j
  have hterm : ∃ t, termAt rf.log (rf.nextIndex j - 1) = some t := by
    rw [termAt]
    split
    · rename_i hge
      rw [goIndex, if_pos hge, List.getElem?_eq_getElem (by omega)]
      exact ⟨_, rfl⟩
    · exact ⟨_, rfl⟩
  obtain ⟨t, ht⟩ := hterm
  have hslice : goSliceFrom rf.log (rf.nextIndex j - 1 + 1) =
      some (rf.log.drop (rf.nextIndex j - 1 + 1).toNat) := if_pos ⟨by omega, by omega⟩
  rw [RaftServer.appendRequest]
  rw [ht, hslice]
  exact ⟨_, rfl⟩

/-! ## Runs with one leader per term -/

/-- The books of every leader are in range, and everything pending lies inside the log of
    the leader that waits for it. -/
structure BooksKept (c : Cluster n Command Bytes) : Prop where
  books : ∀ s, (c.servers s).state = .leader → Books (c.servers s)
  pending : ∀ s args, Pending c s args → Accounted (c.servers s) args

theorem booksKept_initial (gob : Gob Command Bytes) : BooksKept (n := n) (initial gob) := by
  constructor
  · intro s hlead
    cases hlead
  · rintro s args (⟨dst, inc, hmem⟩ | ⟨j, inc, reply, hmem⟩) <;> cases hmem

/-- A reply of a leader's own term that reaches it lies inside its log. -/
theorem BooksKept.inside (h : BooksKept c) (hrej : Rejections c) {s j : Fin n} {inc : Nat}
    {args : AppendEntriesArgs Command} {reply : AppendEntriesReply}
    (hmem : Msg.appendEntriesReply s j inc args reply ∈ c.net)
    (hlead : (c.servers s).state = .leader) (hterm : (c.servers s).currentTerm = args.term)
    (hreply : reply.term ≤ (c.servers s).currentTerm) : Inside (c.servers s) args reply := by
  obtain ⟨hfront, hback⟩ := h.pending s args (.inr ⟨j, inc, reply, hmem⟩)
  refine ⟨hfront, ?_, fun hno => ?_⟩
  · rcases hback with hold | ⟨-, -, hin⟩
    · omega
    · exact hin hlead
  · exact (hrej s j inc args reply hmem hno (hterm ▸ hreply)).2

/-- **STEP.** -/
theorem BooksKept.step (h : BooksKept c) (hrej : Rejections c) (hdur : ServersDurable gob c)
    {e : Event n Command} (hs : clusterStep gob c e = some c')
    (hserving : ∀ s, Serving (c.servers s) (c'.servers s)) : BooksKept c' := by
  constructor
  · intro s
    rcases serverStep_of_clusterStep (fun s => (hdur s).1) hs s with
      ⟨-, heq⟩ | ⟨input, hserved, hstep⟩
    · rw [heq]
      exact h.books s
    · refine books_step (h.books s) hstep (hserving s) ?_
      intro j args reply hinput hlead hterm hreply
      have hmem := (served_deliver hserved).2 j args reply hinput
      exact h.inside hrej hmem hlead hterm hreply
  · intro s args hpending
    rcases pending_step (transition_of_step hdur hs) hpending with hold | ⟨j, hlead, hargs⟩
    · exact (h.pending s args hold).mono (hserving s)
    · exact (accounted_of_appendRequest hlead hargs).mono (hserving s)

/-- In a run with one leader per term every step is a step of `Serving`. -/
theorem run_serving_step (h : ClusterRun gob Always (c :: cs))
    (huniq : OneLeaderPerTerm (c :: cs)) {e : Event n Command}
    (hs : clusterStep gob c e = some c') (s : Fin n) : Serving (c.servers s) (c'.servers s) := by
  obtain ⟨a, hfol, -⟩ := run_simulated h huniq
  exact serving_clusterStep hfol (run_serversDurable h c (List.mem_cons_self ..)) hs s

theorem run_booksKept (h : ClusterRun gob Always cs) (huniq : OneLeaderPerTerm cs) :
    ∀ c ∈ cs, BooksKept c := by
  refine h.invariant_of_history (I := BooksKept) (Q := OneLeaderPerTerm) (booksKept_initial gob)
    (fun _ _ hQ => hQ.tail) ?_ huniq
  intro c cs e c' hrun hQ hI _ hs
  have hmem : c ∈ c :: cs := List.mem_cons_self ..
  exact hI.step (run_rejections hrun c hmem) (run_serversDurable hrun c hmem) hs
    (run_serving_step hrun hQ.tail hs)

/-- Along a run every earlier state of a server serves the latest one. -/
theorem run_serving (h : ClusterRun gob Always (c :: cs)) (huniq : OneLeaderPerTerm (c :: cs)) :
    ∀ d ∈ c :: cs, ∀ s, Serving (d.servers s) (c.servers s) := by
  refine h.rel_head (R := fun d c => ∀ s, Serving (d.servers s) (c.servers s))
    (Q := OneLeaderPerTerm) (fun c s => .refl _) ?_ (fun _ _ hQ => hQ.tail) ?_ huniq
  · intro a b c hab hbc s
    exact (hab s).trans (hbc s)
  · intro c cs e c' hrun hQ _ hs
    exact run_serving_step hrun hQ.tail hs

/-- **THE LEADER'S BOOKS**: in every run in which no term ever has two different leaders, in
    every state and for every leader, `nextIndex` and `matchIndex` of every peer are in
    range, the next request to it is built without a panic, and the log continues every
    log the leader had before in this term. -/
theorem leader_books_in_range (gob : Gob Command Bytes) (c : Cluster n Command Bytes)
    (cs : List (Cluster n Command Bytes)) (h : ClusterRun gob Always (c :: cs))
    (huniq : OneLeaderPerTerm (c :: cs)) (s : Fin n) (hlead : (c.servers s).state = .leader) :
    (∀ j, (0 ≤ (c.servers s).nextIndex j ∧
        (c.servers s).nextIndex j ≤ (c.servers s).log.length) ∧
      (-1 ≤ (c.servers s).matchIndex j ∧
        (c.servers s).matchIndex j < (c.servers s).log.length) ∧
      ∃ args, appendRequest (c.servers s) j = some args) ∧
    ∀ d ∈ cs, (d.servers s).state = .leader →
      (d.servers s).currentTerm = (c.servers s).currentTerm →
      (d.servers s).log <+: (c.servers s).log := by
  have hbooks := (run_booksKept h huniq c (List.mem_cons_self ..)).books s hlead
  constructor
  · intro j
    exact ⟨hbooks.next j, hbooks.matched j, hbooks.appendRequest j⟩
  · intro d hd hleader hterm
    rcases run_serving h huniq d (List.mem_cons_of_mem c hd) s with hlt | ⟨-, hkeep⟩
    · omega
    · exact ((hkeep (by rw [hleader]; rintro ⟨⟩)).2 hlead).2

theorem leader_books_in_range_after_replication :
    ∃ (c : SmallCluster 3) (cs : List (SmallCluster 3)),
      ClusterRun (plainGob Nat) Always (c :: cs) ∧ (c.servers 0).state = .leader ∧
      (0 ≤ (c.servers 0).nextIndex 1 ∧ (c.servers 0).nextIndex 1 ≤ (c.servers 0).log.length) ∧
      ∀ d ∈ cs, (d.servers 0).state = .leader →
        (d.servers 0).currentTerm = (c.servers 0).currentTerm →
        (d.servers 0).log <+: (c.servers 0).log := by
  have hrun : ClusterRun (plainGob Nat) Always
      (replay (clusterStep (plainGob Nat)) Always (initial (plainGob Nat)) electAndReplicate) :=
    run_replay electAndReplicate (by decide +kernel)
  have huniq : OneLeaderPerTerm
      (replay (clusterStep (plainGob Nat)) Always (initial (plainGob Nat)) electAndReplicate) :=
    oneLeaderPerTerm_iff.mpr (by decide +kernel)
  have hlead : ∀ c ∈ (replay (clusterStep (plainGob Nat)) Always (initial (plainGob Nat))
      electAndReplicate).head?, (c.servers 0).state = .leader := by
    decide +kernel
  obtain ⟨c, cs, hcs⟩ := List.exists_cons_of_ne_nil hrun.ne_nil
  rw [hcs] at hrun huniq hlead
  obtain ⟨hbooks, hlog⟩ :=
    leader_books_in_range (plainGob Nat) c cs hrun huniq 0 (hlead c rfl)
  exact ⟨c, cs, hrun, hlead c rfl, (hbooks 1).1, hlog⟩

/-! ## In range, but not in order -/

/-- A positive reply of the leader's own term reports no less than `matchIndex` has. -/
def KeepsMatch (rf : Raft n Command Bytes) : Input n Command → Prop
  | .appendReply j args reply =>
      reply.term ≤ rf.currentTerm → rf.currentTerm = args.term → rf.state = .leader →
        reply.success = true → rf.matchIndex j ≤ args.prevLogIndex + args.entries.length
  | _ => True

instance (rf : Raft n Command Bytes) : ∀ i, Decidable (KeepsMatch rf i)
  | .appendReply j args reply =>
      inferInstanceAs (Decidable (reply.term ≤ rf.currentTerm → rf.currentTerm = args.term →
        rf.state = .leader → reply.success = true →
        rf.matchIndex j ≤ args.prevLogIndex + args.entries.length))
  | .requestVote .. | .appendEntries .. | .start .. | .voteReply .. | .loop .. |
    .startRequestVote | .runAppendEntries .. | .restart => isTrue trivial

/-- A server that is leader of one term before and after has no smaller `matchIndex`. -/
def MatchGrows (rf rf' : Raft n Command Bytes) : Prop :=
  rf.state = .leader → rf'.state = .leader → rf'.currentTerm = rf.currentTerm →
    ∀ j, rf.matchIndex j ≤ rf'.matchIndex j

/-- A step that leaves `matchIndex` alone. -/
theorem MatchGrows.of_eq (h : rf'.matchIndex = rf.matchIndex) : MatchGrows rf rf' := by
  intro _ _ _ j
  rw [h]

/-- Any other input leaves it alone, or is no step within a leadership. -/
theorem matchGrows_of_ne {input : Input n Command} (hs : serverStep gob rf input = some rf')
    (hinput : ∀ j args reply, input ≠ .appendReply j args reply) : MatchGrows rf rf' := by
  cases move_of_step hs with
  | still hcore _ => exact .of_eq hcore.matchIndex
  | vote hout => exact .of_eq hout.matchIndex
  | accept _ hout => exact .of_eq hout.matchIndex
  | append | count | stepDown | forget | stand => exact .of_eq rfl
  | win hcand =>
      intro hlead
      exact nomatch hcand.symm.trans hlead
  | backUp | matched => exact absurd rfl (hinput _ _ _)
  | restart =>
      intro _ hlead'
      cases hlead'

/-- **ONE STEP of a server**: only a positive reply can lower `matchIndex`. -/
theorem matchGrows_iff {input : Input n Command} (hs : serverStep gob rf input = some rf') :
    MatchGrows rf rf' ↔ KeepsMatch rf input := by
  cases input with
  | appendReply j args reply =>
      obtain ⟨⟨rf', msgs⟩, happ, rfl⟩ := Option.map_eq_some_iff.mp hs
      rw [KeepsMatch]
      rcases appendReply_cases happ with ⟨hlt, rfl, -⟩ | ⟨hign, rfl, -⟩ |
        ⟨-, -, -, hrej, -, go, rfl⟩ | ⟨hle, hterm, hlead, hsuc, commit, last, -, -, -, rfl, -⟩
      · exact iff_of_true (.of_eq rfl) fun hle => by omega
      · refine iff_of_true (.of_eq rfl) fun _ hterm hlead => ?_
        exact absurd hign (by simp [hterm, hlead])
      · refine iff_of_true (.of_eq rfl) fun _ _ _ hsuc => ?_
        rw [hrej] at hsuc
        cases hsuc
      · have hnew : ∀ v, (recordMatch rf j args).matchIndex v =
            if v = j then args.prevLogIndex + args.entries.length else rf.matchIndex v :=
          fun v => Function.update_apply ..
        constructor
        · intro hgrow _ _ _ _
          have h := hgrow hlead hlead rfl j
          rwa [hnew j, if_pos rfl] at h
        · intro hkeep _ _ _ v
          show _ ≤ (recordMatch rf j args).matchIndex v
          rw [hnew v]
          split
          · rename_i hv
            rw [hv]
            exact hkeep hle hterm hlead hsuc
          · exact le_rfl
  | requestVote | appendEntries | start | voteReply | loop | startRequestVote |
    runAppendEntries | restart =>
      exact iff_of_true (matchGrows_of_ne hs (by rintro _ _ _ ⟨⟩)) trivial

/-- In the step from `c` to `c'` no leader's `matchIndex` falls. -/
def MatchesGrow (c' c : Cluster n Command Bytes) : Prop :=
  ∀ s, MatchGrows (c.servers s) (c'.servers s)

/-- **`matchIndex` IS MONOTONE** along a run, during every leadership, just when no positive
    reply of the leader's term reports less than `matchIndex` has. -/
theorem matchIndex_monotone_iff (gob : Gob Command Bytes)
    (cs : List (Cluster n Command Bytes)) (h : ClusterRun gob Always cs) :
    cs.IsChain MatchesGrow ↔ ClusterRun gob (Serves KeepsMatch) cs := by
  refine Run.isChain_iff (fun c ds e c' hrun hs => ?_) h
  have hdur := run_serversDurable hrun c (List.mem_cons_self ..)
  refine forall_servers_iff_serves (fun s => (hdur s).1) hs ?_ ?_
  · intro s _ heq
    rw [heq]
    exact .of_eq rfl
  · intro s input _ hstep
    exact matchGrows_iff hstep

theorem matchIndex_monotone_of_one_round :
    ∃ (c : SmallCluster 3) (cs : List (SmallCluster 3)),
      ClusterRun (plainGob Nat) Always (c :: cs) ∧ (c.servers 0).matchIndex 1 = 0 ∧
      (c :: cs).IsChain MatchesGrow := by
  obtain ⟨c, cs, hrun, hmatch⟩ : ∃ (c : SmallCluster 3) (cs : List (SmallCluster 3)),
      ClusterRun (plainGob Nat) (Serves KeepsMatch) (c :: cs) ∧
        (c.servers 0).matchIndex 1 = 0 :=
    run_reaches electAndReplicate (by decide +kernel)
  have hall : ClusterRun (plainGob Nat) Always (c :: cs) := hrun.weaken fun _ _ _ => trivial
  exact ⟨c, cs, hall, hmatch, (matchIndex_monotone_iff (plainGob Nat) (c :: cs) hall).mpr hrun⟩

/-- Server `0` leads term `1` and sends two rounds to server `1`, the first with one entry,
    the second with two; the reply to the second comes first. -/
def overlappingRounds : List (Event 3 Nat) :=
  [.loop 0 .top, .loop 0 .followerTimer, .loop 0 .top, .startRequestVote 0,
    .deliver 0, .deliver 1,
    .start 0 7, .loop 0 .candidateLeader, .loop 0 .top,
    .loop 0 .appendRound, .runAppendEntries 0 1, .deliver 1,
    .start 0 8, .loop 0 .appendRound, .runAppendEntries 0 1, .deliver 2,
    .deliver 2, .deliver 1]

/-- **A LATE REPLY**: `matchIndex` falls from `1` to `0` within the leadership of term `1`. -/
theorem matchIndex_falls :
    ∃ (c c' : SmallCluster 3) (cs : List (SmallCluster 3)),
      ClusterRun (plainGob Nat) Always (c' :: c :: cs) ∧
      ((c.servers 0).state = .leader ∧ (c'.servers 0).state = .leader ∧
        (c'.servers 0).currentTerm = (c.servers 0).currentTerm) ∧
      (c.servers 0).matchIndex 1 = 1 ∧ (c'.servers 0).matchIndex 1 = 0 :=
  run_steps overlappingRounds (by decide +kernel)

end RaftLeaderBooks
