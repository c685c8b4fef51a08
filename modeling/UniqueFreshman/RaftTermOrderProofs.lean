import UniqueFreshman.RaftAppendLogProofs
import UniqueFreshman.RaftClusterProofs

/-! # Term order — every log is sorted by term, in every run

    The conflict scan and the up-to-date comparison rely on logs whose terms do
    not decrease.  The invariant `TermOrder` has two halves that need each
    other: every server's log is ordered and bounded by the server's term, and
    every `AppendEntries` in flight is ordered and bounded by its own term.
    Nothing is assumed about elections: a term may have several leaders. -/

namespace RaftTermOrder

open GuardedRun RaftServer RaftHandler RaftMove RaftRecovery RaftAppendLog RaftCluster

variable {n : Nat} {Command Bytes : Type} {gob : Gob Command Bytes}

/-- The terms of a log, in order. -/
def terms (log : List (LogEntry Command)) : List Int :=
  log.map LogEntry.term

/-- A log in order: terms do not decrease and lie between `1` and `bound`. -/
structure LogOrder (log : List (LogEntry Command)) (bound : Int) : Prop where
  sorted : (terms log).Pairwise (· ≤ ·)
  within : ∀ t ∈ terms log, 1 ≤ t ∧ t ≤ bound

/-- A server in order; a candidate or leader has left term `0`. -/
structure ServerOrder (rf : Raft n Command Bytes) : Prop where
  log : LogOrder rf.log rf.currentTerm
  nonneg : 0 ≤ rf.currentTerm
  active : rf.state ≠ .follower → 1 ≤ rf.currentTerm

/-- A request in order: `PrevLogTerm` and the entries' terms do not decrease
    and are at most the request's term; entries start at `1`. -/
structure RequestOrder (args : AppendEntriesArgs Command) : Prop where
  sorted : (args.prevLogTerm :: terms args.entries).Pairwise (· ≤ ·)
  bounded : ∀ t ∈ args.prevLogTerm :: terms args.entries, t ≤ args.term
  positive : ∀ t ∈ terms args.entries, 1 ≤ t

/-- **THE INVARIANT**: all logs and all requests in flight are in order. -/
structure TermOrder (c : Cluster n Command Bytes) : Prop where
  servers : ∀ s, ServerOrder (c.servers s)
  requests : ∀ caller dst inc args,
    Msg.appendEntries caller dst inc args ∈ c.net → RequestOrder args

/-! ## Logs -/

theorem LogOrder.mono {log : List (LogEntry Command)} {b b' : Int}
    (h : LogOrder log b) (hb : b ≤ b') : LogOrder log b' :=
  ⟨h.sorted, fun t ht => ⟨(h.within t ht).1, le_trans (h.within t ht).2 hb⟩⟩

theorem LogOrder.take {log : List (LogEntry Command)} {b : Int}
    (h : LogOrder log b) (k : Nat) : LogOrder (log.take k) b := by
  have hterms : terms (log.take k) = (terms log).take k := List.map_take ..
  constructor
  · rw [hterms]
    exact h.sorted.sublist (List.take_sublist ..)
  · intro t ht
    rw [hterms] at ht
    exact h.within t (List.mem_of_mem_take ht)

/-- `Start` appends the current term, which no entry exceeds. -/
theorem LogOrder.snoc {log : List (LogEntry Command)} {b : Int}
    (h : LogOrder log b) (hb : 1 ≤ b) (command : Command) :
    LogOrder (log ++ [⟨command, b⟩]) b := by
  have hterms : terms (log ++ [⟨command, b⟩]) = terms log ++ [b] := List.map_append ..
  constructor
  · rw [hterms, List.pairwise_append]
    refine ⟨h.sorted, List.pairwise_singleton .., ?_⟩
    intro t ht t' ht'
    rw [List.mem_singleton.mp ht']
    exact (h.within t ht).2
  · intro t ht
    rw [hterms] at ht
    rcases List.mem_append.mp ht with ht | ht
    · exact h.within t ht
    · rw [List.mem_singleton.mp ht]
      exact ⟨hb, le_refl _⟩

/-- Overwriting entries that agree in term does not change the terms. -/
theorem terms_overwrite {log entries : List (LogEntry Command)} {k : Nat}
    (hagree : TermsAgree log k entries) (hlen : k + entries.length ≤ log.length) :
    terms (log.take k ++ entries ++ log.drop (k + entries.length)) = terms log := by
  have hmid : terms entries = ((terms log).drop k).take entries.length := by
    refine List.ext_getElem? fun i => ?_
    by_cases hi : i < entries.length
    · obtain ⟨x, hx⟩ : ∃ x, log[k + i]? = some x :=
        ⟨_, List.getElem?_eq_getElem (by omega)⟩
      have he : entries[i]? = some entries[i] := List.getElem?_eq_getElem hi
      have hterm := hagree i _ _ hx he
      rw [List.getElem?_take_of_lt hi, List.getElem?_drop, terms, terms, List.getElem?_map,
        List.getElem?_map, hx, he]
      simp only [Option.map_some, hterm]
    · rw [List.getElem?_eq_none (by simp [terms]; omega),
        List.getElem?_eq_none (by simp [terms]; omega)]
  calc terms (log.take k ++ entries ++ log.drop (k + entries.length))
      = (terms log).take k ++ terms entries ++ (terms log).drop (k + entries.length) := by
        simp [terms]
    _ = (terms log).take k ++ (((terms log).drop k).take entries.length
          ++ ((terms log).drop k).drop entries.length) := by
        rw [hmid, List.append_assoc, List.drop_drop]
    _ = terms log := by rw [List.take_append_drop, List.take_append_drop]

/-- The follower's prefix followed by the entries of an ordered request. -/
theorem logOrder_extend {log : List (LogEntry Command)} {k : Nat}
    {args : AppendEntriesArgs Command} (h : LogOrder log args.term)
    (hreq : RequestOrder args) (hk : k ≤ log.length)
    (hprev : ∀ m, k = m + 1 → (log[m]?).map LogEntry.term = some args.prevLogTerm) :
    LogOrder (log.take k ++ args.entries) args.term := by
  have hterms : terms (log.take k ++ args.entries)
      = (terms log).take k ++ terms args.entries := by simp [terms]
  have hbelow : ∀ t ∈ (terms log).take k, t ≤ args.prevLogTerm := by
    intro t ht
    obtain ⟨i, hi, hti⟩ := List.getElem_of_mem ht
    have hik : i < k := lt_of_lt_of_le hi (by simp)
    obtain ⟨m, rfl⟩ : ∃ m, k = m + 1 := ⟨k - 1, by omega⟩
    have hm : m < (terms log).length := by simp [terms]; omega
    have hlast : (terms log)[m] = args.prevLogTerm := by
      have h0 := hprev m rfl
      rw [← List.getElem?_map] at h0
      exact Option.some.inj ((List.getElem?_eq_getElem hm).symm.trans h0)
    have him : i < (terms log).length := by omega
    have hle : (terms log)[i] ≤ (terms log)[m] := by
      rcases Nat.lt_or_ge i m with hlt | hge
      · exact List.pairwise_iff_getElem.mp h.sorted i m _ hm hlt
      · obtain rfl : i = m := by omega
        exact le_refl _
    rw [← hti, List.getElem_take]
    exact hlast ▸ hle
  have hhead := List.pairwise_cons.mp hreq.sorted
  constructor
  · rw [hterms, List.pairwise_append]
    refine ⟨h.sorted.sublist (List.take_sublist ..), hhead.2, ?_⟩
    intro t ht t' ht'
    exact le_trans (hbelow t ht) (hhead.1 t' ht')
  · intro t ht
    rw [hterms] at ht
    rcases List.mem_append.mp ht with ht | ht
    · exact h.within t (List.mem_of_mem_take ht)
    · exact ⟨hreq.positive t ht, hreq.bounded t (List.mem_cons_of_mem _ ht)⟩

/-- What `AppendEntries` makes of an ordered log is ordered. -/
theorem logOrder_appendLog {log log' : List (LogEntry Command)} {k : Nat}
    {args : AppendEntriesArgs Command} (h : LogOrder log args.term)
    (hreq : RequestOrder args) (hk : k ≤ log.length)
    (hprev : ∀ m, k = m + 1 → (log[m]?).map LogEntry.term = some args.prevLogTerm)
    (happ : appendLog log ((k : Int) - 1) args.entries = some log') :
    LogOrder log' args.term := by
  rcases appendLog_cases hk happ with ⟨hagree, rfl⟩ | ⟨i, -, rfl⟩ | ⟨-, -, rfl⟩
  · by_cases hlen : k + args.entries.length ≤ log.length
    · -- a kept tail: term by term the log is the old one
      have hterms := terms_overwrite hagree hlen
      exact ⟨by rw [hterms]; exact h.sorted, by rw [hterms]; exact h.within⟩
    · rw [List.drop_of_length_le (by omega), List.append_nil]
      exact logOrder_extend h hreq hk hprev
  · exact logOrder_extend h hreq hk hprev
  · exact h.take _

/-- A request built from an ordered log is ordered. -/
theorem requestOrder_appendRequest {rf : Raft n Command Bytes} {j : Fin n}
    {args : AppendEntriesArgs Command} (h : ServerOrder rf)
    (hargs : appendRequest rf j = some args) : RequestOrder args := by
  obtain ⟨k, hk, -, hentries, hprev, hnone, hterm, -⟩ := appendRequest_spec hargs
  have hterms : terms args.entries = (terms rf.log).drop k := by
    rw [hentries]; exact List.map_drop ..
  have hin : ∀ t ∈ terms args.entries, t ∈ terms rf.log := by
    intro t ht
    rw [hterms] at ht
    exact List.mem_of_mem_drop ht
  have hsorted : (terms args.entries).Pairwise (· ≤ ·) := by
    rw [hterms]
    exact h.log.sorted.sublist (List.drop_sublist ..)
  cases k with
  | zero =>
      have hprev0 : args.prevLogTerm = -1 := hnone rfl
      refine ⟨List.pairwise_cons.mpr ⟨?_, hsorted⟩, ?_, fun t ht => (h.log.within t (hin t ht)).1⟩
      · intro t ht
        have := (h.log.within t (hin t ht)).1
        omega
      · intro t ht
        rcases List.mem_cons.mp ht with rfl | ht
        · have := h.nonneg
          omega
        · rw [hterm]
          exact (h.log.within t (hin t ht)).2
  | succ m =>
      have hm : m < (terms rf.log).length := by simp [terms]; omega
      have hlast : (terms rf.log)[m] = args.prevLogTerm := by
        have h0 := hprev m rfl
        rw [← List.getElem?_map] at h0
        exact Option.some.inj ((List.getElem?_eq_getElem hm).symm.trans h0)
      refine ⟨List.pairwise_cons.mpr ⟨?_, hsorted⟩, ?_, fun t ht => (h.log.within t (hin t ht)).1⟩
      · intro t ht
        rw [hterms] at ht
        obtain ⟨i, hi, rfl⟩ := List.getElem_of_mem ht
        rw [List.getElem_drop, ← hlast]
        exact List.pairwise_iff_getElem.mp h.log.sorted m _ hm _ (by omega)
      · intro t ht
        rw [hterm]
        rcases List.mem_cons.mp ht with rfl | ht
        · rw [← hlast]
          exact (h.log.within _ (List.getElem_mem hm)).2
        · exact (h.log.within t (hin t ht)).2

/-! ## Servers and the cluster -/

/-- Only the log, the term and the role matter. -/
theorem ServerOrder.congr {rf rf' : Raft n Command Bytes} (h : ServerOrder rf)
    (hlog : rf'.log = rf.log) (hterm : rf'.currentTerm = rf.currentTerm)
    (hstate : rf'.state ≠ .follower → rf.state ≠ .follower) : ServerOrder rf' := by
  refine ⟨?_, ?_, ?_⟩
  · rw [hlog, hterm]; exact h.log
  · rw [hterm]; exact h.nonneg
  · intro hs
    rw [hterm]
    exact h.active (hstate hs)

/-- A server that moves to a later term keeps its log in order. -/
theorem ServerOrder.later {rf rf' : Raft n Command Bytes} (h : ServerOrder rf)
    (hlog : rf'.log = rf.log) (hterm : rf.currentTerm ≤ rf'.currentTerm)
    (hstate : rf'.state ≠ .follower → 1 ≤ rf'.currentTerm) : ServerOrder rf' :=
  ⟨by rw [hlog]; exact h.log.mono hterm, le_trans h.nonneg hterm, hstate⟩

/-- A server that takes over a request's term is no follower only if its own term
    was as high. -/
theorem ServerOrder.active_of_adopt {rf rf' : Raft n Command Bytes} (h : ServerOrder rf) {t : Int}
    (hterm : rf'.currentTerm = max rf.currentTerm t)
    (hstate : rf'.state = if t > rf.currentTerm then .follower else rf.state)
    (hs : rf'.state ≠ .follower) : 1 ≤ rf'.currentTerm := by
  rcases role_of_adopt hterm hstate with hf | ⟨heq, hsame⟩
  · exact absurd hf hs
  · rw [heq]
    exact h.active (hsame ▸ hs)

/-- `AppendEntries` keeps its receiver in order. -/
theorem serverOrder_accept {rf rf' : Raft n Command Bytes}
    {args : AppendEntriesArgs Command} {reply : AppendEntriesReply}
    {msgs : List (ApplyMsg Command)} (h : ServerOrder rf) (hreq : RequestOrder args)
    (hout : AppendOutcome gob rf args rf' reply msgs) : ServerOrder rf' := by
  have hmax : rf.currentTerm ≤ rf'.currentTerm := by
    rw [hout.currentTerm]
    exact le_max_left ..
  have hactive := h.active_of_adopt hout.currentTerm hout.state
  cases hsuc : reply.success with
  | false => exact h.later (hout.refused hsuc).1 hmax hactive
  | true =>
      obtain ⟨-, hpos⟩ := consistencyCheck_spec hout.check
      obtain ⟨hle, k, hk, hprev, hterm⟩ := hpos hsuc
      have happ := (hout.accepted hsuc).1
      rw [hprev] at happ
      -- an accepted request is of the receiver's new term
      have heq : rf'.currentTerm = args.term := by
        have := hout.currentTerm
        omega
      have hold : LogOrder rf.log args.term := h.log.mono (heq ▸ hmax)
      refine ⟨?_, le_trans h.nonneg hmax, hactive⟩
      rw [heq]
      exact logOrder_appendLog hold hreq hk hterm happ

/-- **ONE MOVE** of a server keeps it in order, if the request it takes is in order. -/
theorem serverOrder_move {rf rf' : Raft n Command Bytes} {input : Input n Command}
    (h : ServerOrder rf) (hdur : Durable gob rf)
    (hreq : ∀ args, input = .appendEntries args → RequestOrder args)
    (hmove : Move gob rf input rf') : ServerOrder rf' := by
  cases hmove with
  | still hcore _ => exact h.congr hcore.log hcore.currentTerm (by rw [hcore.state]; exact id)
  | vote hout =>
      refine h.later hout.log ?_ (h.active_of_adopt hout.currentTerm hout.state)
      rw [hout.currentTerm]
      exact le_max_left ..
  | accept _ hout => exact serverOrder_accept h (hreq _ rfl) hout
  | append hlead =>
      have hpos : 1 ≤ rf.currentTerm := h.active (by rw [hlead]; rintro ⟨⟩)
      exact ⟨h.log.snoc hpos _, h.nonneg, h.active⟩
  | stepDown _ hlt => exact h.later rfl hlt.le fun hs => absurd rfl hs
  | count | backUp | matched => exact h.congr rfl rfl id
  | win hcand =>
      refine h.congr rfl rfl fun _ => ?_
      rw [hcand]
      rintro ⟨⟩
  | forget => exact h.congr rfl rfl fun hs => absurd rfl hs
  | stand =>
      have hnonneg := h.nonneg
      refine h.later rfl (Int.lt_succ _).le fun _ => ?_
      show 1 ≤ rf.currentTerm + 1
      omega
  | restart =>
      obtain ⟨hterm, -, hlog⟩ := fields_of_persisted (persisted_make hdur rf.me)
      exact h.congr hlog hterm fun hs => absurd rfl hs

/-- **STEP**: the servers stay in order because the requests in flight are, and a new
    request is built from a log in order. -/
theorem termOrder_step {c c' : Cluster n Command Bytes} {e : Event n Command}
    (h : TermOrder c) (hd : ServersDurable gob c) (hs : clusterStep gob c e = some c') :
    TermOrder c' := by
  constructor
  · intro s
    rcases serverStep_of_clusterStep (fun s => (hd s).1) hs s with
      ⟨-, heq⟩ | ⟨input, hserved, hstep⟩
    · rw [heq]
      exact h.servers s
    · refine serverOrder_move (h.servers s) (hd s).2 ?_ (move_of_step hstep)
      intro args hinput
      obtain ⟨caller, inc, hmem⟩ := (served_deliver hserved).1 args hinput
      exact h.requests caller s inc args hmem
  · intro caller dst inc args hmem
    rcases newlySent_of_transition (transition_of_step hd hs) hmem with hold | ⟨-, hargs⟩
    · exact h.requests caller dst inc args hold
    · exact requestOrder_appendRequest (h.servers caller) hargs

theorem termOrder_initial (gob : Gob Command Bytes) :
    TermOrder (n := n) (initial gob) := by
  constructor
  · intro s
    refine ⟨⟨List.Pairwise.nil, fun t ht => nomatch ht⟩, le_refl _, fun hs => absurd rfl hs⟩
  · intro _ _ _ _ hm
    exact nomatch hm

/-- The invariant holds in every state of every run. -/
theorem run_termOrder {cs : List (Cluster n Command Bytes)}
    (h : ClusterRun gob Always cs) : ∀ c ∈ cs, TermOrder c :=
  Run.invariant (I := TermOrder) (termOrder_initial gob)
    (fun _ _ _ hI hok hs => termOrder_step hI hok.2 hs) (run_of_transitions h)

/-- **TERM ORDER OF LOGS**: in every state of every run, every log has terms
    that do not decrease, all between `1` and the server's current term, and
    every `AppendEntries` in flight has `PrevLogTerm` and entry terms that do
    not decrease and are at most its own term. -/
theorem term_order_of_logs (gob : Gob Command Bytes) (cs : List (Cluster n Command Bytes))
    (h : ClusterRun gob Always cs) (c : Cluster n Command Bytes) (hc : c ∈ cs) :
    (∀ s, ((c.servers s).log.map LogEntry.term).Pairwise (· ≤ ·) ∧
      ∀ e ∈ (c.servers s).log, 1 ≤ e.term ∧ e.term ≤ (c.servers s).currentTerm) ∧
    ∀ caller dst inc args, Msg.appendEntries caller dst inc args ∈ c.net →
      (args.prevLogTerm :: args.entries.map LogEntry.term).Pairwise (· ≤ ·) ∧
      ∀ t ∈ args.prevLogTerm :: args.entries.map LogEntry.term, t ≤ args.term := by
  have hI : TermOrder c := run_termOrder h c hc
  constructor
  · intro s
    refine ⟨(hI.servers s).log.sorted, ?_⟩
    intro e he
    exact (hI.servers s).log.within e.term (List.mem_map_of_mem he)
  · intro caller dst inc args hm
    exact ⟨(hI.requests caller dst inc args hm).sorted,
      (hI.requests caller dst inc args hm).bounded⟩

theorem term_order_of_replicated_logs :
    ∃ (c : SmallCluster 3) (cs : List (SmallCluster 3)),
      ClusterRun (plainGob Nat) Always (c :: cs) ∧
      (c.servers 1).log = [⟨7, 1⟩] ∧ (c.servers 1).currentTerm = 1 ∧
      ∀ e ∈ (c.servers 1).log, 1 ≤ e.term ∧ e.term ≤ (c.servers 1).currentTerm := by
  obtain ⟨c, cs, hrun, hlog, hterm⟩ : ∃ (c : SmallCluster 3) (cs : List (SmallCluster 3)),
      ClusterRun (plainGob Nat) Always (c :: cs) ∧
      (c.servers 1).log = [⟨7, 1⟩] ∧ (c.servers 1).currentTerm = 1 :=
    run_reaches electAndReplicate (by decide +kernel)
  obtain ⟨hlogs, -⟩ :=
    term_order_of_logs (plainGob Nat) (c :: cs) hrun c (List.mem_cons_self ..)
  exact ⟨c, cs, hrun, hlog, hterm, (hlogs 1).2⟩

end RaftTermOrder
