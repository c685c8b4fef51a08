import UniqueFreshman.RaftTermOrderProofs
import UniqueFreshman.TermLogSafetyProofs

/-! # Log matching — the cluster as a ledger of term logs

    A cluster FOLLOWS a ledger: the nodes' terms and logs are the servers', a
    leader of the cluster leads its term in the ledger, and every
    `AppendEntries` in flight is cut out of a prefix of its term's log.  One
    lemma per transition says which move of the ledger it is.  As long as no
    term has two leaders the ledger's matching invariant can be kept along the
    run, and the servers' logs inherit it. -/

namespace RaftLogMatching

open GuardedRun RaftServer RaftHandler RaftAppendLog RaftCluster
open TermLog TermLogSafety

variable {n : Nat} {Command Bytes : Type} {gob : Gob Command Bytes}

/-- The ledgers of a cluster. -/
abbrev Book (n : Nat) (Command : Type) := Ledger (Fin n) (LogEntry Command)

/-! ## Following a ledger -/

/-- A request is cut out of `M`, a prefix of its term's log, at position `k`. -/
structure Cut (M : List (LogEntry Command)) (k : Nat)
    (args : AppendEntriesArgs Command) : Prop where
  inside : k ≤ M.length
  prevIndex : args.prevLogIndex = (k : Int) - 1
  entries : args.entries = M.drop k
  prevTerm : ∀ m, k = m + 1 → (M[m]?).map LogEntry.term = some args.prevLogTerm

/-- A request in flight comes from the leader of its term. -/
structure Sent (a : Book n Command) (caller dst : Fin n)
    (args : AppendEntriesArgs Command) : Prop where
  leader : a.leader args.term = some caller
  other : caller ≠ dst
  cut : ∃ M k, M <+: a.tlog args.term ∧ Cut M k args

/-- Server `s` is node `s` of the ledger. -/
structure ServerFollows (a : Book n Command) (s : Fin n) (rf : Raft n Command Bytes) :
    Prop where
  clock : a.clock s = rf.currentTerm
  log : a.log s = rf.log
  leads : rf.state = .leader → a.leader rf.currentTerm = some s
  stands : rf.state = .candidate → a.leader rf.currentTerm ≠ some s

/-- **THE SIMULATION RELATION**; `led s T` says that `s` was seen leading `T`. -/
structure Follows (led : Fin n → Int → Prop) (c : Cluster n Command Bytes)
    (a : Book n Command) : Prop where
  servers : ∀ s, ServerFollows a s (c.servers s)
  led : ∀ T s, a.leader T = some s → led s T
  requests : ∀ caller dst inc args, Msg.appendEntries caller dst inc args ∈ c.net →
    Sent a caller dst args

variable {led : Fin n → Int → Prop} {c c' : Cluster n Command Bytes} {a b : Book n Command}

/-- What was sent stays a cut of the growing term log. -/
theorem Sent.mono {caller dst : Fin n} {args : AppendEntriesArgs Command}
    (h : Sent a caller dst args) (hext : Extends LogEntry.term a b) :
    Sent b caller dst args := by
  obtain ⟨M, k, hM, hcut⟩ := h.cut
  exact ⟨hext.leader _ _ h.leader, h.other, M, k, hM.trans (hext.tlog _), hcut⟩

/-- The request a leader builds is a cut of its own log. -/
theorem sent_of_appendRequest {s j : Fin n} {rf : Raft n Command Bytes}
    {args : AppendEntriesArgs Command} (hm : Matching LogEntry.term a)
    (hs : ServerFollows a s rf) (hlead : rf.state = .leader) (hne : j ≠ s)
    (hargs : appendRequest rf j = some args) : Sent a s j args := by
  obtain ⟨k, hk, hprev, hentries, hprevTerm, -, hterm, -⟩ := appendRequest_spec hargs
  have hleader := hs.leads hlead
  have hown : rf.log = a.tlog rf.currentTerm := by
    rw [← hs.log]
    exact hm.own s _ hleader hs.clock
  refine ⟨by rw [hterm]; exact hleader, hne.symm, rf.log, k, ?_, ⟨hk, hprev, hentries, hprevTerm⟩⟩
  rw [hterm, ← hown]

/-- One server moves with its node, the other nodes stay what they are. -/
theorem Follows.update {led' : Fin n → Int → Prop} (h : Follows led c a) {s : Fin n}
    {rf : Raft n Command Bytes} (hext : Extends LogEntry.term a b)
    (hframe : ∀ v, v ≠ s → b.clock v = a.clock v ∧ b.log v = a.log v ∧
      ∀ T, b.leader T = some v → a.leader T = some v)
    (hservers : c'.servers = Function.update c.servers s rf) (hrf : ServerFollows b s rf)
    (hled : ∀ T v, b.leader T = some v → led' v T)
    (hnet : ∀ caller dst inc args, Msg.appendEntries caller dst inc args ∈ c'.net →
      Msg.appendEntries caller dst inc args ∈ c.net ∨ Sent b caller dst args) :
    Follows led' c' b := by
  refine ⟨?_, hled, fun caller dst inc args hmem => ?_⟩
  · rw [hservers, Function.forall_update_iff c.servers (p := fun v rf => ServerFollows b v rf)]
    refine ⟨hrf, fun v hv => ?_⟩
    obtain ⟨hclock, hlog, hback⟩ := hframe v hv
    have hold := h.servers v
    exact ⟨hclock.trans hold.clock, hlog.trans hold.log,
      fun hst => hext.leader _ _ (hold.leads hst),
      fun hst hlead => hold.stands hst (hback _ hlead)⟩
  · rcases hnet caller dst inc args hmem with hold | hnew
    · exact (h.requests caller dst inc args hold).mono hext
    · exact hnew

/-- Moves that write no term log: the node takes over the server's new term and
    log; within its term the server may only fall back to follower. -/
theorem Follows.follow (h : Follows led c a) {s : Fin n} {rf : Raft n Command Bytes}
    (htlog : b.tlog = a.tlog) (hleader : b.leader = a.leader)
    (hack : ∀ v T m, a.ack v T m → b.ack v T m) (hballot : b.ballot = a.ballot)
    (hclock : b.clock = Function.update a.clock s rf.currentTerm)
    (hlog : b.log = Function.update a.log s rf.log)
    (hstate : rf.state = .follower ∨
      (rf.currentTerm = (c.servers s).currentTerm ∧ rf.state = (c.servers s).state))
    (hservers : c'.servers = Function.update c.servers s rf)
    (hnet : ∀ caller dst inc args, Msg.appendEntries caller dst inc args ∈ c'.net →
      Msg.appendEntries caller dst inc args ∈ c.net ∨ Sent b caller dst args) :
    Follows led c' b := by
  refine h.update (.of_eq htlog hleader hack fun _ _ _ _ hb => hballot ▸ hb) ?_ hservers ?_ ?_
    hnet
  · intro v hv
    rw [hclock, hlog, hleader, Function.update_of_ne hv, Function.update_of_ne hv]
    exact ⟨rfl, rfl, fun _ h => h⟩
  · refine ⟨by rw [hclock, Function.update_self], by rw [hlog, Function.update_self], ?_, ?_⟩
    · intro hst
      rcases hstate with hf | ⟨hterm, hsame⟩
      · exact nomatch hf.symm.trans hst
      · rw [hleader, hterm]
        exact (h.servers s).leads (hsame ▸ hst)
    · intro hst
      rcases hstate with hf | ⟨hterm, hsame⟩
      · exact nomatch hf.symm.trans hst
      · rw [hleader, hterm]
        exact (h.servers s).stands (hsame ▸ hst)
  · rw [hleader]
    exact h.led

/-- The ledger stays when the moving server keeps its term and log. -/
theorem Follows.still (h : Follows led c a) {s : Fin n} {rf : Raft n Command Bytes}
    (hservers : c'.servers = Function.update c.servers s rf)
    (hterm : rf.currentTerm = (c.servers s).currentTerm)
    (hlog : rf.log = (c.servers s).log)
    (hstate : rf.state = .follower ∨ rf.state = (c.servers s).state)
    (hnet : ∀ caller dst inc args, Msg.appendEntries caller dst inc args ∈ c'.net →
      Msg.appendEntries caller dst inc args ∈ c.net ∨ Sent a caller dst args) :
    Follows led c' a := by
  refine h.follow rfl rfl (fun _ _ _ h => h) rfl ?_ ?_ (hstate.imp_right fun hs => ⟨hterm, hs⟩)
    hservers hnet
  · rw [hterm, ← (h.servers s).clock, Function.update_eq_self]
  · rw [hlog, ← (h.servers s).log, Function.update_eq_self]

/-- A server that adopts a term advances its node. -/
theorem Follows.adopt (h : Follows led c a) {s : Fin n} {rf : Raft n Command Bytes}
    (hservers : c'.servers = Function.update c.servers s rf)
    (hlog : rf.log = (c.servers s).log)
    (hrole : rf.state = .follower ∨
      (rf.currentTerm = (c.servers s).currentTerm ∧ rf.state = (c.servers s).state))
    (hnet : ∀ caller dst inc args, Msg.appendEntries caller dst inc args ∈ c'.net →
      Msg.appendEntries caller dst inc args ∈ c.net) :
    Follows led c' (a.advance s rf.currentTerm) := by
  refine h.follow rfl rfl (fun _ _ _ h => h) rfl rfl ?_ hrole hservers
    fun _ _ _ _ hm => .inl (hnet _ _ _ _ hm)
  rw [hlog, ← (h.servers s).log, Function.update_eq_self]
  rfl

/-- Votes are not seen by the relation. -/
theorem Follows.vote (h : Follows led c a) (v w : Fin n) : Follows led c (a.vote v w) :=
  ⟨fun s => ⟨(h.servers s).clock, (h.servers s).log, (h.servers s).leads,
    (h.servers s).stands⟩, h.led,
    fun _ _ _ _ hm => (h.requests _ _ _ _ hm).mono (extends_vote v w)⟩

theorem Follows.mono {led' : Fin n → Int → Prop} (h : Follows led c a)
    (hled : ∀ s T, led s T → led' s T) : Follows led' c a :=
  ⟨h.servers, fun T s hs => hled s T (h.led T s hs), h.requests⟩

/-! ## What `AppendEntries` does to a traced log -/

/-- The follower's log and the leader's agree up to a position where the
    consistency check passed. -/
theorem take_eq_of_check {tlog : ℤ → List (LogEntry Command)}
    {L M : List (LogEntry Command)} {k : Nat} {t : Int} (hL : Traced LogEntry.term tlog L)
    (hM : Traced LogEntry.term tlog M)
    (hLk : ∀ m, k = m + 1 → (L[m]?).map LogEntry.term = some t)
    (hMk : ∀ m, k = m + 1 → (M[m]?).map LogEntry.term = some t) : L.take k = M.take k := by
  cases k with
  | zero => rfl
  | succ m =>
      obtain ⟨e, he, het⟩ := Option.map_eq_some_iff.mp (hLk m rfl)
      obtain ⟨f, hf, hft⟩ := Option.map_eq_some_iff.mp (hMk m rfl)
      exact hL.agree hM he hf (het.trans hft.symm)

/-- Entries that agree in term all the way are in the log already. -/
theorem sub_of_termsAgree {tlog : ℤ → List (LogEntry Command)}
    {L M : List (LogEntry Command)} {k : Nat} (hL : Traced LogEntry.term tlog L)
    (hM : Traced LogEntry.term tlog M) (hk : L.take k = M.take k)
    (hagree : TermsAgree L k (M.drop k)) (hlen : M.length ≤ L.length) : M <+: L := by
  rcases Nat.lt_or_ge k M.length with hlt | hge
  · -- the last entry of `M` decides
    obtain ⟨i, hi⟩ : ∃ i, M.length = k + i + 1 := ⟨M.length - k - 1, by omega⟩
    have hf : M[k + i]? = some M[k + i] := List.getElem?_eq_getElem (by omega)
    have he : L[k + i]? = some L[k + i] := List.getElem?_eq_getElem (by omega)
    have hterm := hagree i _ _ he (by rw [List.getElem?_drop]; exact hf)
    have htake := hL.agree hM he hf hterm
    rw [← hi, List.take_length] at htake
    rw [← htake]
    exact List.take_prefix ..
  · have htake : M.take k = M := List.take_of_length_le hge
    rw [← htake, ← hk]
    exact List.take_prefix ..

/-- **NET EFFECT on traced logs**: the follower merges the leader's prefix into
    its log, or (first entry in conflict) loses one entry too many. -/
theorem appendLog_merge {tlog : ℤ → List (LogEntry Command)}
    {L L' M : List (LogEntry Command)} {k : Nat} (hL : Traced LogEntry.term tlog L)
    (hM : Traced LogEntry.term tlog M) (hkL : k ≤ L.length) (hkM : k ≤ M.length)
    (htake : L.take k = M.take k)
    (happ : appendLog L ((k : Int) - 1) (M.drop k) = some L') :
    L' = merge L M ∨ (ConflictAt L k (M.drop k) 0 ∧ L' = L.take (k - 1)) := by
  have hjoin : L.take k ++ M.drop k = M := by
    rw [htake, List.take_append_drop]
  rcases appendLog_cases hkL happ with ⟨hagree, rfl⟩ | ⟨i, hconf, rfl⟩ | ⟨hconf, -, rfl⟩
  · left
    have hend : k + (M.drop k).length = M.length := by
      rw [List.length_drop]
      omega
    rw [hjoin, hend]
    rcases Nat.lt_or_ge L.length M.length with hlt | hge
    · have hnot : ¬ M <+: L := fun hsub => absurd hsub.length_le (by omega)
      rw [merge, if_neg hnot, List.drop_of_length_le (by omega), List.append_nil]
    · have hsub := sub_of_termsAgree hL hM htake hagree hge
      rw [merge, if_pos hsub]
      exact List.prefix_append_drop hsub |>.symm
  · left
    have hnot : ¬ M <+: L := by
      intro hsub
      obtain ⟨x, e, hx, he, hne⟩ := hconf
      rw [List.getElem?_drop] at he
      rw [getElem?_of_sub hsub he] at hx
      exact hne (congrArg LogEntry.term (Option.some.inj hx).symm)
    rw [merge, if_neg hnot, hjoin]
  · exact .inr ⟨hconf, rfl⟩

/-! ## Transitions as moves -/

section Transitions

variable {s : Fin n}

/-- `Start` on a leader appends to its term's log. -/
theorem Follows.append (h : Follows led c a) (hm : Matching LogEntry.term a)
    (command : Command) (hlead : (c.servers s).state = .leader) :
    Follows led (setServer c s (persist gob { c.servers s with
        log := (c.servers s).log ++ [⟨command, (c.servers s).currentTerm⟩] }))
      (a.append s ⟨command, (c.servers s).currentTerm⟩) := by
  have hs := h.servers s
  have hleader : a.leader (a.clock s) = some s := by
    rw [hs.clock]
    exact hs.leads hlead
  refine h.update (extends_append hm hleader hs.clock.symm) ?_ rfl ?_ h.led
    fun _ _ _ _ hmem => .inl hmem
  · intro v hv
    exact ⟨rfl, log_append_of_ne hv, fun _ h => h⟩
  · refine ⟨hs.clock, ?_, fun _ => hs.leads hlead, fun hst => nomatch hlead.symm.trans hst⟩
    rw [log_append_self, hs.log]
    rfl

/-- The `heartBeat` loop stands for election: the node moves on by one term. -/
theorem Follows.stand (h : Follows led c a) (hm : Matching LogEntry.term a)
    (granted : List (Grant n)) :
    Follows led { setServer c s { convertToCandidate gob (c.servers s) with loopAt := .top }
        with granted := granted }
      (a.advance s ((c.servers s).currentTerm + 1)) := by
  have hs := h.servers s
  refine h.update (extends_advance s _) ?_ rfl ?_ h.led fun _ _ _ _ hmem => .inl hmem
  · intro v hv
    exact ⟨clock_advance_of_ne hv, rfl, fun _ h => h⟩
  · refine ⟨clock_advance_self, hs.log, (fun hst => nomatch hst), ?_⟩
    -- a node has not led a term it did not reach
    intro _ hlead
    have hpast : (c.servers s).currentTerm + 1 ≤ a.clock s := hm.past s _ hlead
    rw [hs.clock] at hpast
    omega

/-- `convertToLeader`: the node leads its term, which had no leader. -/
theorem Follows.lead {led' : Fin n → Int → Prop} (h : Follows led c a)
    (hm : Matching LogEntry.term a) (Q : Finset (Fin n)) {rf : Raft n Command Bytes}
    (hfree : a.leader (c.servers s).currentTerm = none)
    (hservers : c'.servers = Function.update c.servers s rf)
    (hterm : rf.currentTerm = (c.servers s).currentTerm)
    (hlog : rf.log = (c.servers s).log) (hstate : rf.state = .leader)
    (hnet : ∀ m ∈ c'.net, m ∈ c.net) (hled : ∀ v T, led v T → led' v T)
    (hnew : led' s (c.servers s).currentTerm) : Follows led' c' (a.lead s Q) := by
  have hs := h.servers s
  rw [← hs.clock] at hfree hnew
  refine h.update (extends_lead hm hfree) ?_ hservers ?_ ?_ fun _ _ _ _ hmem => .inl (hnet _ hmem)
  · intro v hv
    refine ⟨rfl, rfl, fun T hlead => ?_⟩
    by_cases hT : T = a.clock s
    · rw [hT, leader_lead_self] at hlead
      exact absurd (Option.some.inj hlead).symm hv
    · rwa [leader_lead_of_ne hT] at hlead
  · refine ⟨hs.clock.trans hterm.symm, hs.log.trans hlog.symm, ?_, ?_⟩
    · intro _
      rw [hterm, ← hs.clock]
      exact leader_lead_self
    · intro hst
      exact nomatch hstate.symm.trans hst
  · intro T v hlead
    by_cases hT : T = a.clock s
    · rw [hT, leader_lead_self] at hlead
      rw [hT, ← Option.some.inj hlead]
      exact hnew
    · rw [leader_lead_of_ne hT] at hlead
      exact hled v T (h.led T v hlead)

/-- An accepted `AppendEntries`: the leader of the receiver's new term, the
    prefix `M` of its log the request was cut from, and the receiver's new log:
    merged, or cut by the first-entry conflict. -/
theorem Follows.accepted (h : Follows led c a) (hm : Matching LogEntry.term a)
    {caller dst : Fin n} {inc : Nat} {args : AppendEntriesArgs Command}
    {rf : Raft n Command Bytes} {reply : AppendEntriesReply}
    {msgs : List (ApplyMsg Command)}
    (hmem : Msg.appendEntries caller dst inc args ∈ c.net)
    (hout : AppendOutcome gob (c.servers dst) args rf reply msgs)
    (hsuc : reply.success = true) :
    rf.currentTerm = args.term ∧ (c.servers dst).currentTerm ≤ args.term ∧
    a.leader args.term = some caller ∧ caller ≠ dst ∧
    ∃ M k, M <+: a.tlog args.term ∧ Cut M k args ∧ k ≤ (c.servers dst).log.length ∧
      (c.servers dst).log.take k = M.take k ∧
      (rf.log = merge (c.servers dst).log M ∨
        (ConflictAt (c.servers dst).log k args.entries 0 ∧
          rf.log = (c.servers dst).log.take (k - 1))) := by
  obtain ⟨hleader, hne, M, k, hM, hcut⟩ := h.requests caller dst inc args hmem
  obtain ⟨-, hpos⟩ := consistencyCheck_spec hout.check
  obtain ⟨hle, k', hk', hprev, hterm⟩ := hpos hsuc
  obtain rfl : k = k' := by
    have := hcut.prevIndex
    omega
  have hmax := hout.currentTerm
  have happ := (hout.accepted hsuc).1
  rw [hprev, hcut.entries] at happ
  have htrL : Traced LogEntry.term a.tlog (c.servers dst).log := by
    rw [← (h.servers dst).log]
    exact hm.logs dst
  have htrM : Traced LogEntry.term a.tlog M := (hm.tlogs _).sub hM
  have htake := take_eq_of_check htrL htrM hterm hcut.prevTerm
  refine ⟨by omega, by omega, hleader, hne, M, k, hM, hcut, hk', htake, ?_⟩
  rw [hcut.entries]
  exact appendLog_merge htrL htrM hk' hcut.inside htake happ

/-- The receiver that merged has moved to the request's term and acknowledged. -/
theorem Follows.merged (h : Follows led c a) {M : List (LogEntry Command)}
    {rf : Raft n Command Bytes} (hlog : rf.log = merge (c.servers s).log M)
    (hrole : rf.state = .follower ∨
      (rf.currentTerm = (c.servers s).currentTerm ∧ rf.state = (c.servers s).state))
    (hservers : c'.servers = Function.update c.servers s rf)
    (hnet : ∀ caller dst inc args, Msg.appendEntries caller dst inc args ∈ c'.net →
      Msg.appendEntries caller dst inc args ∈ c.net) :
    Follows led c' ((a.advance s rf.currentTerm).accept s M) := by
  refine h.follow rfl rfl (fun _ _ _ h => .inl h) rfl rfl ?_ hrole hservers
    fun _ _ _ _ hm => .inl (hnet _ _ _ _ hm)
  rw [hlog, ← (h.servers s).log]
  rfl

/-- The receiver that lost entries to a first-entry conflict. -/
theorem Follows.lost (h : Follows led c a) {k : Nat} {rf : Raft n Command Bytes}
    (hlog : rf.log = (c.servers s).log.take k)
    (hrole : rf.state = .follower ∨
      (rf.currentTerm = (c.servers s).currentTerm ∧ rf.state = (c.servers s).state))
    (hservers : c'.servers = Function.update c.servers s rf)
    (hnet : ∀ caller dst inc args, Msg.appendEntries caller dst inc args ∈ c'.net →
      Msg.appendEntries caller dst inc args ∈ c.net) :
    Follows led c' ((a.advance s rf.currentTerm).cut s k) := by
  refine h.follow rfl rfl (fun _ _ _ h => h) rfl rfl ?_ hrole hservers
    fun _ _ _ _ hm => .inl (hnet _ _ _ _ hm)
  rw [hlog, ← (h.servers s).log]
  rfl

end Transitions

/-! ## Runs with one leader per term -/

/-- The cluster follows a ledger that has the matching invariant. -/
def Simulated (led : Fin n → Int → Prop) (c : Cluster n Command Bytes) : Prop :=
  ∃ a, Follows led c a ∧ Matching LogEntry.term a

theorem Simulated.mono {led' : Fin n → Int → Prop} (h : Simulated led c)
    (hled : ∀ s T, led s T → led' s T) : Simulated led' c := by
  obtain ⟨a, hfol, hm⟩ := h
  exact ⟨a, hfol.mono hled, hm⟩

variable {cs : List (Cluster n Command Bytes)}

/-- A candidate about to lead finds its term without a leader. -/
theorem Follows.unled (h : Follows (Led cs) c a) {s : Fin n}
    (huniq : OneLeaderPerTerm (c' :: cs)) (hcand : (c.servers s).state = .candidate)
    (hlead : (c'.servers s).state = .leader)
    (hterm : (c'.servers s).currentTerm = (c.servers s).currentTerm) :
    a.leader (c.servers s).currentTerm = none := by
  by_contra hsome
  obtain ⟨v, hv⟩ := Option.ne_none_iff_exists'.mp hsome
  have hold : Led (c' :: cs) v (c.servers s).currentTerm := (h.led _ v hv).cons c'
  have hnew : Led (c' :: cs) s (c.servers s).currentTerm :=
    ⟨c', List.mem_cons_self .., hlead, hterm⟩
  rw [huniq v s _ hold hnew] at hv
  exact (h.servers s).stands hcand hv

/-- A reply put in flight is not a request. -/
theorem mem_of_mem_answer {caller dst : Fin n} {inc i : Nat}
    {args : AppendEntriesArgs Command} {m : Msg n Command}
    (hm : ∀ caller dst inc args, m ≠ Msg.appendEntries caller dst inc args)
    (h : Msg.appendEntries caller dst inc args ∈ c.net.eraseIdx i ++ [m]) :
    Msg.appendEntries caller dst inc args ∈ c.net := by
  rcases List.mem_append.mp h with h | h
  · exact mem_of_mem_rest h
  · exact absurd (List.mem_singleton.mp h).symm (hm _ _ _ _)

/-- **STEP**: a transition after which still no term has two leaders is a move
    of the ledger that keeps its matching invariant. -/
theorem follows_step {e : Event n Command} (h : Follows (Led (c :: cs)) c a)
    (hm : Matching LogEntry.term a) (ht : Transition gob c e c')
    (huniq : OneLeaderPerTerm (c' :: c :: cs)) :
    Simulated (Led (c' :: c :: cs)) c' := by
  have hcons : ∀ s T, Led (c :: cs) s T → Led (c' :: c :: cs) s T := fun s T hl => hl.cons c'
  have hadv : ∀ s t, (c.servers s).currentTerm ≤ t → a.clock s ≤ t := by
    intro s t hle
    rw [(h.servers s).clock]
    exact hle
  cases ht with
  | idle _ net' hnet =>
      exact .mono ⟨a, ⟨h.servers, h.led,
        fun _ _ _ _ hmem => h.requests _ _ _ _ (hnet _ hmem)⟩, hm⟩ hcons
  | quiet _ s rf' net' hstill hnet =>
      exact .mono ⟨a, h.still rfl hstill.currentTerm hstill.log (.inr hstill.state)
        fun _ _ _ _ hmem => .inl (hnet _ hmem), hm⟩ hcons
  | append s command hlead =>
      refine .mono ⟨_, h.append hm command hlead, hm.append ?_ (h.servers s).clock.symm⟩ hcons
      rw [(h.servers s).clock]
      exact (h.servers s).leads hlead
  | forget s e hb hwhy =>
      exact .mono ⟨a, h.still rfl rfl rfl (.inl rfl) fun _ _ _ _ hmem => .inl hmem, hm⟩ hcons
  | stand s e =>
      exact .mono ⟨_, h.stand hm _, hm.advance (hadv s _ (by omega))⟩ hcons
  | ask s round rf' hcand hstill =>
      refine .mono ⟨a, h.still rfl hstill.currentTerm hstill.log (.inr hstill.state) ?_, hm⟩ hcons
      intro caller dst inc args hmem
      rcases List.mem_append.mp hmem with hmem | hmem
      · exact .inl hmem
      · obtain ⟨j, -, heq⟩ := List.mem_map.mp hmem
        exact nomatch heq
  | send s j rf' args hlead hne hargs hstill =>
      refine .mono ⟨a, h.still rfl hstill.currentTerm hstill.log (.inr hstill.state) ?_, hm⟩ hcons
      intro caller dst inc args' hmem
      rcases List.mem_append.mp hmem with hmem | hmem
      · exact .inl hmem
      · obtain ⟨rfl, rfl, -, rfl⟩ := Msg.appendEntries.inj (List.mem_singleton.mp hmem)
        exact .inr (sent_of_appendRequest hm (h.servers caller) hlead hne hargs)
  | vote i caller dst inc round args rf' reply hmsg hout =>
      refine .mono ⟨_, h.adopt rfl hout.log (role_of_adopt hout.currentTerm hout.state) ?_,
        hm.advance (hadv dst _ ?_)⟩ hcons
      · intro _ _ _ _ hmem
        exact mem_of_mem_answer (by rintro _ _ _ _ ⟨⟩) hmem
      · rw [hout.currentTerm]
        exact le_max_left ..
  | stepDown i s term hterm =>
      exact .mono ⟨_, h.adopt rfl rfl (.inl rfl) fun _ _ _ _ hmem => mem_of_mem_rest hmem,
        hm.advance (hadv s _ (le_of_lt hterm))⟩ hcons
  | count i s voter inc round args reply hmsg hreply hterm hcand hgr =>
      exact .mono ⟨a, h.still rfl rfl rfl (.inr rfl)
        fun _ _ _ _ hmem => .inl (mem_of_mem_rest hmem), hm⟩ hcons
  | win i s voter inc round args reply ch rounds hmsg hreply hterm hcand hgr hmaj =>
      have hfree := h.unled huniq hcand (by rw [setServer_self]; rfl) (by rw [setServer_self]; rfl)
      refine ⟨_, h.lead hm ∅ hfree rfl rfl rfl rfl (fun _ hmem => mem_of_mem_rest hmem) hcons ?_,
        hm.lead ?_⟩
      · exact ⟨_, List.mem_cons_self .., by rw [setServer_self]; rfl,
          by rw [setServer_self]; rfl⟩
      · rw [(h.servers s).clock]
        exact hfree
  | accept i caller dst inc args rf' reply msgs hmsg hout =>
      have hmem := List.mem_of_getElem? hmsg
      have hrole := role_of_adopt hout.currentTerm hout.state
      have hrest : ∀ caller' dst' inc' args', Msg.appendEntries caller' dst' inc' args' ∈
          c.net.eraseIdx i ++ [Msg.appendEntriesReply caller dst inc args reply] →
          Msg.appendEntries caller' dst' inc' args' ∈ c.net :=
        fun _ _ _ _ hin => mem_of_mem_answer (by rintro _ _ _ _ ⟨⟩) hin
      have hle : (c.servers dst).currentTerm ≤ rf'.currentTerm := by
        rw [hout.currentTerm]
        exact le_max_left ..
      cases hsuc : reply.success with
      | false =>
          exact .mono ⟨_, h.adopt rfl (hout.refused hsuc).1 hrole hrest,
            hm.advance (hadv dst _ hle)⟩ hcons
      | true =>
          obtain ⟨hterm, -, hleader, hne, M, k, hM, -, -, -, hlog⟩ :=
            h.accepted hm hmem hout hsuc
          have hadvd := hm.advance (hadv dst _ hle)
          have hnot : (a.advance dst rf'.currentTerm).leader
              ((a.advance dst rf'.currentTerm).clock dst) ≠ some dst := by
            rw [clock_advance_self, hterm]
            exact fun heq => hne (Option.some.inj (hleader.symm.trans heq))
          rcases hlog with hmerge | ⟨-, hcut⟩
          · refine .mono ⟨_, h.merged hmerge hrole rfl hrest, hadvd.accept hnot ?_⟩ hcons
            rw [clock_advance_self, hterm]
            exact hM
          · exact .mono ⟨_, h.lost hcut hrole rfl hrest, hadvd.cut _ hnot⟩ hcons
  | matched i s j inc args reply next commit last msgs hmsg hreply hterm hlead hsuc hcommit
      hmsgs =>
      exact .mono ⟨a, h.still rfl rfl rfl (.inr rfl)
        fun _ _ _ _ hmem => .inl (mem_of_mem_rest hmem), hm⟩ hcons
  | restart s rf' hme hterm hvote hlog hstate hcommit =>
      exact .mono ⟨a, h.still rfl hterm hlog (.inl hstate) fun _ _ _ _ hmem => .inl hmem, hm⟩
        hcons

theorem simulated_initial (gob : Gob Command Bytes) :
    Simulated (Led [initial gob]) (initial gob : Cluster n Command Bytes) := by
  refine ⟨Ledger.empty fun _ => 0, ⟨fun s => ⟨rfl, rfl, ?_, ?_⟩, ?_, ?_⟩, matching_empty _ _⟩
  · intro hst
    exact nomatch hst
  · intro hst
    exact nomatch hst
  · intro T s hlead
    exact nomatch hlead
  · intro caller dst inc args hmem
    exact nomatch hmem

/-- **SIMULATION**: along a run with one leader per term the cluster follows a
    ledger. -/
theorem run_simulated {ok : Cluster n Command Bytes → Event n Command → Prop}
    (h : ClusterRun gob ok (c :: cs)) (huniq : OneLeaderPerTerm (c :: cs)) :
    Simulated (Led (c :: cs)) c := by
  have hrun := run_of_transitions h
  generalize hl : c :: cs = l at hrun huniq ⊢
  induction hrun generalizing c cs with
  | start =>
      obtain ⟨rfl, rfl⟩ := List.cons.inj hl
      exact simulated_initial gob
  | next e hprev hok hs ih =>
      obtain ⟨rfl, rfl⟩ := List.cons.inj hl
      obtain ⟨a, hfol, hm⟩ := ih (hprev.weaken fun _ _ h => h.1) rfl huniq.tail
      exact follows_step hfol hm (transition_of_step hok.2 hs) huniq

/-- **LOG MATCHING**: in every run in which no term ever has two different
    leaders, in every state and for every two servers, a shared term at index
    `i` means that the two logs are identical at every index up to `i`. -/
theorem log_matching (gob : Gob Command Bytes) (cs : List (Cluster n Command Bytes))
    (h : ClusterRun gob Always cs) (huniq : OneLeaderPerTerm cs)
    (c : Cluster n Command Bytes) (hc : c ∈ cs) (s t : Fin n) (i : Nat)
    (e f : LogEntry Command) (he : (c.servers s).log[i]? = some e)
    (hf : (c.servers t).log[i]? = some f) (hterm : e.term = f.term) :
    ∀ j ≤ i, (c.servers s).log[j]? = (c.servers t).log[j]? := by
  obtain ⟨ds, hrun, hsub⟩ := h.upTo hc
  have huniq' : OneLeaderPerTerm (c :: ds) := by
    rintro s s' T ⟨d, hd, hs⟩ ⟨d', hd', hs'⟩
    exact huniq s s' T ⟨d, hsub d hd, hs⟩ ⟨d', hsub d' hd', hs'⟩
  obtain ⟨a, hfol, hm⟩ := run_simulated hrun huniq'
  rw [← (hfol.servers s).log] at he ⊢
  rw [← (hfol.servers t).log] at hf ⊢
  have htake := hm.agree he hf hterm
  intro j hj
  have hlt : j < i + 1 := by omega
  rw [← List.getElem?_take_of_lt hlt, htake, List.getElem?_take_of_lt hlt]

theorem log_matching_of_replicated_entry :
    ∃ (c : SmallCluster 3) (cs : List (SmallCluster 3)),
      ClusterRun (plainGob Nat) Always cs ∧ c ∈ cs ∧
      (c.servers 0).log[0]? = some ⟨7, 1⟩ ∧ (c.servers 1).log[0]? = some ⟨7, 1⟩ ∧
      ∀ j ≤ 0, (c.servers 0).log[j]? = (c.servers 1).log[j]? := by
  have hrun : ClusterRun (plainGob Nat) Always
      (replay (clusterStep (plainGob Nat)) Always (initial (plainGob Nat)) electAndReplicate) :=
    run_replay electAndReplicate (by decide +kernel)
  have huniq : OneLeaderPerTerm
      (replay (clusterStep (plainGob Nat)) Always (initial (plainGob Nat)) electAndReplicate) :=
    oneLeaderPerTerm_iff.mpr (by decide +kernel)
  obtain ⟨c, hc, he, hf⟩ : ∃ c ∈ replay (clusterStep (plainGob Nat)) Always
      (initial (plainGob Nat)) electAndReplicate,
      (c.servers 0).log[0]? = some ⟨7, 1⟩ ∧ (c.servers 1).log[0]? = some ⟨7, 1⟩ := by
    decide +kernel
  exact ⟨c, _, hrun, hc, he, hf,
    log_matching (plainGob Nat) _ hrun huniq c hc 0 1 0 _ _ he hf rfl⟩

end RaftLogMatching
