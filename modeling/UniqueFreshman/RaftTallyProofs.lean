import UniqueFreshman.RaftClusterProofs

/-! # The tally — who elected a leader

    `voteGranted` counts replies, not voters.  A candidate whose timer fires
    while an earlier `startRequestVote` goroutine has not run yet ends up with
    two rounds of requests in ONE term, and a voter that answers both is
    counted twice.  The invariant `Tally` ties the counter to the tapes; it
    gives a majority of distinct voters exactly as long as no grant is counted
    twice (`CountsOnce`). -/

namespace RaftTally

open GuardedRun RaftServer RaftHandler RaftCluster

variable {n : Nat} {Command Bytes : Type} {gob : Gob Command Bytes}

/-- The message is not a second grant of a voter whose grant its candidate has
    counted in this term. -/
def CountsOnceOn (c : Cluster n Command Bytes) : Msg n Command → Prop
  | .requestVoteReply s voter _ _ args reply =>
      (c.servers s).state = .candidate → (c.servers s).currentTerm = args.term →
        reply.voteGranted = true → ⟨s, args.term, voter⟩ ∉ c.counted
  | _ => True

/-- The step hands no candidate a grant it has counted already. -/
def CountsOnce (c : Cluster n Command Bytes) : Event n Command → Prop
  | .deliver i => ∀ m ∈ c.net[i]?, CountsOnceOn c m
  | _ => True

instance (c : Cluster n Command Bytes) : ∀ m, Decidable (CountsOnceOn c m)
  | .requestVoteReply s voter _ _ args reply =>
      inferInstanceAs (Decidable ((c.servers s).state = .candidate →
        (c.servers s).currentTerm = args.term → reply.voteGranted = true →
        ⟨s, args.term, voter⟩ ∉ c.counted))
  | .requestVote .. | .appendEntries .. | .appendEntriesReply .. => isTrue trivial

instance (c : Cluster n Command Bytes) : ∀ e, Decidable (CountsOnce c e)
  | .deliver i => inferInstanceAs (Decidable (∀ m ∈ c.net[i]?, CountsOnceOn c m))
  | .start .. | .loop .. | .startRequestVote .. | .runAppendEntries .. | .drop .. |
    .restart .. => isTrue trivial

/-- The servers that granted `s` their vote in `T`. -/
def voters (c : Cluster n Command Bytes) (s : Fin n) (T : Int) : Finset (Fin n) :=
  Finset.univ.filter fun v => ⟨v, (s : Nat), T⟩ ∈ c.granted

/-- The grants `s` counted in `T`. -/
def tally (c : Cluster n Command Bytes) (s : Fin n) (T : Int) : List (Counted n) :=
  c.counted.filter fun k => k.candidate = s ∧ k.term = T

/-- **THE INVARIANT**: every reply and every count goes back to a grant, and a
    candidate's counter is itself plus its tally. -/
structure Tally (c : Cluster n Command Bytes) : Prop where
  self : ∀ s, (c.servers s).state ≠ .follower →
    ⟨s, (s : Nat), (c.servers s).currentTerm⟩ ∈ c.granted
  requests : ∀ caller dst inc round args,
    Msg.requestVote caller dst inc round args ∈ c.net →
    args.candidateID = (caller : Nat) ∧ caller ≠ dst
  replies : ∀ caller voter inc round args reply,
    Msg.requestVoteReply caller voter inc round args reply ∈ c.net →
    reply.voteGranted = true →
    ⟨voter, (caller : Nat), args.term⟩ ∈ c.granted ∧ voter ≠ caller
  counted : ∀ k ∈ c.counted, ⟨k.voter, (k.candidate : Nat), k.term⟩ ∈ c.granted ∧
    k.voter ≠ k.candidate ∧ k.term ≤ (c.servers k.candidate).currentTerm
  nodup : c.counted.Nodup
  total : ∀ s, (c.servers s).state = .candidate →
    (c.servers s).voteGranted = 1 + (tally c s (c.servers s).currentTerm).length

variable {c c' : Cluster n Command Bytes} {s : Fin n} {rf : Raft n Command Bytes}

/-- The invariant survives a change of one server that counts nothing. -/
theorem Tally.update (h : Tally c)
    (hservers : c'.servers = Function.update c.servers s rf)
    (hgranted : ∀ g ∈ c.granted, g ∈ c'.granted) (hcounted : c'.counted = c.counted)
    (hterm : (c.servers s).currentTerm ≤ rf.currentTerm)
    (hself : rf.state ≠ .follower → ⟨s, (s : Nat), rf.currentTerm⟩ ∈ c'.granted)
    (htotal : rf.state = .candidate →
      rf.voteGranted = 1 + (tally c s rf.currentTerm).length)
    (hreq : ∀ caller dst inc round args,
      Msg.requestVote caller dst inc round args ∈ c'.net →
      Msg.requestVote caller dst inc round args ∈ c.net ∨
        (args.candidateID = (caller : Nat) ∧ caller ≠ dst))
    (hrep : ∀ caller voter inc round args reply,
      Msg.requestVoteReply caller voter inc round args reply ∈ c'.net →
      Msg.requestVoteReply caller voter inc round args reply ∈ c.net ∨
        (reply.voteGranted = true →
          ⟨voter, (caller : Nat), args.term⟩ ∈ c'.granted ∧ voter ≠ caller)) :
    Tally c' := by
  have htally : ∀ v T, tally c' v T = tally c v T := by
    intro v T
    rw [tally, tally, hcounted]
  refine ⟨?_, ?_, ?_, ?_, by rw [hcounted]; exact h.nodup, ?_⟩
  · rw [hservers, Function.forall_update_iff c.servers
      (p := fun v rf => rf.state ≠ .follower → ⟨v, (v : Nat), rf.currentTerm⟩ ∈ c'.granted)]
    exact ⟨hself, fun v _ hv => hgranted _ (h.self v hv)⟩
  · intro caller dst inc round args hm
    rcases hreq caller dst inc round args hm with hold | hnew
    · exact h.requests caller dst inc round args hold
    · exact hnew
  · intro caller voter inc round args reply hm hgr
    rcases hrep caller voter inc round args reply hm with hold | hnew
    · obtain ⟨hg, hne⟩ := h.replies caller voter inc round args reply hold hgr
      exact ⟨hgranted _ hg, hne⟩
    · exact hnew hgr
  · intro k hk
    rw [hcounted] at hk
    obtain ⟨hg, hne, hle⟩ := h.counted k hk
    refine ⟨hgranted _ hg, hne, ?_⟩
    rw [hservers]
    by_cases hks : k.candidate = s
    · rw [hks, Function.update_self]
      rw [hks] at hle
      exact le_trans hle hterm
    · rw [Function.update_of_ne hks]
      exact hle
  · simp only [htally]
    rw [hservers, Function.forall_update_iff c.servers (p := fun v rf =>
      rf.state = .candidate → rf.voteGranted = 1 + ((tally c v rf.currentTerm).length : Int))]
    exact ⟨htotal, fun v _ => h.total v⟩

/-- A server that falls back to follower, or keeps its term, role and counter. -/
theorem Tally.calm (h : Tally c)
    (hservers : c'.servers = Function.update c.servers s rf)
    (hgranted : ∀ g ∈ c.granted, g ∈ c'.granted) (hcounted : c'.counted = c.counted)
    (hterm : (c.servers s).currentTerm ≤ rf.currentTerm)
    (hrole : rf.state = .follower ∨
      (rf.currentTerm = (c.servers s).currentTerm ∧ rf.state = (c.servers s).state))
    (hvotes : rf.state ≠ .follower → rf.voteGranted = (c.servers s).voteGranted)
    (hreq : ∀ caller dst inc round args,
      Msg.requestVote caller dst inc round args ∈ c'.net →
      Msg.requestVote caller dst inc round args ∈ c.net ∨
        (args.candidateID = (caller : Nat) ∧ caller ≠ dst))
    (hrep : ∀ caller voter inc round args reply,
      Msg.requestVoteReply caller voter inc round args reply ∈ c'.net →
      Msg.requestVoteReply caller voter inc round args reply ∈ c.net ∨
        (reply.voteGranted = true →
          ⟨voter, (caller : Nat), args.term⟩ ∈ c'.granted ∧ voter ≠ caller)) :
    Tally c' := by
  refine h.update hservers hgranted hcounted hterm ?_ ?_ hreq hrep
  · intro hst
    rcases hrole with hf | ⟨heq, hsame⟩
    · exact absurd hf hst
    · rw [heq]
      exact hgranted _ (h.self s (hsame ▸ hst))
  · intro hst
    have hne : rf.state ≠ .follower := by
      rw [hst]
      exact fun heq => nomatch heq
    rcases hrole with hf | ⟨heq, hsame⟩
    · exact absurd hf hne
    · rw [hvotes hne, heq]
      exact h.total s (hsame ▸ hst)

/-- A candidate counts a grant it has not counted yet: the tally grows by one
    and stays backed by the grants. -/
theorem Tally.counts (h : Tally c) {voter : Fin n} {inc round i : Nat}
    {args : RequestVoteArgs} {reply : RequestVoteReply}
    (hmsg : c.net[i]? = some (.requestVoteReply s voter inc round args reply))
    (hterm : (c.servers s).currentTerm = args.term)
    (hcand : (c.servers s).state = .candidate) (hgr : reply.voteGranted = true)
    (honce : ⟨s, args.term, voter⟩ ∉ c.counted)
    (hservers : c'.servers = Function.update c.servers s rf)
    (hgranted : c'.granted = c.granted)
    (hcounted : c'.counted = ⟨s, args.term, voter⟩ :: c.counted)
    (hnet : ∀ m ∈ c'.net, m ∈ c.net) (hrf : rf.currentTerm = (c.servers s).currentTerm)
    (hvotes : rf.voteGranted = (c.servers s).voteGranted + 1) : Tally c' := by
  have hne : (c.servers s).state ≠ .follower := by
    rw [hcand]
    exact fun heq => nomatch heq
  obtain ⟨hbacked, hvs⟩ :=
    h.replies s voter inc round args reply (List.mem_of_getElem? hmsg) hgr
  have htally : ∀ v T, v ≠ s → tally c' v T = tally c v T := by
    intro v T hv
    rw [tally, tally, hcounted, List.filter_cons_of_neg]
    simp only [decide_eq_true_eq, not_and]
    exact fun heq => absurd heq.symm hv
  have hown : tally c' s args.term = ⟨s, args.term, voter⟩ :: tally c s args.term := by
    rw [tally, tally, hcounted, List.filter_cons_of_pos]
    simp
  refine ⟨?_, ?_, ?_, ?_, ?_, ?_⟩
  · rw [hservers, hgranted, Function.forall_update_iff c.servers
      (p := fun v rf => rf.state ≠ .follower → ⟨v, (v : Nat), rf.currentTerm⟩ ∈ c.granted)]
    exact ⟨fun _ => hrf ▸ h.self s hne, fun v _ => h.self v⟩
  · intro caller dst inc round args hm
    exact h.requests caller dst inc round args (hnet _ hm)
  · intro caller voter inc round args reply hm hgr
    rw [hgranted]
    exact h.replies caller voter inc round args reply (hnet _ hm) hgr
  · have hterms : ∀ v, (c.servers v).currentTerm = (c'.servers v).currentTerm := by
      rw [hservers, Function.forall_update_iff c.servers
        (p := fun v rf => (c.servers v).currentTerm = rf.currentTerm)]
      exact ⟨hrf.symm, fun _ _ => rfl⟩
    intro k hk
    rw [hgranted, ← hterms]
    rw [hcounted] at hk
    rcases List.mem_cons.mp hk with rfl | hk
    · exact ⟨hbacked, hvs, le_of_eq hterm.symm⟩
    · exact h.counted k hk
  · rw [hcounted]
    exact List.nodup_cons.mpr ⟨honce, h.nodup⟩
  · intro v hv
    by_cases hvs : v = s
    · subst hvs
      rw [hservers, Function.update_self, hrf, hvotes, hterm, hown, h.total v hcand, hterm,
        List.length_cons]
      omega
    · rw [htally v _ hvs]
      rw [hservers, Function.update_of_ne hvs] at hv ⊢
      exact h.total v hv

/-- **STEP**: every transition that counts no grant twice keeps the invariant. -/
theorem tally_step {e : Event n Command} (h : Tally c) (hok : CountsOnce c e)
    (ht : Transition gob c e c') : Tally c' := by
  cases ht with
  | idle _ net' hnet =>
      exact ⟨h.self, fun _ _ _ _ _ hm => h.requests _ _ _ _ _ (hnet _ hm),
        fun _ _ _ _ _ _ hm => h.replies _ _ _ _ _ _ (hnet _ hm), h.counted, h.nodup, h.total⟩
  | quiet _ s rf' net' hstill hnet =>
      exact h.calm rfl (fun _ hg => hg) rfl (le_of_eq hstill.currentTerm.symm)
        (.inr ⟨hstill.currentTerm, hstill.state⟩) (fun _ => hstill.voteGranted)
        (fun _ _ _ _ _ hm => .inl (hnet _ hm)) fun _ _ _ _ _ _ hm => .inl (hnet _ hm)
  | append s command hlead =>
      exact h.calm rfl (fun _ hg => hg) rfl (le_refl _) (.inr ⟨rfl, rfl⟩) (fun _ => rfl)
        (fun _ _ _ _ _ hm => .inl hm) fun _ _ _ _ _ _ hm => .inl hm
  | forget s e hb hwhy =>
      exact h.calm rfl (fun _ hg => hg) rfl (le_refl _) (.inl rfl) (fun hst => absurd rfl hst)
        (fun _ _ _ _ _ hm => .inl hm) fun _ _ _ _ _ _ hm => .inl hm
  | stand s e =>
      refine h.update rfl (fun _ hg => List.mem_cons_of_mem _ hg) rfl ?_
        (fun _ => List.mem_cons_self ..) ?_ (fun _ _ _ _ _ hm => .inl hm)
        fun _ _ _ _ _ _ hm => .inl hm
      · show (c.servers s).currentTerm ≤ (c.servers s).currentTerm + 1
        omega
      · -- nothing was counted in a term that was not reached
        intro _
        have hnone : tally c s ((c.servers s).currentTerm + 1) = [] := by
          refine List.filter_eq_nil_iff.mpr fun k hk => ?_
          simp only [decide_eq_true_eq]
          rintro ⟨hks, hkT⟩
          have hle := (h.counted k hk).2.2
          rw [hks, hkT] at hle
          omega
        show (1 : Int) = 1 + (tally c s ((c.servers s).currentTerm + 1)).length
        rw [hnone]
        rfl
  | ask s round rf' hcand hstill =>
      refine h.calm rfl (fun _ hg => hg) rfl (le_of_eq hstill.currentTerm.symm)
        (.inr ⟨hstill.currentTerm, hstill.state⟩) (fun _ => hstill.voteGranted) ?_ ?_
      · intro caller dst inc round' args hm
        rcases List.mem_append.mp hm with hm | hm
        · exact .inl hm
        · right
          obtain ⟨j, hj, heq⟩ := List.mem_map.mp hm
          obtain ⟨rfl, rfl, -, -, rfl⟩ := Msg.requestVote.inj heq
          have hne : j ≠ s := by simpa using (List.mem_filter.mp hj).2
          exact ⟨rfl, hne.symm⟩
      · intro caller voter inc round' args reply hm
        rcases List.mem_append.mp hm with hm | hm
        · exact .inl hm
        · obtain ⟨j, -, heq⟩ := List.mem_map.mp hm
          exact nomatch heq
  | send s j rf' args hlead hne hargs hstill =>
      refine h.calm rfl (fun _ hg => hg) rfl (le_of_eq hstill.currentTerm.symm)
        (.inr ⟨hstill.currentTerm, hstill.state⟩) (fun _ => hstill.voteGranted) ?_ ?_
      · intro caller dst inc round args' hm
        exact .inl (mem_of_mem_sent hm nofun)
      · intro caller voter inc round args' reply hm
        exact .inl (mem_of_mem_sent hm nofun)
  | vote i caller dst inc round args rf' reply hmsg hout =>
      obtain ⟨hid, hne⟩ := h.requests caller dst inc round args (List.mem_of_getElem? hmsg)
      refine h.calm rfl ?_ rfl ?_ (role_of_adopt hout.currentTerm hout.state) hout.voteGranted
        ?_ ?_
      · intro g hg
        show g ∈ if reply.voteGranted then _ else _
        split
        · exact List.mem_cons_of_mem _ hg
        · exact hg
      · rw [hout.currentTerm]
        exact le_max_left ..
      · intro caller' dst' inc' round' args' hm
        exact .inl (mem_of_mem_rest (mem_of_mem_sent hm nofun))
      · intro caller' voter' inc' round' args' reply' hm
        rcases List.mem_append.mp hm with hm | hm
        · exact .inl (mem_of_mem_rest hm)
        · right
          intro hgr
          obtain ⟨rfl, rfl, -, -, rfl, rfl⟩ :=
            Msg.requestVoteReply.inj (List.mem_singleton.mp hm)
          -- a granted reply is of the request's term
          have hterm : reply'.term = args'.term := by
            have := (hout.grant hgr).1
            rw [hout.replyTerm, hout.currentTerm]
            omega
          refine ⟨?_, hne.symm⟩
          show _ ∈ if reply'.voteGranted then _ else _
          rw [if_pos hgr, hid, hterm]
          exact List.mem_cons_self ..
  | stepDown i s term hterm =>
      exact h.calm rfl (fun _ hg => hg) rfl (le_of_lt hterm) (.inl rfl)
        (fun hst => absurd rfl hst) (fun _ _ _ _ _ hm => .inl (mem_of_mem_rest hm))
        fun _ _ _ _ _ _ hm => .inl (mem_of_mem_rest hm)
  | count i s voter inc round args reply hmsg hreply hterm hcand hgr =>
      exact h.counts hmsg hterm hcand hgr (hok _ hmsg hcand hterm hgr) rfl rfl rfl
        (fun _ hm => mem_of_mem_rest hm) rfl rfl
  | win i s voter inc round args reply ch rounds hmsg hreply hterm hcand hgr hmaj =>
      exact h.counts hmsg hterm hcand hgr (hok _ hmsg hcand hterm hgr) rfl rfl rfl
        (fun _ hm => mem_of_mem_rest hm) rfl rfl
  | accept i caller dst inc args rf' reply msgs hmsg hout =>
      refine h.calm rfl (fun _ hg => hg) rfl ?_ (role_of_adopt hout.currentTerm hout.state)
        hout.voteGranted ?_ ?_
      · rw [hout.currentTerm]
        exact le_max_left ..
      · intro caller' dst' inc' round' args' hm
        exact .inl (mem_of_mem_rest (mem_of_mem_sent hm nofun))
      · intro caller' voter' inc' round' args' reply' hm
        exact .inl (mem_of_mem_rest (mem_of_mem_sent hm nofun))
  | matched i s j inc args reply next commit last msgs hmsg hreply hterm hlead hsuc hcommit
      hmsgs =>
      exact h.calm rfl (fun _ hg => hg) rfl (le_refl _) (.inr ⟨rfl, rfl⟩) (fun _ => rfl)
        (fun _ _ _ _ _ hm => .inl (mem_of_mem_rest hm))
        fun _ _ _ _ _ _ hm => .inl (mem_of_mem_rest hm)
  | restart s rf' hme hterm hvote hlog hstate hcommit =>
      exact h.calm rfl (fun _ hg => hg) rfl (le_of_eq hterm.symm) (.inl hstate)
        (fun hst => absurd hstate hst) (fun _ _ _ _ _ hm => .inl hm)
        fun _ _ _ _ _ _ hm => .inl hm

theorem tally_initial (gob : Gob Command Bytes) :
    Tally (initial gob : Cluster n Command Bytes) := by
  refine ⟨?_, ?_, ?_, ?_, List.nodup_nil, ?_⟩
  · intro s hs
    exact absurd rfl hs
  · intro _ _ _ _ _ hm
    exact nomatch hm
  · intro _ _ _ _ _ _ hm
    exact nomatch hm
  · intro k hk
    exact nomatch hk
  · intro s hs
    exact nomatch hs

/-- The invariant holds in every state of a run that counts no grant twice. -/
theorem run_tally {cs : List (Cluster n Command Bytes)} (h : ClusterRun gob CountsOnce cs) :
    ∀ c ∈ cs, Tally c :=
  Run.invariant (I := Tally) (tally_initial gob)
    (fun _ _ _ hI hok hs => tally_step hI hok.1 (transition_of_step hok.2 hs))
    (run_of_transitions h)

/-! ## Majorities -/

/-- The voters of the counted grants of one candidacy are distinct. -/
theorem nodup_tally_voters (h : Tally c) (s : Fin n) (T : Int) :
    ((tally c s T).map Counted.voter).Nodup := by
  refine List.Nodup.map_on ?_ (h.nodup.filter _)
  intro k hk k' hk' hvoter
  have h1 := (List.mem_filter.mp hk).2
  have h2 := (List.mem_filter.mp hk').2
  simp only [decide_eq_true_eq] at h1 h2
  obtain ⟨candidate, term, voter⟩ := k
  obtain ⟨candidate', term', voter'⟩ := k'
  obtain ⟨rfl, rfl⟩ := h1
  obtain ⟨rfl, rfl⟩ := h2
  rw [show voter = voter' from hvoter]

/-- A candidate about to count one more grant has that many distinct voters. -/
theorem voteGranted_lt_card_voters (h : Tally c) {voter : Fin n} {T : Int}
    (hcand : (c.servers s).state = .candidate) (hT : (c.servers s).currentTerm = T)
    (hgrant : ⟨voter, (s : Nat), T⟩ ∈ c.granted) (hne : voter ≠ s)
    (honce : ⟨s, T, voter⟩ ∉ c.counted) :
    (c.servers s).voteGranted + 1 ≤ (voters c s T).card := by
  have htally : ∀ v, v ∈ (tally c s T).map Counted.voter → ⟨s, T, v⟩ ∈ c.counted := by
    intro v hv
    obtain ⟨k, hk, rfl⟩ := List.mem_map.mp hv
    obtain ⟨hmem, hcand⟩ := List.mem_filter.mp hk
    simp only [decide_eq_true_eq] at hcand
    obtain ⟨rfl, rfl⟩ := hcand
    exact hmem
  have hself : ⟨s, (s : Nat), T⟩ ∈ c.granted := by
    rw [← hT]
    exact h.self s (by rw [hcand]; exact fun heq => nomatch heq)
  -- the candidate itself, the new voter, and those counted before
  have hnodup : (s :: voter :: (tally c s T).map Counted.voter).Nodup := by
    refine List.nodup_cons.mpr ⟨?_, List.nodup_cons.mpr ⟨fun hv => honce (htally voter hv),
      nodup_tally_voters h s T⟩⟩
    intro hs
    rcases List.mem_cons.mp hs with heq | hs
    · exact hne heq.symm
    · exact (h.counted _ (htally s hs)).2.1 rfl
  have hsub : (s :: voter :: (tally c s T).map Counted.voter).toFinset ⊆ voters c s T := by
    intro v hv
    refine Finset.mem_filter.mpr ⟨Finset.mem_univ v, ?_⟩
    rcases List.mem_cons.mp (List.mem_toFinset.mp hv) with rfl | hv
    · exact hself
    · rcases List.mem_cons.mp hv with rfl | hv
      · exact hgrant
      · exact (h.counted _ (htally v hv)).1
  have hcard := Finset.card_le_card hsub
  rw [List.toFinset_card_of_nodup hnodup, List.length_cons, List.length_cons,
    List.length_map] at hcard
  have htotal := h.total s hcand
  rw [hT] at htotal
  omega

/-- **LEADER LEGITIMACY**: in every run that counts no grant twice, when server
    `s` becomes leader a strict majority of distinct servers, `s` among them,
    have granted it their vote in its term. -/
theorem leader_legitimacy (gob : Gob Command Bytes) (c c' : Cluster n Command Bytes)
    (cs : List (Cluster n Command Bytes)) (h : ClusterRun gob CountsOnce (c' :: c :: cs))
    (s : Fin n) (hbefore : (c.servers s).state ≠ .leader)
    (hafter : (c'.servers s).state = .leader) :
    s ∈ voters c s (c'.servers s).currentTerm ∧
      n < 2 * (voters c s (c'.servers s).currentTerm).card := by
  have hrun := run_of_transitions h
  cases hrun with
  | next e hprev hok hs =>
      have hI : Tally c := run_tally (hprev.weaken fun _ _ h => h.1) c (List.mem_cons_self ..)
      obtain ⟨hterm, hhow⟩ := leader_of_transition (transition_of_step hok.2 hs) s hafter
      rcases hhow with hlead | ⟨i, voter, inc, round, args, reply, rfl, hmsg, hT, hcand, hgr, hmaj⟩
      · exact absurd hlead hbefore
      · obtain ⟨hgrant, hne⟩ :=
          hI.replies s voter inc round args reply (List.mem_of_getElem? hmsg) hgr
        have honce : ⟨s, args.term, voter⟩ ∉ c.counted := hok.1 _ hmsg hcand hT hgr
        have hself := hI.self s (by rw [hcand]; exact fun heq => nomatch heq)
        have hcard := voteGranted_lt_card_voters hI hcand hT hgrant hne honce
        rw [hterm]
        refine ⟨Finset.mem_filter.mpr ⟨Finset.mem_univ s, hself⟩, ?_⟩
        rw [hT]
        omega

theorem leader_legitimacy_of_first_election :
    ∃ (c c' : SmallCluster 3) (cs : List (SmallCluster 3)),
      ClusterRun (plainGob Nat) CountsOnce (c' :: c :: cs) ∧
      (c.servers 0).state = .candidate ∧ (c'.servers 0).state = .leader ∧
      3 < 2 * (voters c 0 (c'.servers 0).currentTerm).card := by
  obtain ⟨c, c', cs, hrun, hcand, hlead⟩ : ∃ (c c' : SmallCluster 3)
      (cs : List (SmallCluster 3)), ClusterRun (plainGob Nat) CountsOnce (c' :: c :: cs) ∧
      (c.servers 0).state = .candidate ∧ (c'.servers 0).state = .leader :=
    run_steps (electAndReplicate.take 6) (by decide +kernel)
  have hbefore : (c.servers 0).state ≠ .leader := by
    rw [hcand]
    exact fun heq => nomatch heq
  exact ⟨c, c', cs, hrun, hcand, hlead,
    (leader_legitimacy (plainGob Nat) c c' cs hrun 0 hbefore hlead).2⟩

/-- Five servers: server `0` times out twice before its first
    `startRequestVote` goroutine runs, so that two rounds ask in term `2`;
    server `1` answers both and both answers are counted. -/
def askTwice : List (Event 5 Nat) :=
  [.loop 0 .top, .loop 0 .followerTimer, .loop 0 .top, .loop 0 .candidateTimer, .loop 0 .top,
    .startRequestVote 0, .startRequestVote 0, .deliver 0, .deliver 3, .deliver 6, .deliver 6]

/-- **A LEADER OF TWO**: counting twice, a server becomes leader of five with
    its own vote and one other. -/
theorem leader_elected_by_minority :
    ∃ (c c' : SmallCluster 5) (cs : List (SmallCluster 5)),
      ClusterRun (plainGob Nat) Always (c' :: c :: cs) ∧
      (c.servers 0).state = .candidate ∧ (c'.servers 0).state = .leader ∧
      (c'.servers 0).currentTerm = 2 ∧ voters c 0 2 = {0, 1} :=
  run_steps askTwice (by decide +kernel)

end RaftTally
