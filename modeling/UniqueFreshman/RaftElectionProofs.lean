import UniqueFreshman.RaftTallyProofs
import UniqueFreshman.TermLogSafetyProofs

/-! # Election safety — at most one leader per term

    `votedFor` is the only thing that keeps a server from voting twice in a
    term, and the code forgets it in two places: `RequestVote` resets it on
    every refusal, even of a request of an earlier term, and the `heartBeat`
    loop resets it when a candidacy ends without a change of term.  `KeepsVotes`
    says that a step does not forget a vote that was granted in the present
    term (a candidate may forget its own: it cannot win that term any more).
    Under it, and with no grant counted twice, two leaders of one term would
    share a voter, which is impossible. -/

namespace RaftElection

open GuardedRun RaftServer RaftHandler RaftCluster RaftTally
open TermLogSafety

variable {n : Nat} {Command Bytes : Type} {gob : Gob Command Bytes}

/-! ## The condition -/

/-- The vote server `s` has recorded was granted in its present term. -/
def Pledged (c : Cluster n Command Bytes) (s : Fin n) : Prop :=
  ⟨s, (c.servers s).votedFor, (c.servers s).currentTerm⟩ ∈ c.granted

/-- A request that reaches a pledged server in or after its term is one of the
    candidate it is pledged to, with an up-to-date log. -/
def KeepsVotesOn (c : Cluster n Command Bytes) : Msg n Command → Prop
  | .requestVote _ dst _ _ args =>
      args.term ≤ (c.servers dst).currentTerm → Pledged c dst →
        newer (c.servers dst).log args = true ∧ (c.servers dst).votedFor = args.candidateID
  | _ => True

/-- The step makes no server forget a vote it granted in its present term,
    except a candidate its own. -/
def KeepsVotes (c : Cluster n Command Bytes) : Event n Command → Prop
  | .deliver i => ∀ m ∈ c.net[i]?, KeepsVotesOn c m
  | .loop s .candidateHeartBeat => Pledged c s → (c.servers s).state = .candidate
  | .loop s .candidateTimer => (c.servers s).state ≠ .follower →
      ¬ (c.servers s).voteNotGranted * 2 < (n : Int) →
      Pledged c s → (c.servers s).state = .candidate
  | _ => True

instance (c : Cluster n Command Bytes) (s : Fin n) : Decidable (Pledged c s) :=
  inferInstanceAs (Decidable (_ ∈ c.granted))

instance (c : Cluster n Command Bytes) : ∀ m, Decidable (KeepsVotesOn c m)
  | .requestVote _ dst _ _ args =>
      inferInstanceAs (Decidable (args.term ≤ (c.servers dst).currentTerm → Pledged c dst →
        newer (c.servers dst).log args = true ∧
          (c.servers dst).votedFor = args.candidateID))
  | .requestVoteReply .. | .appendEntries .. | .appendEntriesReply .. => isTrue trivial

instance (c : Cluster n Command Bytes) : ∀ e, Decidable (KeepsVotes c e)
  | .deliver i => inferInstanceAs (Decidable (∀ m ∈ c.net[i]?, KeepsVotesOn c m))
  | .loop s .candidateHeartBeat =>
      inferInstanceAs (Decidable (Pledged c s → (c.servers s).state = .candidate))
  | .loop s .candidateTimer =>
      inferInstanceAs (Decidable ((c.servers s).state ≠ .follower →
        ¬ (c.servers s).voteNotGranted * 2 < (n : Int) →
        Pledged c s → (c.servers s).state = .candidate))
  | .loop _ .top | .loop _ .appendRound | .loop _ .candidateLeader
  | .loop _ .followerGrantVote | .loop _ .followerHeartBeat | .loop _ .followerTimer
  | .loop _ (.steal _) => isTrue trivial
  | .start .. | .startRequestVote .. | .runAppendEntries .. | .drop .. | .restart .. =>
      isTrue trivial

/-! ## One voter -/

/-- What the grants of server `v` have to do with its state; `led T` says that
    `v` was seen leading `T`. -/
structure Ballots (granted : List (Grant n)) (led : Int → Prop) (v : Fin n)
    (rf : Raft n Command Bytes) : Prop where
  past : ∀ x T : Int, ⟨v, x, T⟩ ∈ granted → T ≤ rf.currentTerm
  named : ∀ x T : Int, ⟨v, x, T⟩ ∈ granted → x ≠ -1
  /-- in the present term: recorded, or its own vote after giving up -/
  recorded : ∀ x : Int, ⟨v, x, rf.currentTerm⟩ ∈ granted →
    rf.votedFor = x ∨ (x = (v : Nat) ∧ rf.state = .follower)
  active : rf.state ≠ .follower →
    rf.votedFor = (v : Nat) ∧ ⟨v, (v : Nat), rf.currentTerm⟩ ∈ granted
  single : ∀ x y T : Int, ⟨v, x, T⟩ ∈ granted → ⟨v, y, T⟩ ∈ granted →
    x ≠ (v : Nat) → y ≠ (v : Nat) → x = y
  ledPast : ∀ T, led T → T ≤ rf.currentTerm
  ledRole : led rf.currentTerm → rf.state ≠ .candidate ∧ rf.votedFor = (v : Nat)
  /-- a leader's own vote went to itself only -/
  ledOnly : ∀ T, led T → ⟨v, (v : Nat), T⟩ ∈ granted ∧
    ∀ x : Int, ⟨v, x, T⟩ ∈ granted → x = (v : Nat)

section Ballots

variable {granted granted' : List (Grant n)} {led led' : Int → Prop} {v : Fin n}
  {rf rf' : Raft n Command Bytes}

/-- Only the grants of `v` itself matter. -/
theorem Ballots.congr (h : Ballots granted led v rf)
    (hgr : ∀ x T, ⟨v, x, T⟩ ∈ granted' ↔ ⟨v, x, T⟩ ∈ granted)
    (hled : ∀ T, led' T → led T) : Ballots granted' led' v rf := by
  refine ⟨?_, ?_, ?_, ?_, ?_, ?_, ?_, ?_⟩
  · intro x T hx
    exact h.past x T ((hgr x T).mp hx)
  · intro x T hx
    exact h.named x T ((hgr x T).mp hx)
  · intro x hx
    exact h.recorded x ((hgr _ _).mp hx)
  · intro hst
    exact ⟨(h.active hst).1, (hgr _ _).mpr (h.active hst).2⟩
  · intro x y T hx hy
    exact h.single x y T ((hgr x T).mp hx) ((hgr y T).mp hy)
  · intro T hT
    exact h.ledPast T (hled T hT)
  · intro hT
    exact h.ledRole (hled _ hT)
  · intro T hT
    obtain ⟨hself, honly⟩ := h.ledOnly T (hled T hT)
    exact ⟨(hgr _ _).mpr hself, fun x hx => honly x ((hgr x T).mp hx)⟩

/-- The vote and the term stay; the role stays or falls back to follower. -/
theorem Ballots.keep (h : Ballots granted led v rf)
    (hterm : rf'.currentTerm = rf.currentTerm) (hvote : rf'.votedFor = rf.votedFor)
    (hrole : rf'.state = .follower ∨ rf'.state = rf.state) : Ballots granted led v rf' := by
  refine ⟨?_, h.named, ?_, ?_, h.single, ?_, ?_, h.ledOnly⟩
  · rw [hterm]
    exact h.past
  · intro x hx
    rw [hterm] at hx
    rw [hvote]
    rcases h.recorded x hx with heq | ⟨hself, hf⟩
    · exact .inl heq
    · refine .inr ⟨hself, ?_⟩
      rcases hrole with hf' | hsame
      · exact hf'
      · exact hsame.trans hf
  · intro hst
    rw [hterm, hvote]
    rcases hrole with hf | hsame
    · exact absurd hf hst
    · exact h.active (hsame ▸ hst)
  · rw [hterm]
    exact h.ledPast
  · rw [hterm, hvote]
    intro hT
    obtain ⟨hcand, hself⟩ := h.ledRole hT
    refine ⟨?_, hself⟩
    rcases hrole with hf | hsame
    · rw [hf]
      exact fun heq => nomatch heq
    · rw [hsame]
      exact hcand

/-- Nothing was granted in a later term, so a server enters it without pledge. -/
theorem Ballots.later (h : Ballots granted led v rf)
    (hterm : rf.currentTerm < rf'.currentTerm) (hstate : rf'.state = .follower) :
    Ballots granted led v rf' := by
  refine ⟨?_, h.named, ?_, fun hst => absurd hstate hst, h.single, ?_, ?_, h.ledOnly⟩
  · intro x T hx
    exact le_trans (h.past x T hx) (le_of_lt hterm)
  · intro x hx
    have := h.past x _ hx
    omega
  · intro T hT
    exact le_trans (h.ledPast T hT) (le_of_lt hterm)
  · intro hT
    have := h.ledPast _ hT
    omega

/-- The first vote of a later term; only a candidate's goes to itself. -/
theorem Ballots.first (h : Ballots granted led v rf) {x : Int}
    (hterm : rf.currentTerm < rf'.currentTerm) (hvote : rf'.votedFor = x) (hx : x ≠ -1)
    (hstate : rf'.state ≠ .follower → x = (v : Nat)) :
    Ballots (⟨v, x, rf'.currentTerm⟩ :: granted) led v rf' := by
  have hnew : ∀ y T, ⟨v, y, T⟩ ∈ (⟨v, x, rf'.currentTerm⟩ :: granted : List (Grant n)) →
      (y = x ∧ T = rf'.currentTerm) ∨ ⟨v, y, T⟩ ∈ granted := by
    intro y T hy
    rcases List.mem_cons.mp hy with heq | hy
    · obtain ⟨-, rfl, rfl⟩ := Grant.mk.inj heq
      exact .inl ⟨rfl, rfl⟩
    · exact .inr hy
  -- every grant so far is of an earlier term
  have hold : ∀ y, ⟨v, y, rf'.currentTerm⟩ ∉ granted := by
    intro y hy
    have := h.past y _ hy
    omega
  refine ⟨?_, ?_, ?_, ?_, ?_, ?_, ?_, ?_⟩
  · intro y T hy
    rcases hnew y T hy with ⟨-, rfl⟩ | hy
    · exact le_refl _
    · exact le_trans (h.past y T hy) (le_of_lt hterm)
  · intro y T hy
    rcases hnew y T hy with ⟨rfl, -⟩ | hy
    · exact hx
    · exact h.named y T hy
  · intro y hy
    rcases hnew y _ hy with ⟨rfl, -⟩ | hy
    · exact .inl hvote
    · exact absurd hy (hold y)
  · intro hst
    rw [hvote, hstate hst]
    exact ⟨rfl, List.mem_cons_self ..⟩
  · intro y z T hy hz hyv hzv
    rcases hnew y T hy with ⟨rfl, rfl⟩ | hy
    · rcases hnew z _ hz with ⟨rfl, -⟩ | hz
      · rfl
      · exact absurd hz (hold z)
    · rcases hnew z T hz with ⟨-, rfl⟩ | hz
      · exact absurd hy (hold y)
      · exact h.single y z T hy hz hyv hzv
  · intro T hT
    exact le_trans (h.ledPast T hT) (le_of_lt hterm)
  · intro hT
    have := h.ledPast _ hT
    omega
  · intro T hT
    obtain ⟨hself, honly⟩ := h.ledOnly T hT
    refine ⟨List.mem_cons_of_mem _ hself, fun y hy => ?_⟩
    rcases hnew y T hy with ⟨-, rfl⟩ | hy
    · have := h.ledPast _ hT
      omega
    · exact honly y hy

/-- A server whose recorded vote was not granted in this term has granted none
    but, having given up, its own; so it may vote. -/
theorem Ballots.revote (h : Ballots granted led v rf) {x : Int}
    (hfree : ⟨v, rf.votedFor, rf.currentTerm⟩ ∉ granted)
    (hterm : rf'.currentTerm = rf.currentTerm) (hstate : rf'.state = rf.state)
    (hold : ∀ g ∈ granted, g ∈ granted')
    (hnew : ∀ y T, ⟨v, y, T⟩ ∈ granted' → ⟨v, y, T⟩ ∈ granted ∨
      (y = x ∧ T = rf.currentTerm ∧ x ≠ -1 ∧ x ≠ (v : Nat) ∧ rf'.votedFor = x)) :
    Ballots granted' led v rf' := by
  -- a grant of this term that is not recorded is its own, given up
  have hnone : ∀ y : Int, ⟨v, y, rf.currentTerm⟩ ∈ granted →
      y = (v : Nat) ∧ rf.state = .follower := by
    intro y hy
    rcases h.recorded y hy with heq | hself
    · rw [heq] at hfree
      exact absurd hy hfree
    · exact hself
  have hfollower : rf.state = .follower := by
    by_contra hst
    obtain ⟨hvote, hself⟩ := h.active hst
    rw [hvote] at hfree
    exact hfree hself
  -- a leader of this term would still be pledged to itself
  have hunled : ¬ led rf.currentTerm := by
    intro hT
    have hvote := (h.ledRole hT).2
    rw [hvote] at hfree
    exact hfree (h.ledOnly _ hT).1
  refine ⟨?_, ?_, ?_, ?_, ?_, ?_, ?_, ?_⟩
  · intro y T hy
    rw [hterm]
    rcases hnew y T hy with hy | ⟨-, rfl, -⟩
    · exact h.past y T hy
    · exact le_refl _
  · intro y T hy
    rcases hnew y T hy with hy | ⟨rfl, -, hx, -⟩
    · exact h.named y T hy
    · exact hx
  · intro y hy
    rw [hterm] at hy
    rcases hnew y _ hy with hy | ⟨rfl, -, -, -, hvote⟩
    · obtain ⟨hself, hf⟩ := hnone y hy
      exact .inr ⟨hself, hstate.trans hf⟩
    · exact .inl hvote
  · intro hst
    exact absurd (hstate.trans hfollower) hst
  · intro y z T hy hz hyv hzv
    rcases hnew y T hy with hy | ⟨rfl, rfl, -⟩
    · rcases hnew z T hz with hz | ⟨-, rfl, -⟩
      · exact h.single y z T hy hz hyv hzv
      · exact absurd (hnone y hy).1 hyv
    · rcases hnew z _ hz with hz | ⟨rfl, -⟩
      · exact absurd (hnone z hz).1 hzv
      · rfl
  · rw [hterm]
    exact h.ledPast
  · rw [hterm]
    exact fun hT => absurd hT hunled
  · intro T hT
    obtain ⟨hself, honly⟩ := h.ledOnly T hT
    refine ⟨hold _ hself, fun y hy => ?_⟩
    rcases hnew y T hy with hy | ⟨-, rfl, -⟩
    · exact honly y hy
    · exact absurd hT hunled

/-- The `heartBeat` loop forgets the vote of a server that is not pledged, or
    pledged to itself as a candidate. -/
theorem Ballots.forget (h : Ballots granted led v rf)
    (hok : ⟨v, rf.votedFor, rf.currentTerm⟩ ∈ granted → rf.state = .candidate)
    (hterm : rf'.currentTerm = rf.currentTerm) (hstate : rf'.state = .follower) :
    Ballots granted led v rf' := by
  refine ⟨?_, h.named, ?_, fun hst => absurd hstate hst, h.single, ?_, ?_, h.ledOnly⟩
  · rw [hterm]
    exact h.past
  · intro x hx
    rw [hterm] at hx
    refine .inr ⟨?_, hstate⟩
    rcases h.recorded x hx with heq | ⟨hself, -⟩
    · rw [heq] at hok
      have hne : rf.state ≠ .follower := by
        rw [hok hx]
        exact fun heq => nomatch heq
      exact heq.symm.trans (h.active hne).1
    · exact hself
  · rw [hterm]
    exact h.ledPast
  · rw [hterm]
    intro hT
    obtain ⟨hcand, hvote⟩ := h.ledRole hT
    rw [hvote] at hok
    exact absurd (hok (h.ledOnly _ hT).1) hcand

/-- A candidate wins its term. -/
theorem Ballots.win (h : Ballots granted led v rf) (hcand : rf.state = .candidate)
    (hterm : rf'.currentTerm = rf.currentTerm) (hvote : rf'.votedFor = rf.votedFor)
    (hstate : rf'.state = .leader) (hled : ∀ T, led' T → led T ∨ T = rf.currentTerm) :
    Ballots granted led' v rf' := by
  have hne : rf.state ≠ .follower := by
    rw [hcand]
    exact fun heq => nomatch heq
  obtain ⟨hown, hself⟩ := h.active hne
  have hrecorded : ∀ x : Int, ⟨v, x, rf.currentTerm⟩ ∈ granted → x = (v : Nat) := by
    intro x hx
    rcases h.recorded x hx with heq | ⟨heq, -⟩
    · exact heq.symm.trans hown
    · exact heq
  refine ⟨?_, h.named, ?_, ?_, h.single, ?_, ?_, ?_⟩
  · rw [hterm]
    exact h.past
  · intro x hx
    rw [hterm] at hx
    exact .inl (by rw [hvote, hown, hrecorded x hx])
  · intro _
    rw [hterm, hvote]
    exact ⟨hown, hself⟩
  · rw [hterm]
    intro T hT
    rcases hled T hT with hT | rfl
    · exact h.ledPast T hT
    · exact le_refl _
  · intro _
    rw [hstate, hvote]
    exact ⟨(fun heq => nomatch heq), hown⟩
  · intro T hT
    rcases hled T hT with hT | rfl
    · exact h.ledOnly T hT
    · exact ⟨hself, hrecorded⟩

end Ballots

/-! ## The cluster -/

/-- **THE INVARIANT**; `led s T` says that `s` was seen leading `T`. -/
structure Election (led : Fin n → Int → Prop) (c : Cluster n Command Bytes) : Prop where
  tally : Tally c
  ballots : ∀ v, Ballots c.granted (led v) v (c.servers v)
  elected : ∀ s T, led s T → Majority (voters c s T)

variable {led led' : Fin n → Int → Prop} {c c' : Cluster n Command Bytes} {s : Fin n}
  {rf : Raft n Command Bytes}

/-- More grants, more voters. -/
theorem majority_voters_mono {T : Int} (hgr : ∀ g ∈ c.granted, g ∈ c'.granted)
    (h : Majority (voters c s T)) : Majority (voters c' s T) := by
  have hsub : voters c s T ⊆ voters c' s T := by
    intro v hv
    obtain ⟨hmem, hg⟩ := Finset.mem_filter.mp hv
    exact Finset.mem_filter.mpr ⟨hmem, hgr _ hg⟩
  have hcard := Finset.card_le_card hsub
  have hlt : Fintype.card (Fin n) < 2 * (voters c s T).card := h
  show Fintype.card (Fin n) < 2 * (voters c' s T).card
  omega

/-- One server moves, and only it grants. -/
theorem Election.update (h : Election led c) (htally : Tally c')
    (hservers : c'.servers = Function.update c.servers s rf)
    (hgr : ∀ g ∈ c.granted, g ∈ c'.granted)
    (hothers : ∀ v x T, v ≠ s → ⟨v, x, T⟩ ∈ c'.granted → ⟨v, x, T⟩ ∈ c.granted)
    (hled : ∀ v T, v ≠ s → led' v T → led v T)
    (hs : Ballots c'.granted (led' s) s rf)
    (helected : ∀ T, led' s T → led s T ∨ Majority (voters c s T)) : Election led' c' := by
  refine ⟨htally, ?_, ?_⟩
  · rw [hservers, Function.forall_update_iff c.servers
      (p := fun v rf => Ballots c'.granted (led' v) v rf)]
    refine ⟨hs, fun v hv => (h.ballots v).congr (fun x T => ?_) fun T => hled v T hv⟩
    exact ⟨hothers v x T hv, hgr _⟩
  · intro v T hT
    refine majority_voters_mono hgr ?_
    by_cases hv : v = s
    · subst hv
      rcases helected T hT with hold | hnew
      · exact h.elected v T hold
      · exact hnew
    · exact h.elected v T (hled v T hv hT)

/-- The same without new grants and new leaders. -/
theorem Election.calm (h : Election led c) (htally : Tally c')
    (hservers : c'.servers = Function.update c.servers s rf)
    (hgr : c'.granted = c.granted) (hled : ∀ v T, led' v T → led v T)
    (hs : Ballots c.granted (led s) s rf) : Election led' c' := by
  refine h.update htally hservers ?_ ?_ (fun v T _ => hled v T) ?_
    fun T hT => .inl (hled s T hT)
  · rw [hgr]
    exact fun g hg => hg
  · rw [hgr]
    exact fun v x T _ hx => hx
  · rw [hgr]
    exact hs.congr (fun _ _ => Iff.rfl) (hled s)

variable {cs : List (Cluster n Command Bytes)}

/-- Whoever leads after a step without a win was seen leading before. -/
theorem led_of_calm (hservers : c'.servers = Function.update c.servers s rf)
    (hrole : rf.state = .follower ∨ rf.state = .candidate ∨
      (rf.currentTerm = (c.servers s).currentTerm ∧ rf.state = (c.servers s).state)) :
    ∀ v T, Led (c' :: c :: cs) v T → Led (c :: cs) v T := by
  rintro v T ⟨d, hd, hlead, hT⟩
  rcases List.mem_cons.mp hd with rfl | hd
  · obtain ⟨hold, hterm⟩ := leader_of_calm hservers hrole v hlead
    exact ⟨c, List.mem_cons_self .., hold, hterm.symm.trans hT⟩
  · exact ⟨d, hd, hlead, hT⟩

/-- After a win the winner is the only new leader. -/
theorem led_of_win (hservers : c'.servers = Function.update c.servers s rf)
    (hterm : rf.currentTerm = (c.servers s).currentTerm) :
    ∀ v T, Led (c' :: c :: cs) v T →
      Led (c :: cs) v T ∨ (v = s ∧ T = (c.servers s).currentTerm) := by
  rintro v T ⟨d, hd, hlead, rfl⟩
  rcases List.mem_cons.mp hd with rfl | hd
  · rw [hservers] at hlead ⊢
    by_cases hv : v = s
    · subst hv
      rw [Function.update_self]
      exact .inr ⟨rfl, hterm⟩
    · rw [Function.update_of_ne hv] at hlead ⊢
      exact .inl ⟨c, List.mem_cons_self .., hlead, rfl⟩
  · exact .inl ⟨d, hd, hlead, rfl⟩

/-- A candidate with a majority of voters becomes leader. -/
theorem Election.win (h : Election (Led (c :: cs)) c) (htally : Tally c')
    (hcand : (c.servers s).state = .candidate)
    (hservers : c'.servers = Function.update c.servers s rf)
    (hgr : c'.granted = c.granted) (hterm : rf.currentTerm = (c.servers s).currentTerm)
    (hvote : rf.votedFor = (c.servers s).votedFor) (hstate : rf.state = .leader)
    (hmaj : Majority (voters c s (c.servers s).currentTerm)) :
    Election (Led (c' :: c :: cs)) c' := by
  have hled : ∀ v T, Led (c' :: c :: cs) v T →
      Led (c :: cs) v T ∨ (v = s ∧ T = (c.servers s).currentTerm) :=
    led_of_win hservers hterm
  refine h.update htally hservers ?_ ?_ ?_ ?_ ?_
  · rw [hgr]
    exact fun _ hg => hg
  · rw [hgr]
    exact fun _ _ _ _ hx => hx
  · intro v T hv hT
    rcases hled v T hT with hold | ⟨rfl, -⟩
    · exact hold
    · exact absurd rfl hv
  · rw [hgr]
    exact (h.ballots s).win hcand hterm hvote hstate
      fun T hT => (hled s T hT).imp_right And.right
  · intro T hT
    rcases hled s T hT with hold | ⟨-, rfl⟩
    · exact .inl hold
    · exact .inr hmaj

/-- `RequestVote` at one server: a later term, a pledge kept, or a free vote. -/
theorem ballots_vote {ledv : Int → Prop} {v : Fin n} {args : RequestVoteArgs}
    {reply : RequestVoteReply} {rf rf' : Raft n Command Bytes} {granted : List (Grant n)}
    (h : Ballots granted ledv v rf) (hout : VoteOutcome gob rf args rf' reply)
    (hid : args.candidateID ≠ -1 ∧ args.candidateID ≠ (v : Nat))
    (hok : args.term ≤ rf.currentTerm → ⟨v, rf.votedFor, rf.currentTerm⟩ ∈ granted →
      newer rf.log args = true ∧ rf.votedFor = args.candidateID) :
    Ballots (if reply.voteGranted then ⟨v, args.candidateID, reply.term⟩ :: granted
      else granted) ledv v rf' := by
  rcases lt_or_ge rf.currentTerm args.term with hlt | hge
  · -- a request of a later term
    have hterm : rf'.currentTerm = args.term := by
      rw [hout.currentTerm]
      omega
    have hstate : rf'.state = .follower := by
      rw [hout.state, if_pos hlt]
    by_cases hgr : reply.voteGranted = true
    · rw [if_pos hgr, hout.replyTerm]
      refine h.first (by omega) (hout.grant hgr).2.2.2 hid.1 fun hst => absurd hstate hst
    · rw [if_neg hgr]
      exact h.later (by omega) hstate
  · have hterm : rf'.currentTerm = rf.currentTerm := by
      rw [hout.currentTerm]
      omega
    have hstate : rf'.state = rf.state := by
      rw [hout.state, if_neg (by omega)]
    by_cases hpledged : ⟨v, rf.votedFor, rf.currentTerm⟩ ∈ granted
    · -- the candidate it is pledged to asks again
      obtain ⟨hnewer, hsame⟩ := hok hge hpledged
      have hvote : rf'.votedFor = rf.votedFor := by
        rw [hsame]
        exact hout.keep hnewer hsame
      refine (h.keep hterm hvote (.inr hstate)).congr (fun x T => ?_) fun _ hT => hT
      split
      · rw [List.mem_cons, ← hsame, hout.replyTerm, hterm]
        refine ⟨fun hx => ?_, .inr⟩
        rcases hx with heq | hx
        · rw [heq]
          exact hpledged
        · exact hx
      · exact Iff.rfl
    -- no pledge: what is recorded now is the first grant of the term
    · refine h.revote hpledged hterm hstate ?_ (x := args.candidateID) ?_
      · intro g hg
        split
        · exact List.mem_cons_of_mem _ hg
        · exact hg
      · intro y T hy
        split at hy
        · rename_i hgr
          rcases List.mem_cons.mp hy with heq | hy
          · obtain ⟨-, rfl, rfl⟩ := Grant.mk.inj heq
            exact .inr ⟨rfl, hout.replyTerm.trans hterm, hid.1, hid.2, (hout.grant hgr).2.2.2⟩
          · exact .inl hy
        · exact .inl hy

/-- The winner's deciding grant gives it a majority of voters. -/
theorem majority_of_deciding {e : Event n Command} (h : Tally c) (hok : CountsOnce c e)
    (hwin : DecidingGrant c e s) : Majority (voters c s (c.servers s).currentTerm) := by
  obtain ⟨i, voter, inc, round, args, reply, rfl, hmsg, hT, hcand, hgr, hmaj⟩ := hwin
  obtain ⟨hgrant, hne⟩ :=
    h.replies s voter inc round args reply (List.mem_of_getElem? hmsg) hgr
  have hcard := voteGranted_lt_card_voters h hcand hT hgrant hne (hok _ hmsg hcand hT hgr)
  rw [hT]
  show Fintype.card (Fin n) < 2 * (voters c s args.term).card
  rw [Fintype.card_fin]
  omega

/-- **STEP**: every transition that forgets no vote and counts none twice keeps
    the invariant. -/
theorem election_step {e : Event n Command} (h : Election (Led (c :: cs)) c)
    (hme : ∀ s, (c.servers s).me = s) (hkeep : KeepsVotes c e) (honce : CountsOnce c e)
    (ht : Transition gob c e c') :
    Election (Led (c' :: c :: cs)) c' := by
  have htally : Tally c' := tally_step h.tally honce ht
  cases ht with
  | idle _ net' hnet =>
      refine ⟨htally, fun v => (h.ballots v).congr (fun _ _ => Iff.rfl) ?_, ?_⟩
      · rintro T ⟨d, hd, hlead⟩
        rcases List.mem_cons.mp hd with rfl | hd
        · exact ⟨c, List.mem_cons_self .., hlead⟩
        · exact ⟨d, hd, hlead⟩
      · rintro s T ⟨d, hd, hlead⟩
        rcases List.mem_cons.mp hd with rfl | hd
        · exact h.elected s T ⟨c, List.mem_cons_self .., hlead⟩
        · exact h.elected s T ⟨d, hd, hlead⟩
  | quiet _ s rf' net' hstill hnet =>
      exact h.calm htally rfl rfl
        (led_of_calm rfl (.inr (.inr ⟨hstill.currentTerm, hstill.state⟩)))
        ((h.ballots s).keep hstill.currentTerm hstill.votedFor (.inr hstill.state))
  | append s command hlead =>
      exact h.calm htally rfl rfl (led_of_calm rfl (.inr (.inr ⟨rfl, rfl⟩)))
        ((h.ballots s).keep rfl rfl (.inr rfl))
  | forget s e hb hwhy =>
      refine h.calm htally rfl rfl (led_of_calm rfl (.inl rfl))
        ((h.ballots s).forget ?_ rfl rfl)
      rcases hwhy with rfl | ⟨rfl, hst, hvotes⟩
      · exact hkeep
      · exact hkeep hst hvotes
  | stand s e =>
      refine h.update htally rfl (fun g hg => List.mem_cons_of_mem _ hg) ?_ ?_ ?_ ?_
      · intro v x T hv hx
        rcases List.mem_cons.mp hx with heq | hx
        · exact absurd (Grant.mk.inj heq).1 hv
        · exact hx
      · exact fun v T _ => led_of_calm rfl (.inr (.inl rfl)) v T
      · have hvote : (({ convertToCandidate gob (c.servers s) with loopAt := .top } :
            Raft n Command Bytes)).votedFor = ((s : Nat) : Int) := by
          show (((c.servers s).me : Nat) : Int) = _
          rw [hme s]
        have hfirst := (h.ballots s).first (Int.lt_succ _) hvote (by omega) fun _ => rfl
        exact hfirst.congr (fun _ _ => Iff.rfl) (led_of_calm rfl (.inr (.inl rfl)) s)
      · exact fun T hT => .inl (led_of_calm rfl (.inr (.inl rfl)) s T hT)
  | ask s round rf' hcand hstill =>
      exact h.calm htally rfl rfl
        (led_of_calm rfl (.inr (.inr ⟨hstill.currentTerm, hstill.state⟩)))
        ((h.ballots s).keep hstill.currentTerm hstill.votedFor (.inr hstill.state))
  | send s j rf' args hlead hne hargs hstill =>
      exact h.calm htally rfl rfl
        (led_of_calm rfl (.inr (.inr ⟨hstill.currentTerm, hstill.state⟩)))
        ((h.ballots s).keep hstill.currentTerm hstill.votedFor (.inr hstill.state))
  | vote i caller dst inc round args rf' reply hmsg hout =>
      obtain ⟨hcaller, hne⟩ :=
        h.tally.requests caller dst inc round args (List.mem_of_getElem? hmsg)
      -- a request names its sender, which is another server
      have hid : args.candidateID ≠ -1 ∧ args.candidateID ≠ (dst : Nat) := by
        rw [hcaller]
        exact ⟨by omega, fun heq => hne (Fin.ext (by omega))⟩
      have hrole := (role_of_adopt hout.currentTerm hout.state).imp_right
        (fun hsame => Or.inr (a := rf'.state = .candidate) hsame)
      refine h.update htally rfl ?_ ?_ (fun v T _ => led_of_calm rfl hrole v T) ?_
        fun T hT => .inl (led_of_calm rfl hrole dst T hT)
      · intro g hg
        show g ∈ if reply.voteGranted then _ else _
        split
        · exact List.mem_cons_of_mem _ hg
        · exact hg
      · intro v x T hv hx
        replace hx : (⟨v, x, T⟩ : Grant n) ∈ if reply.voteGranted then
          ⟨dst, args.candidateID, reply.term⟩ :: c.granted else c.granted := hx
        split at hx
        · rcases List.mem_cons.mp hx with heq | hx
          · exact absurd (Grant.mk.inj heq).1 hv
          · exact hx
        · exact hx
      · have hvote := ballots_vote (h.ballots dst) hout hid (hkeep _ hmsg)
        exact hvote.congr (fun _ _ => Iff.rfl) (led_of_calm rfl hrole dst)
  | stepDown i s term hterm =>
      exact h.calm htally rfl rfl (led_of_calm rfl (.inl rfl))
        ((h.ballots s).later hterm rfl)
  | count i s voter inc round args reply hmsg hreply hterm hcand hgr =>
      exact h.calm htally rfl rfl (led_of_calm rfl (.inr (.inr ⟨rfl, rfl⟩)))
        ((h.ballots s).keep rfl rfl (.inr rfl))
  | win i s voter inc round args reply ch rounds hmsg hreply hterm hcand hgr hmaj =>
      have hwin : DecidingGrant c (.deliver i) s :=
        ⟨i, voter, inc, round, args, reply, rfl, hmsg, hterm, hcand, hgr, hmaj⟩
      exact h.win htally hcand rfl rfl rfl rfl rfl
        (majority_of_deciding h.tally honce hwin)
  | accept i caller dst inc args rf' reply msgs hmsg hout =>
      have hrole := (role_of_adopt hout.currentTerm hout.state).imp_right
        (fun hsame => Or.inr (a := rf'.state = .candidate) hsame)
      refine h.calm htally rfl rfl (led_of_calm rfl hrole) ?_
      rcases lt_or_ge (c.servers dst).currentTerm args.term with hlt | hge
      · refine (h.ballots dst).later ?_ ?_
        · rw [hout.currentTerm]
          omega
        · rw [hout.state, if_pos hlt]
      · refine (h.ballots dst).keep ?_ hout.votedFor (.inr ?_)
        · rw [hout.currentTerm]
          omega
        · rw [hout.state, if_neg (by omega)]
  | matched i s j inc args reply next commit last msgs hmsg hreply hterm hlead hsuc hcommit
      hmsgs =>
      exact h.calm htally rfl rfl (led_of_calm rfl (.inr (.inr ⟨rfl, rfl⟩)))
        ((h.ballots s).keep rfl rfl (.inr rfl))
  | restart s rf' hme hterm hvote hlog hstate hcommit =>
      exact h.calm htally rfl rfl (led_of_calm rfl (.inl hstate))
        ((h.ballots s).keep hterm hvote (.inl hstate))

/-! ## Runs -/

/-- The step forgets no vote and counts no vote twice. -/
def SafeVotes (c : Cluster n Command Bytes) (e : Event n Command) : Prop :=
  KeepsVotes c e ∧ CountsOnce c e

instance (c : Cluster n Command Bytes) (e : Event n Command) : Decidable (SafeVotes c e) :=
  inferInstanceAs (Decidable (KeepsVotes c e ∧ CountsOnce c e))

theorem election_initial (gob : Gob Command Bytes) :
    Election (Led [initial gob]) (initial gob : Cluster n Command Bytes) := by
  have hled : ∀ s T, ¬ Led [(initial gob : Cluster n Command Bytes)] s T := by
    rintro s T ⟨d, hd, hlead, -⟩
    rw [List.mem_singleton.mp hd] at hlead
    exact nomatch hlead
  refine ⟨tally_initial gob, fun v => ⟨?_, ?_, ?_, ?_, ?_, ?_, ?_, ?_⟩, ?_⟩
  · intro x T hx
    exact nomatch hx
  · intro x T hx
    exact nomatch hx
  · intro x hx
    exact nomatch hx
  · intro hst
    exact absurd rfl hst
  · intro x y T hx
    exact nomatch hx
  · intro T hT
    exact absurd hT (hled v T)
  · intro hT
    exact absurd hT (hled v _)
  · intro T hT
    exact absurd hT (hled v T)
  · intro s T hT
    exact absurd hT (hled s T)

theorem run_election (h : ClusterRun gob SafeVotes (c :: cs)) :
    Election (Led (c :: cs)) c := by
  have hrun := run_of_transitions h
  generalize hl : c :: cs = l at hrun ⊢
  induction hrun generalizing c cs with
  | start =>
      obtain ⟨rfl, rfl⟩ := List.cons.inj hl
      exact election_initial gob
  | next e hprev hok hs ih =>
      obtain ⟨rfl, rfl⟩ := List.cons.inj hl
      exact election_step (ih (hprev.weaken fun _ _ h => h.1) rfl) (fun s => (hok.2 s).1)
        hok.1.1 hok.1.2 (transition_of_step hok.2 hs)

/-- Two leaders of one term share a voter, and no voter has two candidates. -/
theorem Election.unique (h : Election led c) {s s' : Fin n} {T : Int} (hs : led s T)
    (hs' : led s' T) : s = s' := by
  obtain ⟨v, hv, hv'⟩ := (h.elected s T hs).half.inter (h.elected s' T hs')
  have hg : ⟨v, (s : Nat), T⟩ ∈ c.granted := (Finset.mem_filter.mp hv).2
  have hg' : ⟨v, (s' : Nat), T⟩ ∈ c.granted := (Finset.mem_filter.mp hv').2
  have hcast : ∀ x y : Fin n, ((x : Nat) : Int) = (y : Nat) → x = y :=
    fun x y heq => Fin.ext (by omega)
  -- the shared voter is one of the two leaders, or neither
  by_cases hvs : v = s
  · subst hvs
    exact (hcast _ _ ((h.ballots v).ledOnly T hs |>.2 _ hg')).symm
  · by_cases hvs' : v = s'
    · subst hvs'
      exact hcast _ _ ((h.ballots v).ledOnly T hs' |>.2 _ hg)
    · exact hcast _ _ ((h.ballots v).single _ _ T hg hg'
        (fun heq => hvs (hcast _ _ heq).symm) fun heq => hvs' (hcast _ _ heq).symm)

/-- One leader per term, in every run that forgets no vote and counts none
    twice. -/
theorem oneLeaderPerTerm_of_safeVotes {l : List (Cluster n Command Bytes)}
    (h : ClusterRun gob SafeVotes l) : OneLeaderPerTerm l := by
  intro s s' T hs hs'
  cases hl : l with
  | nil => exact absurd hl h.ne_nil
  | cons c cs =>
      rw [hl] at h hs hs'
      exact (run_election h).unique hs hs'

/-- **ELECTION SAFETY**: in every run whose steps forget no granted vote and
    count no grant twice, no two different servers are ever leader with the
    same term, at the same instant or at any two instants of the run. -/
theorem election_safety (gob : Gob Command Bytes) (cs : List (Cluster n Command Bytes))
    (h : ClusterRun gob SafeVotes cs) (c c' : Cluster n Command Bytes) (hc : c ∈ cs)
    (hc' : c' ∈ cs) (s s' : Fin n) (hs : (c.servers s).state = .leader)
    (hs' : (c'.servers s').state = .leader)
    (hterm : (c.servers s).currentTerm = (c'.servers s').currentTerm) : s = s' :=
  oneLeaderPerTerm_of_safeVotes h s s' _ ⟨c, hc, hs, hterm⟩ ⟨c', hc', hs', rfl⟩

theorem election_safety_of_first_election :
    ∃ (c : SmallCluster 3) (cs : List (SmallCluster 3)),
      ClusterRun (plainGob Nat) SafeVotes (c :: cs) ∧
      (c.servers 0).state = .leader ∧ (c.servers 0).currentTerm = 1 ∧
      ∀ d ∈ c :: cs, ∀ s, (d.servers s).state = .leader →
        (c.servers 0).currentTerm = (d.servers s).currentTerm → 0 = s := by
  obtain ⟨c, cs, hrun, hlead, hterm⟩ : ∃ (c : SmallCluster 3) (cs : List (SmallCluster 3)),
      ClusterRun (plainGob Nat) SafeVotes (c :: cs) ∧
      (c.servers 0).state = .leader ∧ (c.servers 0).currentTerm = 1 :=
    run_reaches electAndReplicate (by decide +kernel)
  refine ⟨c, cs, hrun, hlead, hterm, fun d hd s hs heq => ?_⟩
  exact election_safety (plainGob Nat) (c :: cs) hrun c d (List.mem_cons_self ..) hd 0 s hlead hs
    heq

/-- Three candidates of term `1`.  Server `2` refuses server `0`, which resets
    its vote, and then votes for server `1`; server `1`, by now leader, refuses
    server `2` and then votes for server `0`. -/
def refuseThenGrant : List (Event 3 Nat) :=
  [.loop 0 .top, .loop 0 .followerTimer, .loop 0 .top, .startRequestVote 0,
    .loop 1 .top, .loop 1 .followerTimer, .loop 1 .top, .startRequestVote 1,
    .loop 2 .top, .loop 2 .followerTimer, .loop 2 .top, .startRequestVote 2,
    .deliver 1, .deliver 2, .deliver 5, .deliver 3, .deliver 0, .deliver 4]

/-- **TWO LEADERS**: servers `0` and `1` are leader in term `1` together. -/
theorem two_leaders_in_one_term :
    ∃ (c : SmallCluster 3) (cs : List (SmallCluster 3)),
      ClusterRun (plainGob Nat) Always (c :: cs) ∧
      (c.servers 0).state = .leader ∧ (c.servers 1).state = .leader ∧
      (c.servers 0).currentTerm = 1 ∧ (c.servers 1).currentTerm = 1 :=
  run_reaches refuseThenGrant (by decide +kernel)

end RaftElection
