import Ferrium.Raft.Votes

/-!
# Terms

Every message carries the term of its sender, and this is how a node that has missed an election
finds out: a later term makes it step down, and a message of an earlier term gets a refusal at most.
What a single call does to the term of a node, which terms its messages carry, and to whom it says
yes are three views of this rule.

`Stamps` says for one call which messages it adds to the queue. The handlers are looked at once, for
this relation; that a message of an earlier term has no effect is seen from their guards.

## Main results

* `RaftNode.stamps_input`: the messages of a call are of the term that it ends in;
* `RaftNode.disciplined`: the rule, for every state of a node and every call.
-/

namespace Ferrium

namespace Message

/-- The message is a vote for a candidate, or accepts entries, only in reply to the call `e`, which
is then the delivery of a request of term `T`. -/
def ConsentsOnlyTo (e : Input) (T : ℕ) : Message → Prop
  | .requestVoteReply m => m.voteGranted = true →
    ∃ sender request, e = .step sender (.requestVote request) ∧ request.term = T
  | .appendEntriesReply m => m.success = true →
    ∃ sender request, e = .step sender (.appendEntries request) ∧ request.term = T
  | _ => True

/-- The message is a refusal. -/
def Refuses : Message → Prop
  | .requestVoteReply m => m.voteGranted = false
  | .appendEntriesReply m => m.success = false
  | _ => False

end Message

namespace RaftNode

variable {n n' n'' : RaftNode} {e : Input} {out : List Envelope}

/-- From `n` to `n'`, by the call `e`, the messages `out` are put into the queue. They are of the
term of `n'`, and none of them says yes to anything but a request of this term. -/
structure Stamps (e : Input) (n n' : RaftNode) (out : List Envelope) : Prop where
  outgoing_eq : n'.outgoing = n.outgoing ++ out
  term_eq : ∀ env ∈ out, env.message.term = n'.currentTerm
  consents : ∀ env ∈ out, env.message.ConsentsOnlyTo e n'.currentTerm

theorem stamps_of_silent (h : n'.outgoing = n.outgoing) : Stamps e n n' [] where
  outgoing_eq := h.trans (List.append_nil _).symm
  term_eq _ henv := absurd henv List.not_mem_nil
  consents _ henv := absurd henv List.not_mem_nil

/-- A change without messages may come first. -/
theorem Stamps.of_eq (h : Stamps e n' n'' out) (hout : n'.outgoing = n.outgoing) :
    Stamps e n n'' out :=
  { h with outgoing_eq := hout ▸ h.outgoing_eq }

/-- A single message. -/
theorem stamps_of_reply {env : Envelope} (hout : n'.outgoing = n.outgoing ++ [env])
    (hterm : env.message.term = n'.currentTerm)
    (hconsents : env.message.ConsentsOnlyTo e n'.currentTerm) : Stamps e n n' [env] where
  outgoing_eq := hout
  term_eq env' henv := by
    rw [List.mem_singleton.mp henv]
    exact hterm
  consents env' henv := by
    rw [List.mem_singleton.mp henv]
    exact hconsents

@[simp]
theorem term_appendFor (n : RaftNode) (peer : NodeId) :
    (n.appendFor peer).term = n.currentTerm := by
  unfold appendFor
  dsimp only
  split <;> rfl

theorem consentsOnlyTo_appendFor (n : RaftNode) (peer : NodeId) (T : ℕ) :
    (n.appendFor peer).ConsentsOnlyTo e T := by
  unfold appendFor
  dsimp only
  split <;> trivial

theorem stamps_broadcastAppend (n : RaftNode) :
    Stamps e n n.broadcastAppend.advanceCommit
      (n.peers.map fun peer => ⟨peer, n.appendFor peer⟩) := by
  rw [advanceCommit_eq, broadcastAppend_eq]
  refine ⟨rfl, fun env henv => ?_, fun env henv => ?_⟩
  all_goals obtain ⟨peer, -, rfl⟩ := List.mem_map.mp henv
  · exact n.term_appendFor peer
  · exact n.consentsOnlyTo_appendFor peer _

theorem stamps_becomeLeader (n : RaftNode) : ∃ out, Stamps e n n.becomeLeader out :=
  ⟨_, (stamps_broadcastAppend n.takeOffice).of_eq rfl⟩

theorem stamps_becomeCandidate (n : RaftNode) : ∃ out, Stamps e n n.becomeCandidate out := by
  unfold becomeCandidate
  dsimp only
  split
  · obtain ⟨out, h⟩ := stamps_becomeLeader n.standForElection
    exact ⟨out, h.of_eq rfl⟩
  · rw [requestVotes_eq]
    refine ⟨_, rfl, fun env henv => ?_, fun env henv => ?_⟩
    all_goals obtain ⟨peer, -, rfl⟩ := List.mem_map.mp henv
    · rfl
    · trivial

/-! ### The calls -/

theorem stamps_tick (n : RaftNode) : ∃ out, Stamps e n n.tick out := by
  rcases n.tick_cases with ⟨-, heq⟩ | ⟨-, -, heq⟩ | ⟨-, heq⟩ | ⟨-, heq⟩ <;> rw [heq]
  · exact ⟨[], stamps_of_silent rfl⟩
  · rw [broadcastAppend_eq]
    refine ⟨_, rfl, fun env henv => ?_, fun env henv => ?_⟩
    all_goals obtain ⟨peer, -, rfl⟩ := List.mem_map.mp henv
    · exact term_appendFor _ peer
    · exact consentsOnlyTo_appendFor _ peer _
  · exact ⟨[], stamps_of_silent rfl⟩
  · obtain ⟨out, h⟩ := stamps_becomeCandidate { n with electionElapsed := n.electionElapsed + 1 }
    exact ⟨out, h.of_eq rfl⟩

theorem stamps_propose (n : RaftNode) (command : List UInt8) :
    ∃ out, Stamps e n (n.propose command).2 out := by
  unfold propose
  split
  · exact ⟨[], stamps_of_silent rfl⟩
  · exact ⟨_, (stamps_broadcastAppend
      { n with log := n.log.append [n.newEntry command] }).of_eq rfl⟩

theorem stamps_handleRequestVote {sender : NodeId} {m : RequestVote}
    (hterm : m.term ≤ n.currentTerm) :
    ∃ out, Stamps (.step sender (.requestVote m)) n (n.handleRequestVote m) out := by
  unfold handleRequestVote
  by_cases hgrants : n.grantsVote m = true
  · -- the request is not of an earlier term either
    have hle : n.currentTerm ≤ m.term := by
      unfold grantsVote at hgrants
      simp only [Bool.and_eq_true, decide_eq_true_eq] at hgrants
      exact hgrants.1.1
    have heq : m.term = n.currentTerm := le_antisymm hterm hle
    simp only [hgrants, if_true]
    exact ⟨_, stamps_of_reply rfl rfl fun _ => ⟨sender, m, rfl, heq⟩⟩
  · simp only [hgrants, Bool.false_eq_true, if_false]
    refine ⟨_, stamps_of_reply rfl rfl fun hgranted => ?_⟩
    cases hgranted

theorem stamps_handleAppendEntries {sender : NodeId} {m : AppendEntries} :
    ∃ out, Stamps (.step sender (.appendEntries m)) n (n.handleAppendEntries m) out := by
  unfold handleAppendEntries
  split
  · refine ⟨_, stamps_of_reply rfl rfl fun hsuccess => ?_⟩
    cases hsuccess
  · dsimp only
    split
    · exact ⟨_, stamps_of_reply rfl rfl fun _ => ⟨sender, m, rfl, rfl⟩⟩
    · refine ⟨_, stamps_of_reply rfl rfl fun hsuccess => ?_⟩
      cases hsuccess

/-- Handling a message of a term that the node has reached. -/
theorem stamps_handle (sender : NodeId) {message : Message}
    (hterm : message.term ≤ n.currentTerm) :
    ∃ out, Stamps (.step sender message) n (n.handle sender message) out := by
  cases message with
  | requestVote m => exact stamps_handleRequestVote hterm
  | requestVoteReply m =>
    simp only [handle, handleRequestVoteReply]
    split
    · exact ⟨[], stamps_of_silent rfl⟩
    · split
      · split
        · obtain ⟨out, h⟩ :=
            stamps_becomeLeader ({ n with votes := n.votes.record m.voterId } : RaftNode)
          exact ⟨out, h.of_eq rfl⟩
        · exact ⟨[], stamps_of_silent rfl⟩
      · exact ⟨[], stamps_of_silent rfl⟩
  | appendEntries m => exact stamps_handleAppendEntries
  | appendEntriesReply m =>
    simp only [handle, handleAppendEntriesReply]
    split
    · exact ⟨[], stamps_of_silent rfl⟩
    · split
      · rw [advanceCommit_eq]
        exact ⟨[], stamps_of_silent rfl⟩
      · exact ⟨_, stamps_of_reply rfl (term_appendFor _ sender)
          (consentsOnlyTo_appendFor _ sender _)⟩
  | installSnapshot m =>
    simp only [handle, handleInstallSnapshot]
    split
    · exact ⟨[], stamps_of_silent rfl⟩
    · exact ⟨_, stamps_of_reply rfl rfl trivial⟩
  | installSnapshotReply m =>
    simp only [handle, handleInstallSnapshotReply]
    split <;> exact ⟨[], stamps_of_silent rfl⟩

/-- What the call adds to the queue; `takeReady` only empties it. -/
def emitted (n : RaftNode) (e : Input) : List Envelope :=
  (n.input e).outgoing.drop n.outgoing.length

theorem emitted_eq_of_outgoing (h : (n.input e).outgoing = n.outgoing ++ out) :
    n.emitted e = out := by
  unfold emitted
  rw [h]
  exact List.drop_left

/-- **The messages of a call are of the term that it ends in.** -/
theorem stamps_input (n : RaftNode) (he : e ≠ .takeReady) :
    Stamps e n (n.input e) (n.emitted e) := by
  obtain ⟨out, h⟩ : ∃ out, Stamps e n (n.input e) out := by
    cases e with
    | tick => exact n.stamps_tick
    | propose command => exact n.stamps_propose command
    | takeReady => exact absurd rfl he
    | step sender message =>
      have hreached : message.term ≤ (n.observeTerm message.term).currentTerm := by simp
      obtain ⟨out, h⟩ := stamps_handle sender hreached
      exact ⟨out, h.of_eq (n.outgoing_observeTerm message.term)⟩
  rw [emitted_eq_of_outgoing h.outgoing_eq]
  exact h

/-! ### The term -/

theorem currentTerm_becomeLeader (n : RaftNode) : n.becomeLeader.currentTerm = n.currentTerm := by
  rw [becomeLeader, advanceCommit_eq, broadcastAppend_eq]
  rfl

/-- A handler leaves the term, once the node has reached that of the message. -/
theorem currentTerm_handle {sender : NodeId} {message : Message}
    (hterm : message.term ≤ n.currentTerm) :
    (n.handle sender message).currentTerm = n.currentTerm := by
  cases message with
  | requestVote m =>
    simp only [handle, handleRequestVote]
    split <;> rfl
  | requestVoteReply m =>
    simp only [handle, handleRequestVoteReply]
    split
    · rfl
    · split
      · split
        · exact currentTerm_becomeLeader _
        · rfl
      · rfl
  | appendEntries m =>
    simp only [handle, handleAppendEntries]
    split
    · rfl
    · next hcur =>
      have heq : m.term = n.currentTerm := le_antisymm hterm (not_lt.mp hcur)
      split <;> exact heq
  | appendEntriesReply m =>
    simp only [handle, handleAppendEntriesReply]
    split
    · rfl
    · split
      · rw [advanceCommit_eq]
        rfl
      · rfl
  | installSnapshot m =>
    simp only [handle, handleInstallSnapshot]
    split
    · rfl
    · next hcur => exact le_antisymm hterm (not_lt.mp hcur)
  | installSnapshotReply m =>
    simp only [handle, handleInstallSnapshotReply]
    split <;> rfl

/-- After a message the node is in the later one of the two terms. -/
theorem currentTerm_step (n : RaftNode) (sender : NodeId) (message : Message) :
    (n.step sender message).currentTerm = max n.currentTerm message.term := by
  unfold step
  rw [currentTerm_handle (by simp), currentTerm_observeTerm]

theorem currentTerm_becomeCandidate (n : RaftNode) :
    n.becomeCandidate.currentTerm = n.currentTerm + 1 := by
  unfold becomeCandidate
  dsimp only
  split
  · rw [currentTerm_becomeLeader]
    rfl
  · rw [requestVotes_eq]
    rfl

/-- A tick leaves the term or starts an election in the next one. -/
theorem currentTerm_tick (n : RaftNode) :
    n.tick.currentTerm = n.currentTerm ∨ n.tick.currentTerm = n.currentTerm + 1 := by
  rcases n.tick_cases with ⟨-, heq⟩ | ⟨-, -, heq⟩ | ⟨-, heq⟩ | ⟨-, heq⟩ <;> rw [heq]
  · exact Or.inl rfl
  · rw [broadcastAppend_eq]
    exact Or.inl rfl
  · exact Or.inl rfl
  · rw [currentTerm_becomeCandidate]
    exact Or.inr rfl

theorem currentTerm_le_tick (n : RaftNode) : n.currentTerm ≤ n.tick.currentTerm := by
  rcases n.currentTerm_tick with heq | heq <;> omega

theorem currentTerm_propose (n : RaftNode) (command : List UInt8) :
    (n.propose command).2.currentTerm = n.currentTerm := by
  unfold propose
  split
  · rfl
  · dsimp only
    rw [advanceCommit_eq, broadcastAppend_eq]

theorem currentTerm_le_input (n : RaftNode) (e : Input) :
    n.currentTerm ≤ (n.input e).currentTerm := by
  cases e with
  | tick => exact n.currentTerm_le_tick
  | propose command => exact (n.currentTerm_propose command).ge
  | takeReady =>
    show n.currentTerm ≤ n.takeReady.currentTerm
    rw [takeReady_eq]
  | step sender message =>
    show n.currentTerm ≤ (n.step sender message).currentTerm
    rw [currentTerm_step]
    exact le_max_left _ _

/-! ### Messages of an earlier term -/

/-- A message of an earlier term is refused, if it is answered at all, and changes nothing. -/
theorem step_of_lt {sender : NodeId} {message : Message} (hlt : message.term < n.currentTerm) :
    ∃ out, out.length ≤ 1 ∧ (∀ env ∈ out, env.message.Refuses) ∧
      n.step sender message = { n with outgoing := n.outgoing ++ out } := by
  have hignored : ∀ n' : RaftNode, n' = n → ∃ out, out.length ≤ 1 ∧
      (∀ env ∈ out, env.message.Refuses) ∧ n' = { n with outgoing := n.outgoing ++ out } := by
    rintro _ rfl
    exact ⟨[], Nat.zero_le 1, fun _ henv => absurd henv List.not_mem_nil, by simp⟩
  have hrefused : ∀ env : Envelope, env.message.Refuses →
      (∀ env' ∈ [env], env'.message.Refuses) := by
    intro env henv env' hmem
    rwa [List.mem_singleton.mp hmem]
  rw [step_eq_handle sender hlt.le]
  cases message with
  | requestVote m =>
    have hno : n.grantsVote m = false := by
      have hle : ¬n.currentTerm ≤ m.term := not_le.mpr hlt
      simp [grantsVote, hle]
    refine ⟨[_], le_rfl, hrefused ⟨m.candidateId, .requestVoteReply ⟨n.currentTerm, n.id, false⟩⟩
      rfl, ?_⟩
    simp only [handle, handleRequestVote, hno, Bool.false_eq_true, if_false]
    rfl
  | requestVoteReply m =>
    exact hignored _ (if_pos (Or.inr hlt.ne))
  | appendEntries m =>
    refine ⟨[_], le_rfl,
      hrefused ⟨m.leaderId, .appendEntriesReply ⟨n.currentTerm, n.id, false, 0, 0⟩⟩ rfl, ?_⟩
    exact if_pos hlt
  | appendEntriesReply m =>
    exact hignored _ (if_pos (Or.inr hlt.ne))
  | installSnapshot m =>
    exact hignored _ (if_pos hlt)
  | installSnapshotReply m =>
    exact hignored _ (if_pos (Or.inr hlt.ne))

/-- The rule of terms, for one call: the term does not fall, and is the later one after a message;
what is put into the queue is of the term that the call ends in, and says yes only to a request of
this term; a message of an earlier term changes nothing, except that it may be refused. -/
structure Disciplined (n : RaftNode) (e : Input) : Prop where
  term_le : n.currentTerm ≤ (n.input e).currentTerm
  term_step : ∀ sender message, e = .step sender message →
    (n.input e).currentTerm = max n.currentTerm message.term
  queue : e ≠ .takeReady → (n.input e).outgoing = n.outgoing ++ n.emitted e
  stamped : ∀ env ∈ n.emitted e, env.message.term = (n.input e).currentTerm
  consents : ∀ env ∈ n.emitted e, env.message.ConsentsOnlyTo e (n.input e).currentTerm
  stale : ∀ sender message, e = .step sender message → message.term < n.currentTerm →
    ∃ out, out.length ≤ 1 ∧ (∀ env ∈ out, env.message.Refuses) ∧
      n.input e = { n with outgoing := n.outgoing ++ out }

/-- **Term discipline**, in every state of a node and for every call. -/
theorem disciplined (n : RaftNode) (e : Input) : n.Disciplined e := by
  have hstamps : ∀ env ∈ n.emitted e, env.message.term = (n.input e).currentTerm ∧
      env.message.ConsentsOnlyTo e (n.input e).currentTerm := by
    intro env henv
    by_cases he : e = .takeReady
    · -- `takeReady` leaves an empty queue
      have hnone : n.emitted e = [] := by
        rw [he]
        exact List.drop_nil
      rw [hnone] at henv
      cases henv
    · exact ⟨(n.stamps_input he).term_eq env henv, (n.stamps_input he).consents env henv⟩
  refine ⟨n.currentTerm_le_input e, ?_, fun he => (n.stamps_input he).outgoing_eq,
    fun env henv => (hstamps env henv).1, fun env henv => (hstamps env henv).2, ?_⟩
  · rintro sender message rfl
    exact n.currentTerm_step sender message
  · rintro sender message rfl hlt
    exact step_of_lt hlt

end RaftNode

end Ferrium
