import Ferrium.Raft.Tenure

/-!
# Being in office, and knowing who is

What a call does to the role of a node, to its term and to its idea of who leads: `leader_id` is
what a client is redirected to. A node takes a leader for granted that names itself in an append or
in a snapshot of the node's own term; it forgets it when it hears of a later term or stands for
election itself.

A node comes into office in two ways: a candidate gets a vote that makes a majority, or a node that
needs nobody's vote but its own stands for election, in a new term. So it comes into office once in
a term at most.

## Main results

* `RaftNode.moves_input`: what a call does;
* `RaftNode.leads_of_leadership`: only a leader claims to be one;
* `RaftNode.Served.moves`: what a node has led it does not come to lead again.
-/

namespace Ferrium

namespace Message

/-- The leader that a message claims to be from, with its term. -/
def leadership : Message → Option (NodeId × ℕ)
  | .appendEntries m => some (m.leaderId, m.term)
  | .installSnapshot m => some (m.leaderId, m.term)
  | .requestVote _ | .requestVoteReply _ | .appendEntriesReply _ | .installSnapshotReply _ => none

@[simp]
theorem leadership_fillSnapshot (data : List KeyValue) (message : Message) :
    (message.fillSnapshot data).leadership = message.leadership := by
  cases message <;> rfl

theorem leadership_eq {message : Message} {l : NodeId} {T : ℕ}
    (h : message.leadership = some (l, T)) : message.author = l ∧ message.term = T := by
  cases message with
  | appendEntries m => exact Prod.mk.inj (Option.some.inj h)
  | installSnapshot m => exact Prod.mk.inj (Option.some.inj h)
  | requestVote m => cases h
  | requestVoteReply m => cases h
  | appendEntriesReply m => cases h
  | installSnapshotReply m => cases h

end Message

/-- The leader that a call tells the node about, with its term. -/
def Input.leadership : Input → Option (NodeId × ℕ)
  | .step _ message => message.leadership
  | .tick | .propose _ | .takeReady => none

namespace RaftNode

variable {n n' : RaftNode} {e : Input} {claim : Option (NodeId × ℕ)}

/-! ### Role, term and leader -/

/-- From `n` to `n'`, as far as role, term and leader are concerned, if the node is told of the
leader and the term in `claim`. -/
inductive Moves (claim : Option (NodeId × ℕ)) (n n' : RaftNode) : Prop
  /-- Nothing changes. -/
  | rests (role_eq : n'.role = n.role) (term_eq : n'.currentTerm = n.currentTerm)
      (leader_eq : n'.leaderId = n.leaderId)
  /-- The node follows, and knows of a leader only if it has just been told. -/
  | follows (role_eq : n'.role = .follower) (term_le : n.currentTerm ≤ n'.currentTerm)
      (leader : ∀ l ∈ n'.leaderId, claim = some (l, n'.currentTerm))
  /-- The node stands for election. -/
  | stands (role_eq : n'.role = .candidate) (term_eq : n'.currentTerm = n.currentTerm + 1)
      (leader_eq : n'.leaderId = none)
  /-- The node comes into office, in its term or in a new one. -/
  | wins (role_eq : n'.role = .leader) (leader_eq : n'.leaderId = some n.id)
      (start : n.role = .candidate ∧ n'.currentTerm = n.currentTerm ∨
        n.role ≠ .leader ∧ n'.currentTerm = n.currentTerm + 1)

theorem becomeLeader_office (n : RaftNode) :
    n.becomeLeader.role = .leader ∧ n.becomeLeader.leaderId = some n.id := by
  rw [becomeLeader, advanceCommit_eq, broadcastAppend_eq]
  exact ⟨rfl, rfl⟩

theorem moves_tick (n : RaftNode) : Moves claim n n.tick := by
  rcases n.tick_cases with ⟨-, heq⟩ | ⟨-, -, heq⟩ | ⟨-, heq⟩ | ⟨hrole, heq⟩ <;> rw [heq]
  · exact .rests rfl rfl rfl
  · rw [broadcastAppend_eq]
    exact .rests rfl rfl rfl
  · exact .rests rfl rfl rfl
  · unfold becomeCandidate
    dsimp only
    split
    · -- nobody else has a vote
      obtain ⟨hoffice, hleader⟩ := becomeLeader_office
        { n with electionElapsed := n.electionElapsed + 1 }.standForElection
      exact .wins hoffice hleader (Or.inr ⟨hrole, currentTerm_becomeLeader _⟩)
    · rw [requestVotes_eq]
      exact .stands rfl rfl rfl

theorem moves_propose (n : RaftNode) (command : List UInt8) :
    Moves claim n (n.propose command).2 := by
  unfold propose
  split
  · exact .rests rfl rfl rfl
  · dsimp only
    rw [advanceCommit_eq, broadcastAppend_eq]
    exact .rests rfl rfl rfl

/-- A message of a term that the node has reached. -/
theorem moves_handle (sender : NodeId) {message : Message} (hterm : message.term ≤ n.currentTerm) :
    Moves message.leadership n (n.handle sender message) := by
  cases message with
  | requestVote m =>
    simp only [handle, handleRequestVote]
    split <;> exact .rests rfl rfl rfl
  | requestVoteReply m =>
    simp only [handle, handleRequestVoteReply]
    split
    · exact .rests rfl rfl rfl
    · next hopen =>
      rw [not_or, not_not] at hopen
      split
      · split
        · -- the vote makes a majority
          obtain ⟨hoffice, hleader⟩ := becomeLeader_office
            { n with votes := n.votes.record m.voterId }
          exact .wins hoffice hleader (Or.inl ⟨hopen.1, currentTerm_becomeLeader _⟩)
        · exact .rests rfl rfl rfl
      · exact .rests rfl rfl rfl
  | appendEntries m =>
    simp only [handle, handleAppendEntries]
    split
    · exact .rests rfl rfl rfl
    · next hle =>
      -- whether it is accepted or not, its sender is followed
      have htold : ∀ n' : RaftNode, n'.role = .follower → n'.currentTerm = m.term →
          n'.leaderId = some m.leaderId → Moves (some (m.leaderId, m.term)) n n' := by
        intro n' hrole hcurrent hleader
        refine .follows hrole (hcurrent ▸ not_lt.mp hle) fun l hl => ?_
        rw [Option.mem_def, hleader] at hl
        rw [← Option.some.inj hl, hcurrent]
      split
      · exact htold _ rfl rfl rfl
      · exact htold _ rfl rfl rfl
  | appendEntriesReply m =>
    simp only [handle, handleAppendEntriesReply]
    split
    · exact .rests rfl rfl rfl
    · split
      · rw [advanceCommit_eq]
        exact .rests rfl rfl rfl
      · exact .rests rfl rfl rfl
  | installSnapshot m =>
    simp only [handle, handleInstallSnapshot]
    split
    · exact .rests rfl rfl rfl
    · next hle =>
      refine .follows rfl (not_lt.mp hle) fun l hl => ?_
      rw [← Option.some.inj (Option.mem_def.mp hl)]
      rfl
  | installSnapshotReply m =>
    simp only [handle, handleInstallSnapshotReply]
    split <;> exact .rests rfl rfl rfl

theorem moves_step (n : RaftNode) (sender : NodeId) (message : Message) :
    Moves message.leadership n (n.step sender message) := by
  by_cases hle : message.term ≤ n.currentTerm
  · rw [step_eq_handle sender hle]
    exact moves_handle sender hle
  · -- a later term makes the node a follower that knows of nobody
    have hlater := not_le.mp hle
    have hobs : n.observeTerm message.term = n.becomeFollower message.term none := if_pos hlater
    have hterm : message.term ≤ (n.becomeFollower message.term none).currentTerm := le_refl _
    have hrole := role_handle_of_follower (n := n.becomeFollower message.term none) rfl sender
      message
    have hmoves := moves_handle sender hterm
    unfold step
    rw [hobs]
    cases hmoves with
    | rests _ term_eq leader_eq =>
      refine .follows hrole (term_eq.symm ▸ hlater.le) fun l hl => ?_
      rw [leader_eq] at hl
      cases hl
    | follows role_eq term_le leader => exact .follows role_eq (hlater.le.trans term_le) leader
    | stands role_eq => cases hrole.symm.trans role_eq
    | wins role_eq => cases hrole.symm.trans role_eq

/-- **What a call does** to role, term and leader. -/
theorem moves_input (n : RaftNode) (e : Input) : Moves e.leadership n (n.input e) := by
  cases e with
  | tick => exact n.moves_tick
  | propose command => exact n.moves_propose command
  | takeReady =>
    rw [input, takeReady_eq]
    exact .rests rfl rfl rfl
  | step sender message => exact n.moves_step sender message

/-- Draining the outputs does not matter. -/
theorem Moves.takeReady (h : Moves claim n n') : Moves claim n n'.takeReady := by
  rw [takeReady_eq]
  cases h with
  | rests role_eq term_eq leader_eq => exact .rests role_eq term_eq leader_eq
  | follows role_eq term_le leader => exact .follows role_eq term_le leader
  | stands role_eq term_eq leader_eq => exact .stands role_eq term_eq leader_eq
  | wins role_eq leader_eq start => exact .wins role_eq leader_eq start

/-! ### The terms that a node has led -/

/-- The node has led the terms in `led`, and no others. A candidate has not led its term yet. -/
structure Served (led : Finset ℕ) (n : RaftNode) : Prop where
  le_term : ∀ T ∈ led, T ≤ n.currentTerm
  leads : n.role = .leader → n.currentTerm ∈ led
  stands : n.role = .candidate → n.currentTerm ∉ led

theorem served_of_follower (h : n.role = .follower) : Served ∅ n where
  le_term _ hT := absurd hT (Finset.notMem_empty _)
  leads hrole := by cases h.symm.trans hrole
  stands _ := Finset.notMem_empty _

/-- The terms that a node has led, if it goes on to `n'`. -/
def ledOnce (led : Finset ℕ) (n' : RaftNode) : Finset ℕ :=
  if n'.role = .leader then insert n'.currentTerm led else led

theorem ledOnce_of_ne {led : Finset ℕ} (h : n'.role ≠ .leader) : ledOnce led n' = led :=
  if_neg h

/-- **What a node has led it does not come to lead again**: it has come into office exactly if its
term is a new one among those that it has led. -/
theorem Served.moves {led : Finset ℕ} (h : Served led n) (hmoves : Moves claim n n') :
    Served (ledOnce led n') n' ∧ (ledOnce led n').card =
      led.card + if n'.role = .leader ∧ n.role ≠ .leader then 1 else 0 := by
  cases hmoves with
  | rests role_eq term_eq leader_eq =>
    -- a leader that stays in office stays in its term
    have hsame : ledOnce led n' = led := by
      unfold ledOnce
      split
      · next hrole =>
        rw [term_eq]
        exact Finset.insert_eq_of_mem (h.leads (role_eq ▸ hrole))
      · rfl
    rw [hsame, role_eq, if_neg fun hboth => hboth.2 hboth.1]
    refine ⟨⟨term_eq ▸ h.le_term, ?_, ?_⟩, rfl⟩ <;> rw [role_eq, term_eq]
    · exact h.leads
    · exact h.stands
  | follows role_eq term_le leader =>
    have hne : n'.role ≠ .leader := by rw [role_eq]; decide
    rw [ledOnce_of_ne hne, if_neg fun hboth => hne hboth.1]
    refine ⟨⟨fun T hT => (h.le_term T hT).trans term_le, fun hrole => absurd hrole hne, ?_⟩, rfl⟩
    rw [role_eq]
    intro hrole
    cases hrole
  | stands role_eq term_eq leader_eq =>
    have hne : n'.role ≠ .leader := by rw [role_eq]; decide
    rw [ledOnce_of_ne hne, if_neg fun hboth => hne hboth.1]
    have hlt : ∀ T ∈ led, T < n'.currentTerm := fun T hT =>
      (Nat.lt_succ_of_le (h.le_term T hT)).trans_eq term_eq.symm
    exact ⟨⟨fun T hT => (hlt T hT).le, fun hrole => absurd hrole hne,
      fun _ hmem => (hlt _ hmem).false⟩, rfl⟩
  | wins role_eq leader_eq start =>
    -- the term is that of a candidate, or a later one
    obtain ⟨hold, hle, hnew⟩ :
        n.role ≠ .leader ∧ n.currentTerm ≤ n'.currentTerm ∧ n'.currentTerm ∉ led := by
      rcases start with ⟨hrole, hterm⟩ | ⟨hrole, hterm⟩
      · exact ⟨by rw [hrole]; decide, hterm.ge, hterm ▸ h.stands hrole⟩
      · exact ⟨hrole, hterm ▸ Nat.le_succ _, fun hmem =>
          Nat.not_succ_le_self _ (hterm ▸ h.le_term _ hmem)⟩
    have hinsert : ledOnce led n' = insert n'.currentTerm led := if_pos role_eq
    rw [hinsert, if_pos ⟨role_eq, hold⟩]
    refine ⟨⟨fun T hT => ?_, fun _ => Finset.mem_insert_self _ _, fun hrole => ?_⟩,
      Finset.card_insert_of_notMem hnew⟩
    · rcases Finset.mem_insert.mp hT with rfl | hmem
      · exact le_refl _
      · exact (h.le_term T hmem).trans hle
    · cases role_eq.symm.trans hrole

/-! ### Who claims to lead -/

/-- The messages that come on top of those of `n` claim leadership only if `n'` has it. -/
def ClaimsHonestly (n n' : RaftNode) : Prop :=
  ∀ env ∈ n'.outgoing, env ∈ n.outgoing ∨ env.message.leadership = none ∨ n'.role = .leader

theorem claimsHonestly_of_eq (h : n'.outgoing = n.outgoing) : ClaimsHonestly n n' :=
  fun _ henv => Or.inl (h ▸ henv)

theorem claimsHonestly_of_leader (h : n'.role = .leader) : ClaimsHonestly n n' :=
  fun _ _ => Or.inr (Or.inr h)

theorem claimsHonestly_of_append {out : List Envelope} (h : n'.outgoing = n.outgoing ++ out)
    (hout : ∀ env ∈ out, env.message.leadership = none) : ClaimsHonestly n n' := by
  intro env henv
  rw [h] at henv
  rcases List.mem_append.mp henv with hold | hnew
  · exact Or.inl hold
  · exact Or.inr (Or.inl (hout env hnew))

theorem claimsHonestly_tick (n : RaftNode) : ClaimsHonestly n n.tick := by
  rcases n.tick_cases with ⟨-, heq⟩ | ⟨hrole, -, heq⟩ | ⟨-, heq⟩ | ⟨-, heq⟩ <;> rw [heq]
  · exact claimsHonestly_of_eq rfl
  · rw [broadcastAppend_eq]
    exact claimsHonestly_of_leader hrole
  · exact claimsHonestly_of_eq rfl
  · unfold becomeCandidate
    dsimp only
    split
    · exact claimsHonestly_of_leader (becomeLeader_office _).1
    · rw [requestVotes_eq]
      refine claimsHonestly_of_append rfl fun env henv => ?_
      obtain ⟨peer, -, rfl⟩ := List.mem_map.mp henv
      rfl

theorem claimsHonestly_propose (n : RaftNode) (command : List UInt8) :
    ClaimsHonestly n (n.propose command).2 := by
  unfold propose
  split
  · exact claimsHonestly_of_eq rfl
  · next hrole =>
    dsimp only
    rw [advanceCommit_eq, broadcastAppend_eq]
    exact claimsHonestly_of_leader (not_not.mp hrole)

theorem claimsHonestly_handle (n : RaftNode) (sender : NodeId) (message : Message) :
    ClaimsHonestly n (n.handle sender message) := by
  have hreply : ∀ (n' : RaftNode) (env : Envelope), n'.outgoing = n.outgoing ++ [env] →
      env.message.leadership = none → ClaimsHonestly n n' := fun n' env hout hnone =>
    claimsHonestly_of_append hout fun env' henv' => List.mem_singleton.mp henv' ▸ hnone
  cases message with
  | requestVote m =>
    simp only [handle, handleRequestVote]
    split <;> exact hreply _ _ rfl rfl
  | requestVoteReply m =>
    simp only [handle, handleRequestVoteReply]
    split
    · exact claimsHonestly_of_eq rfl
    · split
      · split
        · exact claimsHonestly_of_leader (becomeLeader_office _).1
        · exact claimsHonestly_of_eq rfl
      · exact claimsHonestly_of_eq rfl
  | appendEntries m =>
    simp only [handle, handleAppendEntries]
    split
    · exact hreply _ _ rfl rfl
    · split <;> exact hreply _ _ rfl rfl
  | appendEntriesReply m =>
    simp only [handle, handleAppendEntriesReply]
    split
    · exact claimsHonestly_of_eq rfl
    · next hopen =>
      rw [not_or, not_not] at hopen
      split
      · rw [advanceCommit_eq]
        exact claimsHonestly_of_eq rfl
      · exact claimsHonestly_of_leader hopen.1
  | installSnapshot m =>
    simp only [handle, handleInstallSnapshot]
    split
    · exact claimsHonestly_of_eq rfl
    · exact hreply _ _ rfl rfl
  | installSnapshotReply m =>
    simp only [handle, handleInstallSnapshotReply]
    split <;> exact claimsHonestly_of_eq rfl

theorem claimsHonestly_input (n : RaftNode) (e : Input) : ClaimsHonestly n (n.input e) := by
  cases e with
  | tick => exact n.claimsHonestly_tick
  | propose command => exact n.claimsHonestly_propose command
  | takeReady =>
    intro env henv
    rw [input, takeReady_eq] at henv
    cases henv
  | step sender message =>
    intro env henv
    rcases claimsHonestly_handle (n.observeTerm message.term) sender message env henv with
      hold | hnew
    · rw [outgoing_observeTerm] at hold
      exact Or.inl hold
    · exact Or.inr hnew

/-- **Only a leader claims to be one**, and only of its own term. -/
theorem leads_of_leadership (hold : n.outgoing = []) {env : Envelope}
    (henv : env ∈ (n.input e).outgoing) {l : NodeId} {T : ℕ}
    (h : env.message.leadership = some (l, T)) :
    (n.input e).role = .leader ∧ (n.input e).currentTerm = T := by
  rcases eq_or_ne e .takeReady with rfl | he
  · rw [input, takeReady_eq] at henv
    cases henv
  · have hstamps := n.stamps_input he
    constructor
    · rcases n.claimsHonestly_input e env henv with hmem | hnone | hrole
      · rw [hold] at hmem
        cases hmem
      · cases hnone.symm.trans h
      · exact hrole
    · rw [hstamps.outgoing_eq, hold, List.nil_append] at henv
      exact (hstamps.term_eq env henv).symm.trans (Message.leadership_eq h).2

end RaftNode

end Ferrium
