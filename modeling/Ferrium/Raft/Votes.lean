import Ferrium.Lib.Run
import Ferrium.Raft.Effects

/-!
# The votes of a single node

What a node does with votes, its own and those it counts, whatever calls it gets and whatever the
messages say. `ElectionStep` lists what one call can do to the role, the term and the votes; `Casts`
says which votes it can cast.

A node that counts itself elected has counted a majority of votes of its term. A node that has voted
does not vote for another candidate in that term, as long as it has the vote on record; and a
message of the leader of the term deletes the record (`KeepsVote`).

## Main results

* `RaftNode.electedByMajority`: a leader has the votes of a majority;
* `Journal.votesOnce_of_keepsVotes`: one vote per term, if no record of a vote is deleted;
* `Journal.not_votesOnce_forgottenVote`: not in general.
-/

namespace Ferrium

/-- A call of the interface of a node. -/
inductive Input
  | tick
  | propose (command : List UInt8)
  | takeReady
  | step (sender : NodeId) (message : Message)
  deriving DecidableEq, Repr

namespace RaftNode

variable {n n' : RaftNode} {e : Input} {inputs : List Input} {out : List Envelope}

/-- The node after a call. -/
def input (n : RaftNode) : Input → RaftNode
  | .tick => n.tick
  | .propose command => (n.propose command).2
  | .takeReady => n.takeReady
  | .step sender message => n.step sender message

/-- The node after a sequence of calls. -/
def after (n : RaftNode) (inputs : List Input) : RaftNode :=
  Run.exec input n inputs

/-! ### What a call does to role, term and votes -/

/-- The node keeps its name and its peers. -/
structure SameIdentity (n n' : RaftNode) : Prop where
  id_eq : n'.id = n.id
  peers_eq : n'.peers = n.peers

/-- An election has just been started: the only vote counted is the node's own, and it is leader
only if that is a majority. -/
structure Stands (n n' : RaftNode) : Prop extends SameIdentity n n' where
  voted : n'.votedFor = some n.id
  granted_eq : n'.votes.granted = {n.id}
  elected : n'.role = .leader → n'.majority ≤ n'.votes.count

/-- The vote `m` has just been counted by `n`, which was a candidate, and is leader only if there is
a majority now. -/
structure Counts (n : RaftNode) (m : RequestVoteReply) (n' : RaftNode) : Prop extends
    SameIdentity n n' where
  role : n.role = .candidate
  term : m.term = n.currentTerm
  granted : m.voteGranted = true
  term_eq : n'.currentTerm = n.currentTerm
  voted : n'.votedFor = n.votedFor
  granted_eq : n'.votes.granted = insert m.voterId n.votes.granted
  elected : n'.role = .leader → n'.majority ≤ n'.votes.count

/-- A call `e` takes the node `n` to `n'`: nothing changes that concerns elections, or `n'` is a
follower, or it has started an election, or it has counted a vote. -/
inductive ElectionStep (n : RaftNode) (e : Input) (n' : RaftNode) : Prop
  | keeps (same : SameIdentity n n') (role_eq : n'.role = n.role)
      (term_eq : n'.currentTerm = n.currentTerm)
      (voted : ∀ a ∈ n.votedFor, n'.votedFor = some a) (votes_eq : n'.votes = n.votes)
  | follows (same : SameIdentity n n') (role_eq : n'.role = .follower)
  | stands (h : n.Stands n')
  | counts (sender : NodeId) (m : RequestVoteReply)
      (input_eq : e = .step sender (.requestVoteReply m)) (h : n.Counts m n')

theorem stands_becomeCandidate (n : RaftNode) : n.Stands n.becomeCandidate := by
  unfold becomeCandidate
  dsimp only
  split
  · next hmajority =>
    unfold becomeLeader
    rw [advanceCommit_eq, broadcastAppend_eq]
    exact ⟨⟨rfl, rfl⟩, rfl, rfl, fun _ => hmajority⟩
  · rw [requestVotes_eq]
    refine ⟨⟨rfl, rfl⟩, rfl, rfl, fun hleader => ?_⟩
    cases hleader

theorem electionStep_tick (n : RaftNode) : ElectionStep n .tick n.tick := by
  rcases n.tick_cases with ⟨-, heq⟩ | ⟨-, -, heq⟩ | ⟨-, heq⟩ | ⟨-, heq⟩ <;> rw [heq]
  · exact .keeps ⟨rfl, rfl⟩ rfl rfl (fun _ h => h) rfl
  · rw [broadcastAppend_eq]
    exact .keeps ⟨rfl, rfl⟩ rfl rfl (fun _ h => h) rfl
  · exact .keeps ⟨rfl, rfl⟩ rfl rfl (fun _ h => h) rfl
  · -- the timer has nothing to do with what is compared
    have h := stands_becomeCandidate { n with electionElapsed := n.electionElapsed + 1 }
    exact .stands { h with }

theorem electionStep_propose (n : RaftNode) (command : List UInt8) :
    ElectionStep n (.propose command) (n.propose command).2 := by
  unfold propose
  split
  · exact .keeps ⟨rfl, rfl⟩ rfl rfl (fun _ h => h) rfl
  · dsimp only
    rw [advanceCommit_eq, broadcastAppend_eq]
    exact .keeps ⟨rfl, rfl⟩ rfl rfl (fun _ h => h) rfl

theorem electionStep_takeReady (n : RaftNode) : ElectionStep n .takeReady n.takeReady := by
  rw [takeReady_eq]
  exact .keeps ⟨rfl, rfl⟩ rfl rfl (fun _ h => h) rfl

/-- A vote is counted by a candidate, if it is one for the term at hand. -/
theorem electionStep_handleRequestVoteReply (n : RaftNode) (sender : NodeId)
    (m : RequestVoteReply) :
    ElectionStep n (.step sender (.requestVoteReply m)) (n.handleRequestVoteReply m) := by
  unfold handleRequestVoteReply
  split
  · exact .keeps ⟨rfl, rfl⟩ rfl rfl (fun _ h => h) rfl
  · next hopen =>
    rw [not_or, not_not, not_not] at hopen
    obtain ⟨hrole, hterm⟩ := hopen
    split
    · next hgranted =>
      dsimp only
      split
      · next hmajority =>
        unfold becomeLeader
        rw [advanceCommit_eq, broadcastAppend_eq]
        exact .counts sender m rfl
          ⟨⟨rfl, rfl⟩, hrole, hterm, hgranted, rfl, rfl, rfl, fun _ => hmajority⟩
      · refine .counts sender m rfl
          ⟨⟨rfl, rfl⟩, hrole, hterm, hgranted, rfl, rfl, rfl, fun hleader => ?_⟩
        rw [hrole] at hleader
        cases hleader
    · exact .keeps ⟨rfl, rfl⟩ rfl rfl (fun _ h => h) rfl

/-- A node that has voted grants its vote only to the same candidate. -/
theorem votedFor_of_grantsVote {m : RequestVote} (h : n.grantsVote m = true) :
    ∀ a ∈ n.votedFor, a = m.candidateId := by
  intro a ha
  rw [Option.mem_def] at ha
  unfold grantsVote at h
  rw [ha] at h
  simp only [Bool.and_eq_true, Bool.or_eq_true, beq_iff_eq, reduceCtorEq, Option.some.injEq,
    false_or] at h
  exact h.1.2

theorem electionStep_handle (n : RaftNode) (sender : NodeId) (message : Message) :
    ElectionStep n (.step sender message) (n.handle sender message) := by
  cases message with
  | requestVote m =>
    simp only [handle, handleRequestVote]
    split
    · next hgrants =>
      refine .keeps ⟨rfl, rfl⟩ rfl rfl (fun a ha => ?_) rfl
      rw [votedFor_of_grantsVote hgrants a ha]
      rfl
    · exact .keeps ⟨rfl, rfl⟩ rfl rfl (fun _ h => h) rfl
  | requestVoteReply m => exact electionStep_handleRequestVoteReply n sender m
  | appendEntries m =>
    simp only [handle, handleAppendEntries]
    split
    · exact .keeps ⟨rfl, rfl⟩ rfl rfl (fun _ h => h) rfl
    · split <;> exact .follows ⟨rfl, rfl⟩ rfl
  | appendEntriesReply m =>
    simp only [handle, handleAppendEntriesReply]
    split
    · exact .keeps ⟨rfl, rfl⟩ rfl rfl (fun _ h => h) rfl
    · split
      · rw [advanceCommit_eq]
        exact .keeps ⟨rfl, rfl⟩ rfl rfl (fun _ h => h) rfl
      · exact .keeps ⟨rfl, rfl⟩ rfl rfl (fun _ h => h) rfl
  | installSnapshot m =>
    simp only [handle, handleInstallSnapshot]
    split
    · exact .keeps ⟨rfl, rfl⟩ rfl rfl (fun _ h => h) rfl
    · exact .follows ⟨rfl, rfl⟩ rfl
  | installSnapshotReply m =>
    simp only [handle, handleInstallSnapshotReply]
    split <;> exact .keeps ⟨rfl, rfl⟩ rfl rfl (fun _ h => h) rfl

theorem electionStep_step (n : RaftNode) (sender : NodeId) (message : Message) :
    ElectionStep n (.step sender message) (n.step sender message) := by
  have hhandle := electionStep_handle (n.observeTerm message.term) sender message
  unfold step
  unfold observeTerm at hhandle ⊢
  split at hhandle
  · next hlt =>
    rw [if_pos hlt]
    -- the node has stepped down first, and a follower counts no votes
    cases hhandle with
    | keeps same role_eq => exact .follows { same with } role_eq
    | follows same role_eq => exact .follows { same with } role_eq
    | stands h => exact .stands { h with }
    | counts sender m input_eq h => cases h.role
  · next hle =>
    rw [if_neg hle]
    exact hhandle

/-- **What a call can do** to the role, the term and the votes of a node. -/
theorem electionStep_input (n : RaftNode) (e : Input) : ElectionStep n e (n.input e) := by
  cases e with
  | tick => exact electionStep_tick n
  | propose command => exact electionStep_propose n command
  | takeReady => exact electionStep_takeReady n
  | step sender message => exact electionStep_step n sender message

theorem ElectionStep.sameIdentity (h : ElectionStep n e n') : SameIdentity n n' := by
  cases h with
  | keeps same => exact same
  | follows same => exact same
  | stands h => exact h.toSameIdentity
  | counts sender m input_eq h => exact h.toSameIdentity

/-- A node that stands for election or is in office has voted for itself. -/
def VotesForItself (n : RaftNode) : Prop :=
  n.role ≠ .follower → n.votedFor = some n.id

theorem ElectionStep.votesForItself (h : ElectionStep n e n') (hself : n.VotesForItself) :
    n'.VotesForItself := by
  intro hrole
  rw [h.sameIdentity.id_eq]
  cases h with
  | keeps same role_eq term_eq voted => exact voted n.id (hself (role_eq ▸ hrole))
  | follows same role_eq => exact absurd role_eq hrole
  | stands h => exact h.voted
  | counts sender m input_eq h =>
    rw [h.voted]
    refine hself ?_
    rw [h.role]
    decide

/-! ### Leaders are elected by a majority -/

/-- In the course of the calls the node has received a vote of `v` for the term `T`, in which it was
a candidate then. -/
def ReceivedVote (n : RaftNode) (inputs : List Input) (v : NodeId) (T : ℕ) : Prop :=
  ∃ before sender m, before ++ [.step sender (.requestVoteReply m)] <+: inputs ∧
    m.voterId = v ∧ m.voteGranted = true ∧ m.term = T ∧
    (n.after before).role = .candidate ∧ (n.after before).currentTerm = T

theorem ReceivedVote.of_isPrefix {inputs' : List Input} {v : NodeId} {T : ℕ}
    (h : ReceivedVote n inputs v T) (hp : inputs <+: inputs') : ReceivedVote n inputs' v T := by
  obtain ⟨before, sender, m, hbefore, hm⟩ := h
  exact ⟨before, sender, m, hbefore.trans hp, hm⟩

/-- The votes that a node has counted in an election were received in it. -/
structure Campaigns (n : RaftNode) (inputs : List Input) : Prop where
  same : SameIdentity n (n.after inputs)
  self_voted : (n.after inputs).VotesForItself
  self_mem : (n.after inputs).role ≠ .follower → n.id ∈ (n.after inputs).votes.granted
  received : (n.after inputs).role ≠ .follower → ∀ v ∈ (n.after inputs).votes.granted, v ≠ n.id →
    ReceivedVote n inputs v (n.after inputs).currentTerm
  elected : (n.after inputs).role = .leader →
    (n.after inputs).majority ≤ (n.after inputs).votes.count

theorem after_append_singleton (n : RaftNode) (inputs : List Input) (e : Input) :
    n.after (inputs ++ [e]) = (n.after inputs).input e :=
  Run.exec_append n inputs [e]

theorem majority_eq (h : SameIdentity n n') : n'.majority = n.majority := by
  unfold majority clusterSize
  rw [h.peers_eq]

/-- **A call keeps the account of the votes.** -/
theorem Campaigns.input (h : Campaigns n inputs) (e : Input) : Campaigns n (inputs ++ [e]) := by
  have hstep := electionStep_input (n.after inputs) e
  rw [← after_append_singleton] at hstep
  have hsame := hstep.sameIdentity
  have hlater : inputs <+: inputs ++ [e] := List.prefix_append _ _
  have hself := hstep.votesForItself h.self_voted
  have hid : (n.after inputs).id = n.id := h.same.id_eq
  have hidentity : SameIdentity n (n.after (inputs ++ [e])) :=
    ⟨hsame.id_eq.trans hid, hsame.peers_eq.trans h.same.peers_eq⟩
  cases hstep with
  | keeps same role_eq term_eq voted votes_eq =>
    refine ⟨hidentity, hself, fun hrole => ?_, fun hrole v hv hne => ?_, fun hleader => ?_⟩
    · rw [votes_eq]
      exact h.self_mem (role_eq ▸ hrole)
    · rw [votes_eq] at hv
      rw [term_eq]
      exact (h.received (role_eq ▸ hrole) v hv hne).of_isPrefix hlater
    · rw [majority_eq same, votes_eq]
      exact h.elected (role_eq ▸ hleader)
  | follows same role_eq =>
    refine ⟨hidentity, hself, fun hrole => absurd role_eq hrole,
      fun hrole => absurd role_eq hrole, fun hleader => ?_⟩
    rw [role_eq] at hleader
    cases hleader
  | stands hs =>
    -- the tally has been cleared, so that no vote of an earlier term is left in it
    have hgranted : (n.after (inputs ++ [e])).votes.granted = {n.id} := by
      rw [hs.granted_eq, hid]
    refine ⟨hidentity, hself, fun _ => ?_, fun _ v hv hne => ?_, hs.elected⟩
    · rw [hgranted]
      exact Finset.mem_singleton_self n.id
    · rw [hgranted] at hv
      exact absurd (Finset.mem_singleton.mp hv) hne
  | counts sender m input_eq hc =>
    have hrole : (n.after inputs).role ≠ .follower := by
      rw [hc.role]
      decide
    refine ⟨hidentity, hself, fun _ => ?_, fun _ v hv hne => ?_, hc.elected⟩
    · rw [hc.granted_eq]
      exact Finset.mem_insert_of_mem (h.self_mem hrole)
    · rw [hc.granted_eq] at hv
      rw [hc.term_eq]
      rcases Finset.mem_insert.mp hv with rfl | hold
      · refine ⟨inputs, sender, m, ?_, rfl, hc.granted, hc.term, hc.role, rfl⟩
        rw [input_eq]
      · exact (h.received hrole v hold hne).of_isPrefix hlater

theorem campaigns_new (id : NodeId) (peers : List NodeId) (config : RaftConfig) (rng : StdRng)
    (inputs : List Input) : Campaigns (RaftNode.new id peers config rng) inputs := by
  induction inputs using List.reverseRecOn with
  | nil =>
    refine ⟨⟨rfl, rfl⟩, fun hrole => absurd rfl hrole, fun hrole => absurd rfl hrole,
      fun hrole => absurd rfl hrole, fun hleader => ?_⟩
    cases hleader
  | append_singleton inputs e ih => exact ih.input e

/-- The voters of the votes for term `T` among the calls. -/
def voters (inputs : List Input) (T : ℕ) : Finset NodeId :=
  (inputs.filterMap fun e => match e with
    | .step _ (.requestVoteReply m) =>
      if m.voteGranted = true ∧ m.term = T then some m.voterId else none
    | _ => none).toFinset

theorem ReceivedVote.mem_voters {v : NodeId} {T : ℕ} (h : ReceivedVote n inputs v T) :
    v ∈ voters inputs T := by
  obtain ⟨before, sender, m, hp, rfl, hgranted, hterm, -⟩ := h
  have hmem : Input.step sender (.requestVoteReply m) ∈ inputs :=
    hp.subset (List.mem_append_right _ List.mem_cons_self)
  rw [voters, List.mem_toFinset, List.mem_filterMap]
  exact ⟨_, hmem, if_pos ⟨hgranted, hterm⟩⟩

/-- What it takes to be elected: a candidate or leader has voted for itself; a leader has its own
vote and those of others that it has received as a candidate of its term, which together are a
majority; and a node that receives too few votes for a term is not its leader at any moment. -/
structure ElectedByMajority (n : RaftNode) (inputs : List Input) : Prop where
  voted_for : (n.after inputs).role = .candidate ∨ (n.after inputs).role = .leader →
    (n.after inputs).votedFor = some (n.after inputs).id
  majority : (n.after inputs).role = .leader →
    ∃ Q : Finset NodeId, (n.after inputs).majority ≤ Q.card ∧ (n.after inputs).id ∈ Q ∧
      ∀ v ∈ Q, v ≠ (n.after inputs).id →
        ReceivedVote n inputs v (n.after inputs).currentTerm
  minority : ∀ T, ((voters inputs T).erase n.id).card < n.majority - 1 →
    ∀ before, before <+: inputs →
      ¬((n.after before).role = .leader ∧ (n.after before).currentTerm = T)

/-- **Leaders are elected by a majority of current-term votes**, whatever calls a node gets. -/
theorem electedByMajority (id : NodeId) (peers : List NodeId) (config : RaftConfig) (rng : StdRng)
    (inputs : List Input) : ElectedByMajority (RaftNode.new id peers config rng) inputs := by
  have h := campaigns_new id peers config rng
  generalize RaftNode.new id peers config rng = n at h ⊢
  refine ⟨fun hrole => ?_, fun hleader => ?_, fun T hfew before hp ⟨hleader, hterm⟩ => ?_⟩
  · refine (h inputs).self_voted ?_
    rcases hrole with hrole | hrole <;> simp [hrole]
  · have hrole : (n.after inputs).role ≠ .follower := by simp [hleader]
    rw [(h inputs).same.id_eq]
    exact ⟨_, (h inputs).elected hleader, (h inputs).self_mem hrole, (h inputs).received hrole⟩
  · -- the others among the counted votes have all been received for this term
    have hrole : (n.after before).role ≠ .follower := by simp [hleader]
    have hsub : (n.after before).votes.granted.erase n.id ⊆ (voters inputs T).erase n.id := by
      intro v hv
      obtain ⟨hne, hmem⟩ := Finset.mem_erase.mp hv
      have hreceived := (h before).received hrole v hmem hne
      rw [hterm] at hreceived
      exact Finset.mem_erase.mpr ⟨hne, (hreceived.of_isPrefix hp).mem_voters⟩
    have hcard := Finset.card_le_card hsub
    rw [Finset.card_erase_of_mem ((h before).self_mem hrole)] at hcard
    have hmajority := (h before).elected hleader
    rw [majority_eq (h before).same, VoteTally.count] at hmajority
    omega

/-- One of three nodes, which calls an election at every tick. -/
def oneOfThree : RaftNode :=
  RaftNode.new "n2" ["n1", "n3"]
    { heartbeatTicks := 1
      electionTimeoutMin := 1
      electionTimeoutMax := 1
      snapshotThreshold := 100
      timeout_le := Nat.le_refl 1 }
    ⟨fun _ => 0⟩

-- neither a late vote nor a vote of its own makes a candidate leader
example :
    (oneOfThree.after [.tick, .tick, .step "n1" (.requestVoteReply ⟨1, "n1", true⟩),
      .step "n2" (.requestVoteReply ⟨2, "n2", true⟩)]).role = .candidate := by
  decide

/-! ### The votes that a node casts -/

/-- From `n` to `n'` the messages `out` are produced. The votes among them are those of the term of
`n'`, for the candidate that is on record; within a term the record is not changed. -/
structure Produces (n n' : RaftNode) (out : List Envelope) : Prop where
  term_le : n.currentTerm ≤ n'.currentTerm
  kept : n'.currentTerm = n.currentTerm → ∀ a ∈ n.votedFor, n'.votedFor = some a
  cast : ∀ env ∈ out, ∀ T a, env.ballot = some (T, a) → T = n'.currentTerm ∧ n'.votedFor = some a

/-- The messages that are produced are put into the queue. -/
structure Casts (n n' : RaftNode) (out : List Envelope) : Prop extends Produces n n' out where
  outgoing_eq : n'.outgoing = n.outgoing ++ out

/-- Messages without votes are added, and nothing else changes that concerns votes. -/
theorem casts_of_quiet (hout : n'.outgoing = n.outgoing ++ out)
    (hterm : n'.currentTerm = n.currentTerm) (hvoted : n'.votedFor = n.votedFor)
    (hquiet : ∀ env ∈ out, env.ballot = none) : Casts n n' out where
  outgoing_eq := hout
  term_le := hterm.ge
  kept _ a ha := hvoted.trans ha
  cast env henv T a hballot := by
    rw [hquiet env henv] at hballot
    cases hballot

theorem casts_of_silent (hout : n'.outgoing = n.outgoing)
    (hterm : n'.currentTerm = n.currentTerm) (hvoted : n'.votedFor = n.votedFor) :
    Casts n n' [] :=
  casts_of_quiet (hout.trans (List.append_nil _).symm) hterm hvoted
    fun _ henv => absurd henv List.not_mem_nil

/-- A change without messages may come first. -/
theorem Casts.trans {n'' : RaftNode} (h : Casts n n' []) (h' : Casts n' n'' out) :
    Casts n n'' out where
  outgoing_eq := by rw [h'.outgoing_eq, h.outgoing_eq, List.append_nil]
  term_le := h.term_le.trans h'.term_le
  kept hterm a ha := by
    -- the term has not changed in between either
    have h₁ := h.term_le
    have h₂ := h'.term_le
    exact h'.kept (by omega) a (h.kept (by omega) a ha)
  cast := h'.cast

theorem casts_broadcastAppend (n : RaftNode) :
    Casts n n.broadcastAppend.advanceCommit
      (n.peers.map fun peer => ⟨peer, n.appendFor peer⟩) := by
  rw [advanceCommit_eq, broadcastAppend_eq]
  refine casts_of_quiet rfl rfl rfl fun env henv => ?_
  obtain ⟨peer, -, rfl⟩ := List.mem_map.mp henv
  exact ballot_appendFor n peer peer

theorem casts_becomeCandidate (n : RaftNode) : ∃ out, Casts n n.becomeCandidate out := by
  have hstood : Casts n n.standForElection [] :=
    { outgoing_eq := (List.append_nil _).symm
      term_le := Nat.le_succ _
      kept := fun hterm => absurd hterm (Nat.succ_ne_self _)
      cast := fun _ henv => absurd henv List.not_mem_nil }
  unfold becomeCandidate
  dsimp only
  split
  · exact ⟨_, hstood.trans { casts_broadcastAppend n.standForElection.takeOffice with }⟩
  · rw [requestVotes_eq]
    refine ⟨_, hstood.trans ⟨⟨le_rfl, fun _ _ ha => ha, fun env henv T a hballot => ?_⟩, rfl⟩⟩
    obtain ⟨peer, -, rfl⟩ := List.mem_map.mp henv
    obtain ⟨rfl, rfl⟩ := Prod.mk.inj (Option.some.inj hballot)
    exact ⟨rfl, rfl⟩

theorem casts_tick (n : RaftNode) : ∃ out, Casts n n.tick out := by
  rcases n.tick_cases with ⟨-, heq⟩ | ⟨-, -, heq⟩ | ⟨-, heq⟩ | ⟨-, heq⟩ <;> rw [heq]
  · exact ⟨[], casts_of_silent rfl rfl rfl⟩
  · rw [broadcastAppend_eq]
    refine ⟨_, casts_of_quiet rfl rfl rfl fun env henv => ?_⟩
    obtain ⟨peer, -, rfl⟩ := List.mem_map.mp henv
    exact ballot_appendFor _ peer peer
  · exact ⟨[], casts_of_silent rfl rfl rfl⟩
  · obtain ⟨out, h⟩ := casts_becomeCandidate { n with electionElapsed := n.electionElapsed + 1 }
    exact ⟨out, { h with }⟩

theorem casts_propose (n : RaftNode) (command : List UInt8) :
    ∃ out, Casts n (n.propose command).2 out := by
  unfold propose
  split
  · exact ⟨[], casts_of_silent rfl rfl rfl⟩
  · exact ⟨_, { casts_broadcastAppend
      { n with log := n.log.append [n.newEntry command] } with }⟩

/-- A message of the leader of the term at hand does not find a vote on record. -/
def KeepsVote (n : RaftNode) : Input → Prop
  | .step _ (.appendEntries m) => m.term = n.currentTerm → n.votedFor = none
  | .step _ (.installSnapshot m) => m.term = n.currentTerm → n.votedFor = none
  | _ => True

instance decidableKeepsVote (n : RaftNode) : ∀ e, Decidable (KeepsVote n e)
  | .step _ (.appendEntries m) =>
    inferInstanceAs (Decidable (m.term = n.currentTerm → n.votedFor = none))
  | .step _ (.installSnapshot m) =>
    inferInstanceAs (Decidable (m.term = n.currentTerm → n.votedFor = none))
  | .tick | .propose _ | .takeReady => isTrue trivial
  | .step _ (.requestVote _) | .step _ (.requestVoteReply _) | .step _ (.appendEntriesReply _)
  | .step _ (.installSnapshotReply _) => isTrue trivial

/-- Following the leader of the term at hand costs the record of the vote. -/
theorem casts_becomeFollower {leader : Option NodeId} {T : ℕ} (hterm : T = n.currentTerm)
    (hkeep : n.votedFor = none) : Casts n (n.becomeFollower T leader) [] where
  outgoing_eq := (List.append_nil _).symm
  term_le := hterm.ge
  kept _ a ha := by
    rw [hkeep] at ha
    cases ha
  cast _ henv := absurd henv List.not_mem_nil

/-- A reply without a vote. -/
theorem casts_send (n : RaftNode) (dst : NodeId) {message : Message}
    (hquiet : (Envelope.mk dst message).ballot = none) :
    Casts n (n.send dst message) [⟨dst, message⟩] :=
  casts_of_quiet rfl rfl rfl fun env henv => by rwa [List.mem_singleton.mp henv]

theorem casts_handleRequestVote (n : RaftNode) (m : RequestVote) :
    ∃ out, Casts n (n.handleRequestVote m) out := by
  unfold handleRequestVote
  by_cases hgrants : n.grantsVote m = true
  · have hkept := votedFor_of_grantsVote hgrants
    simp only [hgrants, if_true]
    refine ⟨_, ⟨⟨le_rfl, fun _ a ha => ?_, fun env henv T a hballot => ?_⟩, rfl⟩⟩
    · rw [hkept a ha]
      rfl
    · rw [List.mem_singleton.mp henv] at hballot
      obtain ⟨rfl, rfl⟩ := Prod.mk.inj (Option.some.inj hballot)
      exact ⟨rfl, rfl⟩
  · simp only [hgrants, Bool.false_eq_true, if_false]
    exact ⟨_, casts_send n m.candidateId rfl⟩

/-- Handling a message of a term that the node has reached. -/
theorem casts_handle (n : RaftNode) (sender : NodeId) {message : Message}
    (hterm : message.term ≤ n.currentTerm) (hkeep : n.KeepsVote (.step sender message)) :
    ∃ out, Casts n (n.handle sender message) out := by
  -- a reply that carries no vote
  have hreply : ∀ {n' : RaftNode} {env : Envelope}, n'.outgoing = n.outgoing ++ [env] →
      n'.currentTerm = n.currentTerm → n'.votedFor = n.votedFor → env.ballot = none →
      Casts n n' [env] := fun hout hcur hvoted hquiet =>
    casts_of_quiet hout hcur hvoted fun env' henv => by rwa [List.mem_singleton.mp henv]
  cases message with
  | requestVote m => exact casts_handleRequestVote n m
  | requestVoteReply m =>
    simp only [handle, handleRequestVoteReply]
    split
    · exact ⟨[], casts_of_silent rfl rfl rfl⟩
    · split
      · split
        · exact ⟨_, { casts_broadcastAppend
            ({ n with votes := n.votes.record m.voterId } : RaftNode).takeOffice with }⟩
        · exact ⟨[], casts_of_silent rfl rfl rfl⟩
      · exact ⟨[], casts_of_silent rfl rfl rfl⟩
  | appendEntries m =>
    simp only [handle, handleAppendEntries]
    split
    · exact ⟨_, casts_send n m.leaderId rfl⟩
    · next hcur =>
      have heq : m.term = n.currentTerm := le_antisymm hterm (not_lt.mp hcur)
      have hfollows : Casts n (n.becomeFollower m.term (some m.leaderId)) [] :=
        casts_becomeFollower heq (hkeep heq)
      split
      · exact ⟨_, hfollows.trans (casts_of_quiet rfl rfl rfl fun env henv => by
          rw [List.mem_singleton.mp henv]; rfl)⟩
      · exact ⟨_, hfollows.trans (casts_send _ m.leaderId rfl)⟩
  | appendEntriesReply m =>
    simp only [handle, handleAppendEntriesReply]
    split
    · exact ⟨[], casts_of_silent rfl rfl rfl⟩
    · split
      · rw [advanceCommit_eq]
        exact ⟨[], casts_of_silent rfl rfl rfl⟩
      · exact ⟨_, hreply rfl rfl rfl (ballot_appendFor _ sender sender)⟩
  | installSnapshot m =>
    simp only [handle, handleInstallSnapshot]
    split
    · exact ⟨[], casts_of_silent rfl rfl rfl⟩
    · next hcur =>
      have heq : m.term = n.currentTerm := le_antisymm hterm (not_lt.mp hcur)
      have hfollows : Casts n (n.becomeFollower m.term (some m.leaderId)) [] :=
        casts_becomeFollower heq (hkeep heq)
      exact ⟨_, hfollows.trans (casts_of_quiet rfl rfl rfl fun env henv => by
        rw [List.mem_singleton.mp henv]; rfl)⟩
  | installSnapshotReply m =>
    simp only [handle, handleInstallSnapshotReply]
    split <;> exact ⟨[], casts_of_silent rfl rfl rfl⟩

theorem casts_step (n : RaftNode) (sender : NodeId) {message : Message}
    (hkeep : n.KeepsVote (.step sender message)) :
    ∃ out, Casts n (n.step sender message) out := by
  unfold step observeTerm
  split
  · next hlt =>
    -- in the new term there is no vote on record
    have hdown : Casts n (n.becomeFollower message.term none) [] :=
      { outgoing_eq := (List.append_nil _).symm
        term_le := hlt.le
        kept := fun hterm => absurd hterm hlt.ne'
        cast := fun _ henv => absurd henv List.not_mem_nil }
    have hnone : (n.becomeFollower message.term none).KeepsVote (.step sender message) := by
      cases message <;> first | trivial | exact fun _ => rfl
    obtain ⟨out, h⟩ := casts_handle (n.becomeFollower message.term none) sender le_rfl hnone
    exact ⟨out, hdown.trans h⟩
  · next hle => exact casts_handle n sender (not_lt.mp hle) hkeep

end RaftNode

/-- A node with the messages that were drained from it. -/
structure Journal where
  node : RaftNode
  drained : List Envelope

namespace Journal

variable {j : Journal} {e : Input} {inputs : List Input} {T : ℕ} {a b : NodeId}

/-- Nothing has been drained yet. -/
def start (n : RaftNode) : Journal := ⟨n, []⟩

/-- The journal after a call. -/
def step (j : Journal) (e : Input) : Journal where
  node := j.node.input e
  drained := match e with
    | .takeReady => j.drained ++ j.node.ready.messages
    | .tick | .propose _ | .step _ _ => j.drained

/-- The journal after a sequence of calls. -/
def after (n : RaftNode) (inputs : List Input) : Journal :=
  Run.exec step (start n) inputs

/-- Everything that the node has produced so far. -/
def emitted (j : Journal) : List Envelope :=
  j.drained ++ j.node.outgoing

theorem node_after (n : RaftNode) (inputs : List Input) :
    (after n inputs).node = n.after inputs := by
  induction inputs using List.reverseRecOn with
  | nil => rfl
  | append_singleton inputs e ih =>
    rw [RaftNode.after_append_singleton, ← ih]
    exact congrArg Journal.node (Run.exec_append (start n) inputs [e])

/-- **What a call adds** to what the node has produced. -/
theorem exists_produces (hkeep : j.node.KeepsVote e) :
    ∃ out, (j.step e).emitted = j.emitted ++ out ∧ j.node.Produces (j.step e).node out := by
  -- unless it drains the queue, a call leaves what was drained
  have hqueue : ∀ {n' : RaftNode}, (∃ out, j.node.Casts n' out) →
      ∃ out, (Journal.mk n' j.drained).emitted = j.emitted ++ out ∧ j.node.Produces n' out := by
    rintro n' ⟨out, h⟩
    refine ⟨out, ?_, h.toProduces⟩
    rw [emitted, h.outgoing_eq, ← List.append_assoc]
    rfl
  cases e with
  | tick => exact hqueue (RaftNode.casts_tick _)
  | propose command => exact hqueue (RaftNode.casts_propose _ command)
  | step sender message => exact hqueue (RaftNode.casts_step _ sender hkeep)
  | takeReady =>
    refine ⟨[], ?_, ?_⟩
    · show (j.drained ++ j.node.ready.messages) ++ [] = (j.drained ++ j.node.outgoing) ++ []
      rw [RaftNode.messages_ready]
    · show j.node.Produces j.node.takeReady []
      rw [RaftNode.takeReady_eq]
      exact ⟨le_rfl, fun _ _ ha => ha, fun _ henv => absurd henv List.not_mem_nil⟩

/-- In term `T` the node has voted for `a`. -/
def Cast (j : Journal) (T : ℕ) (a : NodeId) : Prop :=
  ∃ env ∈ j.emitted, env.ballot = some (T, a)

/-- In term `T`, which the node has reached, it is bound to `a`: that is the vote on record if it
is still in this term, and it has not voted for anybody else. -/
structure Bound (T : ℕ) (a : NodeId) (j : Journal) : Prop where
  term_le : T ≤ j.node.currentTerm
  record : j.node.currentTerm = T → j.node.votedFor = some a
  only : ∀ b, j.Cast T b → b = a

/-- The votes after a call are those from before and those that it adds. -/
theorem cast_step_cases {out : List Envelope} (hout : (j.step e).emitted = j.emitted ++ out)
    (hp : j.node.Produces (j.step e).node out) (h : (j.step e).Cast T a) :
    j.Cast T a ∨ (T = (j.step e).node.currentTerm ∧ (j.step e).node.votedFor = some a) := by
  obtain ⟨env, henv, hballot⟩ := h
  rw [hout] at henv
  rcases List.mem_append.mp henv with hold | hnew
  · exact Or.inl ⟨env, hold, hballot⟩
  · exact Or.inr (hp.cast env hnew T a hballot)

/-- A node stays bound. -/
theorem Bound.step (h : Bound T a j) (hkeep : j.node.KeepsVote e) : Bound T a (j.step e) := by
  obtain ⟨out, hout, hp⟩ := exists_produces hkeep
  have hle := h.term_le
  have hrecord : (j.step e).node.currentTerm = T → (j.step e).node.votedFor = some a := by
    intro hterm
    have hmono := hp.term_le
    exact hp.kept (by omega) a (h.record (by omega))
  refine ⟨hle.trans hp.term_le, hrecord, fun b hb => ?_⟩
  rcases cast_step_cases hout hp hb with hold | ⟨hterm, hvoted⟩
  · exact h.only b hold
  · rw [hrecord hterm.symm] at hvoted
    exact (Option.some.inj hvoted).symm

/-- A node is bound by the votes that it has cast. -/
def Binding (j : Journal) : Prop :=
  ∀ T a, j.Cast T a → Bound T a j

/-- **A call that deletes no vote on record** binds the node to the votes that it adds. -/
theorem Binding.step (h : Binding j) (hkeep : j.node.KeepsVote e) : Binding (j.step e) := by
  obtain ⟨out, hout, hp⟩ := exists_produces hkeep
  intro T a ha
  rcases cast_step_cases hout hp ha with hold | ⟨rfl, hvoted⟩
  · exact (h T a hold).step hkeep
  · refine ⟨le_rfl, fun _ => hvoted, fun b hb => ?_⟩
    -- the record after the call is the only vote of its term, be it an old or a new one
    rcases cast_step_cases hout hp hb with hold | ⟨-, hvoted'⟩
    · have hb := ((h _ b hold).step hkeep).record rfl
      rw [hvoted] at hb
      exact (Option.some.inj hb).symm
    · rw [hvoted] at hvoted'
      exact (Option.some.inj hvoted').symm

/-- The reply grants a vote for term `T`. -/
def Grants (T : ℕ) (env : Envelope) : Prop :=
  ∃ m, env.message = .requestVoteReply m ∧ m.voteGranted = true ∧ m.term = T

/-- All votes that a node ever grants for a term go to the same candidate, and if it has been a
candidate itself in this term, to itself. -/
def VotesOnce (n : RaftNode) (inputs : List Input) : Prop :=
  ∀ T, ∀ env ∈ (after n inputs).emitted, Grants T env →
    (∀ env' ∈ (after n inputs).emitted, Grants T env' → env'.dst = env.dst) ∧
      ∀ before, before <+: inputs → (after n before).node.role = .candidate →
        (after n before).node.currentTerm = T → env.dst = n.id

theorem Grants.cast {env : Envelope} (h : Grants T env) (henv : env ∈ j.emitted) :
    j.Cast T env.dst := by
  obtain ⟨m, hmessage, hgranted, rfl⟩ := h
  refine ⟨env, henv, ?_⟩
  unfold Envelope.ballot
  rw [hmessage]
  exact if_pos hgranted

/-- The calls delete no vote on record. -/
def KeepsVotes (n : RaftNode) (inputs : List Input) : Prop :=
  Run.Guarded step (fun j e => j.node.KeepsVote e) (start n) inputs

instance decidableKeepsVotes (n : RaftNode) (inputs : List Input) :
    Decidable (KeepsVotes n inputs) :=
  inferInstanceAs (Decidable (Run.Guarded _ _ _ _))

/-- **One vote per term**, as long as no vote on record is deleted. -/
theorem votesOnce_of_keepsVotes {id : NodeId} {peers : List NodeId} {config : RaftConfig}
    {rng : StdRng} {inputs : List Input}
    (h : KeepsVotes (RaftNode.new id peers config rng) inputs) :
    VotesOnce (RaftNode.new id peers config rng) inputs := by
  have hself := RaftNode.campaigns_new id peers config rng
  have hbinding : Binding (start (RaftNode.new id peers config rng)) := by
    rintro T a ⟨env, henv, -⟩
    cases henv
  generalize RaftNode.new id peers config rng = n at h hself hbinding ⊢
  have hrun : ∀ before, before <+: inputs → Binding (after n before) := fun before hp =>
    Run.Guarded.invariant (fun _ _ hg hj => hj.step hg) (Run.Guarded.of_isPrefix h hp) hbinding
  intro T env henv hgrants
  refine ⟨fun env' henv' hgrants' => ?_, fun before hp hrole hterm => ?_⟩
  · exact (hrun inputs List.prefix_rfl T env.dst (hgrants.cast henv)).only _ (hgrants'.cast henv')
  · -- a candidate is bound to itself, and stays so until the end
    have hvoted : (after n before).node.votedFor = some n.id := by
      have hitself := (hself before).self_voted
      rw [← node_after] at hitself
      rw [hitself (by simp [hrole]), node_after, (hself before).same.id_eq]
    have hbound : Bound T n.id (after n before) := by
      refine ⟨hterm.ge, fun _ => hvoted, fun b hb => ?_⟩
      have hrecord := (hrun before hp T b hb).record hterm
      rw [hvoted] at hrecord
      exact (Option.some.inj hrecord).symm
    obtain ⟨rest, rfl, hrest⟩ := Run.Guarded.suffix h hp
    have hend : Bound T n.id (after n (before ++ rest)) := by
      unfold after
      rw [Run.exec_append]
      exact Run.Guarded.invariant (fun _ _ hg hj => hj.step hg) hrest hbound
    exact hend.only env.dst (hgrants.cast henv)

/-- A node votes for `n1` in term 1 and follows the leader `n3` of term 2, without having voted in
that term; then `n1`, which has not noticed, asks again for term 1. -/
def rememberedVote : List Input :=
  [.step "n1" (.requestVote ⟨1, "n1", 0, 0⟩), .takeReady,
    .step "n3" (.appendEntries ⟨2, "n3", 0, 0, [], 0⟩),
    .step "n1" (.requestVote ⟨1, "n1", 0, 0⟩), .step "n3" (.requestVote ⟨1, "n3", 0, 0⟩)]

theorem votesOnce_rememberedVote :
    KeepsVotes RaftNode.oneOfThree rememberedVote ∧
      ⟨"n1", .requestVoteReply ⟨1, "n2", true⟩⟩ ∈
        (after RaftNode.oneOfThree rememberedVote).emitted ∧
      VotesOnce RaftNode.oneOfThree rememberedVote :=
  ⟨by decide, by decide, votesOnce_of_keepsVotes (by decide)⟩

/-- A node votes for `n1`, which is elected; its heartbeat makes the node forget the vote, and it
votes for `n3` in the same term. -/
def forgottenVote : List Input :=
  [.step "n1" (.requestVote ⟨1, "n1", 0, 0⟩), .takeReady,
    .step "n1" (.appendEntries ⟨1, "n1", 0, 0, [], 0⟩),
    .step "n3" (.requestVote ⟨1, "n3", 0, 0⟩)]

/-- A candidate hears from the leader of its term, here by a snapshot, and votes for `n3` in the
same term. -/
def forgottenCandidacy : List Input :=
  [.tick, .takeReady, .step "n1" (.installSnapshot ⟨1, "n1", 1, 1, []⟩),
    .step "n3" (.requestVote ⟨1, "n3", 1, 1⟩)]

/-- A node votes for two candidates of one term, and for another candidate than itself. -/
theorem not_votesOnce_forgottenVote :
    ¬VotesOnce RaftNode.oneOfThree forgottenVote ∧
      ¬VotesOnce RaftNode.oneOfThree forgottenCandidacy := by
  have hgrants : ∀ dst, Grants 1 ⟨dst, .requestVoteReply ⟨1, "n2", true⟩⟩ := fun _ =>
    ⟨_, rfl, rfl, rfl⟩
  constructor
  · intro h
    obtain ⟨honce, -⟩ := h 1 ⟨"n1", .requestVoteReply ⟨1, "n2", true⟩⟩ (by decide) (hgrants _)
    have hsame := honce ⟨"n3", .requestVoteReply ⟨1, "n2", true⟩⟩ (by decide) (hgrants _)
    exact absurd hsame (by decide)
  · intro h
    obtain ⟨-, hself⟩ := h 1 ⟨"n3", .requestVoteReply ⟨1, "n2", true⟩⟩ (by decide) (hgrants _)
    exact absurd (hself [.tick] (by decide) (by decide) (by decide)) (by decide)

end Journal

end Ferrium
