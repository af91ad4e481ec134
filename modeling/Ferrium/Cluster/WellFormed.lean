import Ferrium.Cluster.Defs
import Ferrium.Raft.Effects

/-!
# Well-formed clusters

What holds in every run about addresses, terms and votes. Votes are read off the messages that
carry them (`Voted`), which are never taken back, so that a majority that has elected a leader
stays on record after the leader is gone.

A node forgets its vote when it hears from the leader of its term, and may then vote again in that
term. `RemembersVote` is the condition that it does not. The parts of the invariant that depend on
it are `voted_for` and `votes_once`.

## Main results

* `WellFormed.setNode`: what a node may be replaced by, from which the lemmas about the single
  operations of a node follow;
* `WellFormed.step`: every event keeps a cluster well-formed.
-/

namespace Ferrium

namespace Cluster

variable {S : Setup} {once : Prop} {c : Cluster} {i j u v : NodeId} {n : RaftNode}
variable {o : List Envelope}

/-- In term `T` node `u` has voted for `a`. -/
def Voted (c : Cluster) (u : NodeId) (T : ℕ) (a : NodeId) : Prop :=
  ∃ env ∈ c.emittedBy u, env.ballot = some (T, a)

/-- A node that is going to grant its vote has not voted for another candidate of that term. -/
def RemembersVote (c : Cluster) : Event → Prop
  | .deliver ⟨_, v, .requestVote m⟩ =>
    ((c.nodes v).observeTerm m.term).grantsVote m = true →
      ∀ env ∈ c.emittedBy v, ∀ b ∈ env.ballot, b.1 = m.term → b.2 = m.candidateId
  | _ => True

instance decidableRemembersVote (c : Cluster) : ∀ e, Decidable (RemembersVote c e)
  | .tick _ | .propose _ _ | .takeReady _ _ => isTrue trivial
  | .deliver ⟨_, v, .requestVote m⟩ =>
    inferInstanceAs (Decidable (((c.nodes v).observeTerm m.term).grantsVote m = true →
      ∀ env ∈ c.emittedBy v, ∀ b ∈ env.ballot, b.1 = m.term → b.2 = m.candidateId))
  | .deliver ⟨_, _, .requestVoteReply _⟩ | .deliver ⟨_, _, .appendEntries _⟩
  | .deliver ⟨_, _, .appendEntriesReply _⟩ | .deliver ⟨_, _, .installSnapshot _⟩
  | .deliver ⟨_, _, .installSnapshotReply _⟩ => isTrue trivial

/-- A node in an election, or in office: the votes it counts have been cast for it, except that
the only member of a cluster need not ask itself; a leader has a majority of them. -/
structure Campaign (S : Setup) (c : Cluster) (i : NodeId) (n : RaftNode) : Prop where
  voters_mem : n.votes.granted ⊆ S.members
  voted : ∀ u ∈ n.votes.granted, Voted c u n.currentTerm i ∨ (u = i ∧ S.peers i = [])
  elected : n.role = .leader → n.majority ≤ n.votes.count

/-- What holds of a cluster in every run. The fields under `once` are claimed if every event
satisfies `RemembersVote`. -/
structure WellFormed (S : Setup) (once : Prop) (c : Cluster) : Prop where
  id_eq : ∀ i ∈ S.members, (c.nodes i).id = i
  peers_eq : ∀ i ∈ S.members, (c.nodes i).peers = S.peers i
  sent_src : ∀ p ∈ c.sent, p.src ∈ S.members
  /-- Messages go to other members, and name their sender. -/
  addressed : ∀ i ∈ S.members, ∀ env ∈ c.emittedBy i,
    env.dst ∈ S.members ∧ env.dst ≠ i ∧ env.message.author = i
  voted_term : ∀ i ∈ S.members, ∀ T a, Voted c i T a → T ≤ (c.nodes i).currentTerm
  campaign : ∀ i ∈ S.members, (c.nodes i).role ≠ .follower → Campaign S c i (c.nodes i)
  /-- The vote of the current term is remembered, or nothing is. -/
  voted_for : once → ∀ i ∈ S.members, ∀ a, Voted c i (c.nodes i).currentTerm a →
    (c.nodes i).votedFor = none ∨ (c.nodes i).votedFor = some a
  votes_once : once → ∀ i ∈ S.members, ∀ T a b, Voted c i T a → Voted c i T b → a = b

/-! ### Replacing one node -/

/-- The votes on record after a node has added to its queue. -/
theorem voted_setNode (hout : n.outgoing = (c.nodes i).outgoing ++ o) {T : ℕ} {a : NodeId} :
    Voted (c.setNode i n) u T a ↔
      Voted c u T a ∨ (u = i ∧ ∃ env ∈ o, env.ballot = some (T, a)) := by
  unfold Voted
  rw [emittedBy_setNode hout]
  split
  · next hu => subst hu; simp [or_and_right, exists_or]
  · next hu => simp [hu]

theorem Voted.setNode {T : ℕ} {a : NodeId} (h : Voted c u T a)
    (hout : n.outgoing = (c.nodes i).outgoing ++ o) : Voted (c.setNode i n) u T a :=
  (voted_setNode hout).mpr (Or.inl h)

theorem Campaign.of_voted {c' : Cluster} (h : Campaign S c i n)
    (hmono : ∀ u T a, Voted c u T a → Voted c' u T a) : Campaign S c' i n :=
  { h with voted := fun u hu => (h.voted u hu).imp_left (hmono u _ i) }

/-- A node may be replaced by one that adds well-addressed messages to its queue, whose votes are
its own vote of its current term, and that does not contradict its vote. -/
theorem WellFormed.setNode (h : WellFormed S once c) (hi : i ∈ S.members)
    (hid : n.id = i) (hpeers : n.peers = S.peers i)
    (hout : n.outgoing = (c.nodes i).outgoing ++ o)
    (haddr : ∀ env ∈ o, env.dst ∈ S.members ∧ env.dst ≠ i ∧ env.message.author = i)
    (hterm : (c.nodes i).currentTerm ≤ n.currentTerm)
    (hballot : ∀ env ∈ o, ∀ T a, env.ballot = some (T, a) →
      T = n.currentTerm ∧ n.votedFor = some a ∧ (once → ∀ b, Voted c i T b → b = a))
    (hvoted : once → ∀ a, Voted c i n.currentTerm a → n.votedFor = none ∨ n.votedFor = some a)
    (hcamp : n.role ≠ .follower → Campaign S (c.setNode i n) i n) :
    WellFormed S once (c.setNode i n) where
  id_eq j hj := by
    rcases eq_or_ne j i with rfl | hne
    · rwa [nodes_setNode_self]
    · rw [nodes_setNode_of_ne c n hne]; exact h.id_eq j hj
  peers_eq j hj := by
    rcases eq_or_ne j i with rfl | hne
    · rwa [nodes_setNode_self]
    · rw [nodes_setNode_of_ne c n hne]; exact h.peers_eq j hj
  sent_src := h.sent_src
  addressed j hj env henv := by
    rw [emittedBy_setNode hout] at henv
    split at henv
    · next hji =>
      subst hji
      rcases List.mem_append.mp henv with hold | hnew
      · exact h.addressed j hj env hold
      · exact haddr env hnew
    · exact h.addressed j hj env henv
  voted_term j hj T a hv := by
    rcases eq_or_ne j i with rfl | hne
    · rw [nodes_setNode_self]
      rcases (voted_setNode hout).mp hv with hold | ⟨-, env, henv, hb⟩
      · exact (h.voted_term j hj T a hold).trans hterm
      · exact (hballot env henv T a hb).1.le
    · rw [nodes_setNode_of_ne c n hne]
      exact h.voted_term j hj T a (((voted_setNode hout).mp hv).resolve_right fun hn => hne hn.1)
  voted_for honce j hj a hv := by
    rcases eq_or_ne j i with rfl | hne
    · rw [nodes_setNode_self] at hv ⊢
      rcases (voted_setNode hout).mp hv with hold | ⟨-, env, henv, hb⟩
      · exact hvoted honce a hold
      · exact Or.inr (hballot env henv _ a hb).2.1
    · rw [nodes_setNode_of_ne c n hne] at hv ⊢
      exact h.voted_for honce j hj a (((voted_setNode hout).mp hv).resolve_right fun hn => hne hn.1)
  campaign j hj hrole := by
    rcases eq_or_ne j i with rfl | hne
    · rw [nodes_setNode_self] at hrole ⊢
      exact hcamp hrole
    · rw [nodes_setNode_of_ne c n hne] at hrole ⊢
      exact (h.campaign j hj hrole).of_voted fun u T a hv => hv.setNode hout
  votes_once honce j hj T a b ha hb := by
    rcases (voted_setNode hout).mp ha with hold | ⟨rfl, env, henv, hbal⟩ <;>
      rcases (voted_setNode hout).mp hb with hold' | ⟨hji, env', henv', hbal'⟩
    · exact h.votes_once honce j hj T a b hold hold'
    · subst hji
      exact (hballot env' henv' T b hbal').2.2 honce a hold
    · exact ((hballot env henv T a hbal).2.2 honce b hold').symm
    · exact Option.some.inj
        ((hballot env henv T a hbal).2.1.symm.trans (hballot env' henv' T b hbal').2.1)

/-- A change that concerns neither terms nor votes. -/
theorem WellFormed.setNode_of_quiet (h : WellFormed S once c) (hi : i ∈ S.members)
    (hid : n.id = (c.nodes i).id) (hpeers : n.peers = (c.nodes i).peers)
    (hrole : n.role = (c.nodes i).role) (hterm : n.currentTerm = (c.nodes i).currentTerm)
    (hvote : n.votedFor = (c.nodes i).votedFor) (hvotes : n.votes = (c.nodes i).votes)
    (hout : n.outgoing = (c.nodes i).outgoing ++ o)
    (haddr : ∀ env ∈ o,
      env.dst ∈ S.members ∧ env.dst ≠ i ∧ env.message.author = i ∧ env.ballot = none) :
    WellFormed S once (c.setNode i n) := by
  refine h.setNode hi (hid.trans (h.id_eq i hi)) (hpeers.trans (h.peers_eq i hi)) hout
    (fun env henv => ?_) hterm.ge (fun env henv T a hb => ?_) (fun honce a ha => ?_) fun hr => ?_
  · exact ⟨(haddr env henv).1, (haddr env henv).2.1, (haddr env henv).2.2.1⟩
  · rw [(haddr env henv).2.2.2] at hb
    cases hb
  · rw [hvote]
    exact h.voted_for honce i hi a (hterm ▸ ha)
  · rw [hrole] at hr
    have hcamp := (h.campaign i hi hr).of_voted fun u T a hv => hv.setNode hout
    refine ⟨hvotes ▸ hcamp.voters_mem, hvotes ▸ hterm ▸ hcamp.voted, ?_⟩
    unfold RaftNode.majority RaftNode.clusterSize
    rw [hvotes, hrole, hpeers]
    exact hcamp.elected

/-- A change that concerns neither terms nor votes nor the queue. -/
theorem WellFormed.setNode_of_silent (h : WellFormed S once c) (hi : i ∈ S.members)
    (hid : n.id = (c.nodes i).id) (hpeers : n.peers = (c.nodes i).peers)
    (hrole : n.role = (c.nodes i).role) (hterm : n.currentTerm = (c.nodes i).currentTerm)
    (hvote : n.votedFor = (c.nodes i).votedFor) (hvotes : n.votes = (c.nodes i).votes)
    (hout : n.outgoing = (c.nodes i).outgoing) : WellFormed S once (c.setNode i n) :=
  h.setNode_of_quiet (o := []) hi hid hpeers hrole hterm hvote hvotes
    (hout.trans (List.append_nil _).symm) fun _ henv => by simp at henv

/-- Stepping down, into the term at hand or a later one. -/
theorem WellFormed.becomeFollower (h : WellFormed S once c) (hi : i ∈ S.members) {T : ℕ}
    (hle : (c.nodes i).currentTerm ≤ T) (leader : Option NodeId) :
    WellFormed S once (c.setNode i ((c.nodes i).becomeFollower T leader)) :=
  h.setNode (o := []) hi (h.id_eq i hi) (h.peers_eq i hi) (List.append_nil _).symm
    (fun _ henv => by simp at henv) hle (fun _ henv => by simp at henv)
    (fun _ _ _ => Or.inl rfl) fun hr => absurd rfl hr

theorem WellFormed.observeTerm (h : WellFormed S once c) (hi : i ∈ S.members) (T : ℕ) :
    WellFormed S once (c.setNode i ((c.nodes i).observeTerm T)) := by
  unfold RaftNode.observeTerm
  split
  · next hlt => exact h.becomeFollower hi hlt.le none
  · rwa [setNode_nodes]

/-- A message to a peer that names its sender is well addressed. -/
theorem addressed_of_peer (hi : i ∈ S.members) {peer : NodeId} (hpeer : peer ∈ S.peers i)
    {message : Message} (hauthor : message.author = i) :
    peer ∈ S.members ∧ peer ≠ i ∧ message.author = i :=
  ⟨((S.mem_peers i hi peer).mp hpeer).1, ((S.mem_peers i hi peer).mp hpeer).2, hauthor⟩

theorem WellFormed.broadcastAppend (h : WellFormed S once c) (hi : i ∈ S.members) :
    WellFormed S once (c.setNode i (c.nodes i).broadcastAppend) := by
  rw [RaftNode.broadcastAppend_eq]
  refine h.setNode_of_quiet hi rfl rfl rfl rfl rfl rfl rfl fun env henv => ?_
  obtain ⟨peer, hpeer, rfl⟩ := List.mem_map.mp henv
  rw [h.peers_eq i hi] at hpeer
  have hauthor : ((c.nodes i).appendFor peer).author = i := by
    rw [RaftNode.author_appendFor, h.id_eq i hi]
  have haddr := addressed_of_peer hi hpeer hauthor
  exact ⟨haddr.1, haddr.2.1, haddr.2.2, RaftNode.ballot_appendFor _ _ _⟩

theorem WellFormed.advanceCommit (h : WellFormed S once c) (hi : i ∈ S.members) :
    WellFormed S once (c.setNode i (c.nodes i).advanceCommit) := by
  rw [RaftNode.advanceCommit_eq]
  exact h.setNode_of_silent hi rfl rfl rfl rfl rfl rfl rfl

/-- Taking office with a majority of votes. -/
theorem WellFormed.takeOffice (h : WellFormed S once c) (hi : i ∈ S.members)
    (hrole : (c.nodes i).role ≠ .follower)
    (hmaj : (c.nodes i).majority ≤ (c.nodes i).votes.count) :
    WellFormed S once (c.setNode i (c.nodes i).takeOffice) := by
  have hout : (c.nodes i).takeOffice.outgoing = (c.nodes i).outgoing ++ [] :=
    (List.append_nil _).symm
  have hcamp := (h.campaign i hi hrole).of_voted fun u T a hv => hv.setNode hout
  exact h.setNode hi (h.id_eq i hi) (h.peers_eq i hi) hout
    (fun _ henv => by simp at henv) le_rfl (fun _ henv => by simp at henv)
    (fun honce => h.voted_for honce i hi)
    fun _ => ⟨hcamp.voters_mem, hcamp.voted, fun _ => hmaj⟩

theorem WellFormed.becomeLeader (h : WellFormed S once c) (hi : i ∈ S.members)
    (hrole : (c.nodes i).role ≠ .follower)
    (hmaj : (c.nodes i).majority ≤ (c.nodes i).votes.count) :
    WellFormed S once (c.setNode i (c.nodes i).becomeLeader) := by
  have hcast := (h.takeOffice hi hrole hmaj).broadcastAppend hi
  have hcommit := hcast.advanceCommit hi
  simpa only [setNode_setNode, nodes_setNode_self, RaftNode.becomeLeader] using hcommit

/-- A candidate votes for itself in a term that it has not voted in, and asks all its peers. -/
theorem WellFormed.requestVotes (h : WellFormed S once c) (hi : i ∈ S.members) :
    WellFormed S once (c.setNode i (c.nodes i).standForElection.requestVotes) := by
  set n := (c.nodes i).standForElection with hn
  have hid : n.id = i := h.id_eq i hi
  have hpeers : n.peers = S.peers i := h.peers_eq i hi
  -- nobody has voted in a term that it has not reached
  have hfresh : ∀ a, ¬Voted c i n.currentTerm a := fun a hv =>
    absurd (h.voted_term i hi _ a hv) (Nat.not_succ_le_self _)
  rw [RaftNode.requestVotes_eq]
  refine h.setNode hi hid hpeers rfl ?_ (Nat.le_succ _) ?_
    (fun _ a ha => absurd ha (hfresh a)) fun _ => ⟨?_, ?_, fun hr => ?_⟩
  · intro env henv
    obtain ⟨peer, hpeer, rfl⟩ := List.mem_map.mp henv
    exact addressed_of_peer hi (hpeers ▸ hpeer) hid
  · intro env henv T a hb
    obtain ⟨peer, -, rfl⟩ := List.mem_map.mp henv
    obtain ⟨rfl, rfl⟩ : n.currentTerm = T ∧ n.id = a := by simpa [Envelope.ballot] using hb
    exact ⟨rfl, rfl, fun _ b hv => absurd hv (hfresh b)⟩
  · intro u hu
    obtain rfl : u = n.id := by simpa [hn, RaftNode.standForElection, VoteTally.record,
      VoteTally.empty, RaftNode.resetElectionTimer] using hu
    exact hid ▸ hi
  · intro u hu
    obtain rfl : u = n.id := by simpa [hn, RaftNode.standForElection, VoteTally.record,
      VoteTally.empty, RaftNode.resetElectionTimer] using hu
    rcases List.eq_nil_or_concat (S.peers i) with hnil | ⟨_, peer, hpeer⟩
    · exact Or.inr ⟨hid, hnil⟩
    · refine Or.inl ((voted_setNode rfl).mpr
        (Or.inr ⟨hid, _, List.mem_map.mpr ⟨peer, ?_, rfl⟩, ?_⟩))
      · rw [hpeers, hpeer]
        simp
      · simp [Envelope.ballot, hid]
  · cases hr

theorem WellFormed.becomeCandidate (h : WellFormed S once c) (hi : i ∈ S.members) :
    WellFormed S once (c.setNode i (c.nodes i).becomeCandidate) := by
  have hstood := h.requestVotes hi
  unfold RaftNode.becomeCandidate
  dsimp only
  split
  · next hmaj =>
    rw [RaftNode.requestVotes, RaftNode.peers_eq_nil_of_majority hmaj] at hstood
    have hlead := hstood.becomeLeader hi
    simp only [setNode_setNode, nodes_setNode_self] at hlead
    exact hlead (by simp [RaftNode.standForElection, RaftNode.resetElectionTimer]) hmaj
  · exact hstood

/-! ### The handlers -/

/-- Answering the sender of a message. -/
theorem addressed_reply (h : WellFormed S once c) {p : Packet} (hp : p ∈ c.sent)
    {message : Message} (hauthor : message.author = p.dst) :
    p.message.author ∈ S.members ∧ p.message.author ≠ p.dst ∧ message.author = p.dst := by
  have hsrc := h.sent_src p hp
  obtain ⟨-, hne, hself⟩ := h.addressed p.src hsrc _ (mem_emittedBy_of_sent hp)
  rw [show p.message.author = p.src from hself]
  exact ⟨hsrc, hne.symm, hauthor⟩

/-- A change that concerns neither terms nor votes, with an answer to the sender of `p`. -/
theorem WellFormed.reply (h : WellFormed S once c) {p : Packet} (hp : p ∈ c.sent)
    (hdst : p.dst ∈ S.members) {message : Message}
    (hid : n.id = (c.nodes p.dst).id) (hpeers : n.peers = (c.nodes p.dst).peers)
    (hrole : n.role = (c.nodes p.dst).role)
    (hterm : n.currentTerm = (c.nodes p.dst).currentTerm)
    (hvote : n.votedFor = (c.nodes p.dst).votedFor) (hvotes : n.votes = (c.nodes p.dst).votes)
    (hout : n.outgoing = (c.nodes p.dst).outgoing ++ [⟨p.message.author, message⟩])
    (hauthor : message.author = (c.nodes p.dst).id)
    (hballot : (Envelope.mk p.message.author message).ballot = none) :
    WellFormed S once (c.setNode p.dst n) := by
  refine h.setNode_of_quiet hdst hid hpeers hrole hterm hvote hvotes hout fun env henv => ?_
  obtain rfl : env = ⟨p.message.author, message⟩ := by simpa using henv
  have haddr := addressed_reply h hp (hauthor.trans (h.id_eq p.dst hdst))
  exact ⟨haddr.1, haddr.2.1, haddr.2.2, hballot⟩

theorem WellFormed.handleRequestVote (h : WellFormed S once c) {src dst : NodeId}
    {m : RequestVote} (hp : ⟨src, dst, .requestVote m⟩ ∈ c.sent) (hdst : dst ∈ S.members)
    (hterm : m.term ≤ (c.nodes dst).currentTerm)
    (hguard : once → (c.nodes dst).grantsVote m = true →
      ∀ env ∈ c.emittedBy dst, ∀ b ∈ env.ballot, b.1 = m.term → b.2 = m.candidateId) :
    WellFormed S once (c.setNode dst ((c.nodes dst).handleRequestVote m)) := by
  unfold RaftNode.handleRequestVote
  dsimp only
  split
  · next hgrant =>
    have hle : (c.nodes dst).currentTerm ≤ m.term := by
      simp only [RaftNode.grantsVote, Bool.and_eq_true, decide_eq_true_eq] at hgrant
      exact hgrant.1.1
    have heq : m.term = (c.nodes dst).currentTerm := le_antisymm hterm hle
    have honly : once → ∀ a, Voted c dst (c.nodes dst).currentTerm a → a = m.candidateId := by
      rintro honce a ⟨env, henv, hb⟩
      exact hguard honce hgrant env henv _ hb heq.symm
    have hself := h.id_eq dst hdst
    refine h.setNode hdst hself (h.peers_eq dst hdst) rfl ?_ le_rfl ?_ ?_ fun hr => ?_
    · intro env henv
      obtain rfl := List.mem_singleton.mp henv
      exact addressed_reply h hp hself
    · intro env henv T a hb
      obtain rfl := List.mem_singleton.mp henv
      simp only [Envelope.ballot, hgrant, if_true, Option.some.injEq, Prod.mk.injEq] at hb
      obtain ⟨rfl, rfl⟩ := hb
      exact ⟨rfl, rfl, honly⟩
    · exact fun honce a ha => Or.inr (by rw [honly honce a ha]; rfl)
    · have hcamp := h.campaign dst hdst hr
      refine ⟨hcamp.voters_mem, fun u hu => ?_, hcamp.elected⟩
      exact (hcamp.voted u hu).imp_left fun hv => hv.setNode rfl
  · next hgrant =>
    exact h.reply hp hdst rfl rfl rfl rfl rfl rfl rfl rfl (by simp [Envelope.ballot, hgrant])

/-- Counting a vote that was cast. -/
theorem WellFormed.recordVote (h : WellFormed S once c) (hi : i ∈ S.members)
    (hu : u ∈ S.members) (hrole : (c.nodes i).role ≠ .leader)
    (hvoted : Voted c u (c.nodes i).currentTerm i) :
    WellFormed S once
      (c.setNode i { c.nodes i with votes := (c.nodes i).votes.record u }) := by
  have hout : { c.nodes i with votes := (c.nodes i).votes.record u }.outgoing =
      (c.nodes i).outgoing ++ [] := (List.append_nil _).symm
  refine h.setNode hi (h.id_eq i hi) (h.peers_eq i hi) hout (fun _ henv => by simp at henv)
    le_rfl (fun _ henv => by simp at henv) (fun honce => h.voted_for honce i hi) fun hr => ?_
  have hcamp := (h.campaign i hi hr).of_voted fun u T a hv => hv.setNode hout
  refine ⟨Finset.insert_subset hu hcamp.voters_mem, fun v hv => ?_, fun hl => absurd hl hrole⟩
  rcases Finset.mem_insert.mp hv with rfl | hold
  · exact Or.inl (hvoted.setNode hout)
  · exact hcamp.voted v hold

theorem WellFormed.handleRequestVoteReply (h : WellFormed S once c) {src dst : NodeId}
    {m : RequestVoteReply} (hp : ⟨src, dst, .requestVoteReply m⟩ ∈ c.sent)
    (hdst : dst ∈ S.members) :
    WellFormed S once (c.setNode dst ((c.nodes dst).handleRequestVoteReply m)) := by
  unfold RaftNode.handleRequestVoteReply
  split
  · rwa [setNode_nodes]
  · next hopen =>
    rw [not_or, not_not, not_not] at hopen
    obtain ⟨hrole, hterm⟩ := hopen
    split
    · next hgrant =>
      have hsrc : src ∈ S.members := h.sent_src _ hp
      have hvoter : m.voterId = src := (h.addressed src hsrc _ (mem_emittedBy_of_sent hp)).2.2
      have hvoted : Voted c src (c.nodes dst).currentTerm dst := by
        refine ⟨_, mem_emittedBy_of_sent hp, ?_⟩
        simp [Envelope.ballot, hgrant, hterm]
      have hrec := h.recordVote hdst hsrc (by simp [hrole]) hvoted
      rw [← hvoter] at hrec
      dsimp only
      split
      · next hmaj =>
        have hlead := hrec.becomeLeader hdst
        simp only [setNode_setNode, nodes_setNode_self] at hlead
        exact hlead (by simp [hrole]) hmaj
      · exact hrec
    · rwa [setNode_nodes]

theorem WellFormed.rejectAppend (h : WellFormed S once c) {src dst : NodeId}
    {m : AppendEntries} (hp : ⟨src, dst, .appendEntries m⟩ ∈ c.sent) (hdst : dst ∈ S.members)
    (conflictIndex : ℕ) :
    WellFormed S once (c.setNode dst ((c.nodes dst).rejectAppend m.leaderId conflictIndex)) :=
  h.reply hp hdst rfl rfl rfl rfl rfl rfl rfl rfl rfl

theorem WellFormed.acceptAppend (h : WellFormed S once c) {src dst : NodeId}
    {m : AppendEntries} (hp : ⟨src, dst, .appendEntries m⟩ ∈ c.sent) (hdst : dst ∈ S.members) :
    WellFormed S once (c.setNode dst ((c.nodes dst).acceptAppend m)) :=
  h.reply hp hdst rfl rfl rfl rfl rfl rfl rfl rfl rfl

theorem WellFormed.acceptSnapshot (h : WellFormed S once c) {src dst : NodeId}
    {m : InstallSnapshot} (hp : ⟨src, dst, .installSnapshot m⟩ ∈ c.sent)
    (hdst : dst ∈ S.members) :
    WellFormed S once (c.setNode dst ((c.nodes dst).acceptSnapshot m)) :=
  h.reply hp hdst rfl rfl rfl rfl rfl rfl rfl rfl rfl

theorem WellFormed.handleAppendEntries (h : WellFormed S once c) {src dst : NodeId}
    {m : AppendEntries} (hp : ⟨src, dst, .appendEntries m⟩ ∈ c.sent) (hdst : dst ∈ S.members) :
    WellFormed S once (c.setNode dst ((c.nodes dst).handleAppendEntries m)) := by
  unfold RaftNode.handleAppendEntries
  dsimp only
  split
  · exact h.rejectAppend hp hdst 0
  · next hle =>
    have hdown := h.becomeFollower hdst (not_lt.mp hle) (some m.leaderId)
    split
    · simpa only [setNode_setNode, nodes_setNode_self] using hdown.acceptAppend hp hdst
    · simpa only [setNode_setNode, nodes_setNode_self] using hdown.rejectAppend hp hdst _

theorem WellFormed.handleInstallSnapshot (h : WellFormed S once c) {src dst : NodeId}
    {m : InstallSnapshot} (hp : ⟨src, dst, .installSnapshot m⟩ ∈ c.sent)
    (hdst : dst ∈ S.members) :
    WellFormed S once (c.setNode dst ((c.nodes dst).handleInstallSnapshot m)) := by
  unfold RaftNode.handleInstallSnapshot
  split
  · rwa [setNode_nodes]
  · next hle =>
    have hdown := h.becomeFollower hdst (not_lt.mp hle) (some m.leaderId)
    simpa only [setNode_setNode, nodes_setNode_self] using hdown.acceptSnapshot hp hdst

theorem WellFormed.sendAppend (h : WellFormed S once c) (hi : i ∈ S.members)
    (hpeer : u ∈ S.members) (hne : u ≠ i) :
    WellFormed S once (c.setNode i ((c.nodes i).sendAppend u)) := by
  refine h.setNode_of_quiet hi rfl rfl rfl rfl rfl rfl rfl fun env henv => ?_
  obtain rfl := List.mem_singleton.mp henv
  refine ⟨hpeer, hne, ?_, RaftNode.ballot_appendFor _ _ _⟩
  rw [RaftNode.author_appendFor, h.id_eq i hi]

theorem WellFormed.handleAppendEntriesReply (h : WellFormed S once c) {src dst : NodeId}
    {m : AppendEntriesReply} (hp : ⟨src, dst, .appendEntriesReply m⟩ ∈ c.sent)
    (hdst : dst ∈ S.members) :
    WellFormed S once (c.setNode dst ((c.nodes dst).handleAppendEntriesReply src m)) := by
  have hsrc : src ∈ S.members := h.sent_src _ hp
  have hne : src ≠ dst := (h.addressed src hsrc _ (mem_emittedBy_of_sent hp)).2.1.symm
  unfold RaftNode.handleAppendEntriesReply
  split
  · rwa [setNode_nodes]
  · split
    · have hrec := h.setNode_of_silent hdst (n := (c.nodes dst).recordMatch src m.matchIndex)
        rfl rfl rfl rfl rfl rfl rfl
      simpa only [setNode_setNode, nodes_setNode_self] using hrec.advanceCommit hdst
    · have hback := h.setNode_of_silent hdst
        (n := { c.nodes dst with
          progress := (c.nodes dst).progress.setNextIndex src (max m.conflictIndex 1) })
        rfl rfl rfl rfl rfl rfl rfl
      simpa only [setNode_setNode, nodes_setNode_self] using hback.sendAppend hdst hsrc hne

theorem WellFormed.handleInstallSnapshotReply (h : WellFormed S once c) {src dst : NodeId}
    {m : InstallSnapshotReply} (hdst : dst ∈ S.members) :
    WellFormed S once (c.setNode dst ((c.nodes dst).handleInstallSnapshotReply src m)) := by
  unfold RaftNode.handleInstallSnapshotReply
  split
  · rwa [setNode_nodes]
  · exact h.setNode_of_silent hdst rfl rfl rfl rfl rfl rfl rfl

/-! ### Runs -/

/-- The votes on record do not change when messages are drained. -/
theorem voted_drain {data : List KeyValue} {T : ℕ} {a : NodeId} :
    Voted (c.drain i data) u T a ↔ Voted c u T a := by
  constructor
  · rintro ⟨env, henv, hb⟩
    rcases mem_emittedBy_drain.mp henv with hold | ⟨env', henv', rfl⟩
    · exact ⟨env, mem_emittedBy.mpr (Or.inl hold), hb⟩
    · refine ⟨env', mem_emittedBy.mpr (Or.inr henv'), ?_⟩
      split at hb
      · rwa [Envelope.ballot_fillSnapshot] at hb
      · exact hb
  · rintro ⟨env, henv, hb⟩
    rcases mem_emittedBy.mp henv with hold | hqueued
    · exact ⟨env, mem_emittedBy_drain.mpr (Or.inl hold), hb⟩
    · refine ⟨_, mem_emittedBy_drain.mpr (Or.inr ⟨env, hqueued, rfl⟩), ?_⟩
      split
      · rwa [Envelope.ballot_fillSnapshot]
      · exact hb

theorem WellFormed.drain (h : WellFormed S once c) (hi : i ∈ S.members)
    (data : List KeyValue) : WellFormed S once (c.drain i data) := by
  -- draining changes the queues of a node and nothing else of it
  have hnode : ∀ j, (c.drain i data).nodes j =
      { c.nodes j with
        outgoing := ((c.drain i data).nodes j).outgoing
        committed := ((c.drain i data).nodes j).committed } := by
    intro j
    rcases eq_or_ne j i with rfl | hne
    · simp [Cluster.drain]
    · simp [Cluster.drain, hne]
  refine
  { id_eq := fun j hj => ?_
    peers_eq := fun j hj => ?_
    sent_src := fun p hp => ?_
    addressed := fun j hj env henv => ?_
    voted_term := fun j hj T a hv => ?_
    campaign := fun j hj hrole => ?_
    voted_for := fun honce j hj a hv => ?_
    votes_once := fun honce j hj T a b ha hb =>
      h.votes_once honce j hj T a b (voted_drain.mp ha) (voted_drain.mp hb) }
  · rw [hnode]
    exact h.id_eq j hj
  · rw [hnode]
    exact h.peers_eq j hj
  · rcases List.mem_append.mp hp with hold | hnew
    · exact h.sent_src p hold
    · obtain ⟨env, -, rfl⟩ := List.mem_map.mp hnew
      exact hi
  · rcases mem_emittedBy_drain.mp henv with hold | ⟨env', henv', rfl⟩
    · exact h.addressed j hj env (mem_emittedBy.mpr (Or.inl hold))
    · have := h.addressed j hj env' (mem_emittedBy.mpr (Or.inr henv'))
      split
      · simpa using this
      · exact this
  · rw [hnode]
    exact h.voted_term j hj T a (voted_drain.mp hv)
  · rw [hnode] at hrole ⊢
    have hcamp : Campaign S (c.drain i data) j (c.nodes j) :=
      (h.campaign j hj hrole).of_voted fun u T a hv => voted_drain.mpr hv
    exact ⟨hcamp.voters_mem, hcamp.voted, hcamp.elected⟩
  · rw [hnode] at hv ⊢
    exact h.voted_for honce j hj a (voted_drain.mp hv)

theorem WellFormed.tick (h : WellFormed S once c) (hi : i ∈ S.members) :
    WellFormed S once (c.setNode i (c.nodes i).tick) := by
  have hwait := h.setNode_of_silent hi
    (n := { c.nodes i with electionElapsed := (c.nodes i).electionElapsed + 1 })
    rfl rfl rfl rfl rfl rfl rfl
  rcases (c.nodes i).tick_cases with ⟨-, heq⟩ | ⟨-, -, heq⟩ | ⟨-, heq⟩ | ⟨-, heq⟩ <;> rw [heq]
  · exact h.setNode_of_silent hi rfl rfl rfl rfl rfl rfl rfl
  · have hreset := h.setNode_of_silent hi (n := { c.nodes i with heartbeatElapsed := 0 })
      rfl rfl rfl rfl rfl rfl rfl
    simpa only [setNode_setNode, nodes_setNode_self] using hreset.broadcastAppend hi
  · exact hwait
  · simpa only [setNode_setNode, nodes_setNode_self] using hwait.becomeCandidate hi

theorem WellFormed.propose (h : WellFormed S once c) (hi : i ∈ S.members)
    (command : List UInt8) :
    WellFormed S once (c.setNode i ((c.nodes i).propose command).2) := by
  unfold RaftNode.propose
  split
  · rwa [setNode_nodes]
  · have happend := h.setNode_of_silent hi
      (n := { c.nodes i with log := (c.nodes i).log.append [(c.nodes i).newEntry command] })
      rfl rfl rfl rfl rfl rfl rfl
    simpa only [setNode_setNode, nodes_setNode_self] using
      (happend.broadcastAppend hi).advanceCommit hi

/-- Every event keeps a cluster well-formed; the votes stay unique if the event respects them. -/
theorem WellFormed.step (h : WellFormed S once c) {e : Event} (he : Enabled S c e)
    (hguard : once → RemembersVote c e) : WellFormed S once (c.step e) := by
  cases e with
  | tick i => exact h.tick he
  | propose i command => exact h.propose he command
  | takeReady i data =>
    rw [step_takeReady]
    refine WellFormed.drain ?_ he data
    rw [RaftNode.applyCommitted_eq]
    exact h.setNode_of_silent he rfl rfl rfl rfl rfl rfl rfl
  | deliver p =>
    obtain ⟨src, dst, message⟩ := p
    obtain ⟨hdst, hp⟩ := he
    have hobs := h.observeTerm hdst message.term
    have hstep : c.step (.deliver ⟨src, dst, message⟩) =
        (c.setNode dst ((c.nodes dst).observeTerm message.term)).setNode dst
          (((c.setNode dst ((c.nodes dst).observeTerm message.term)).nodes dst).handle
            src message) := by
      rw [setNode_setNode, nodes_setNode_self]
      rfl
    rw [hstep]
    cases message with
    | requestVote m =>
      refine hobs.handleRequestVote hp hdst ?_ ?_
      · rw [nodes_setNode_self]
        unfold RaftNode.observeTerm
        split
        · exact le_rfl
        · next hle => exact not_lt.mp hle
      · intro honce hgrant env henv
        rw [nodes_setNode_self] at hgrant
        refine hguard honce hgrant env ?_
        have hout : ((c.nodes dst).observeTerm m.term).outgoing = (c.nodes dst).outgoing ++ [] := by
          simp
        rwa [show Message.term (.requestVote m) = m.term from rfl, emittedBy_setNode hout,
          if_pos rfl, List.append_nil] at henv
    | requestVoteReply m => exact hobs.handleRequestVoteReply hp hdst
    | appendEntries m => exact hobs.handleAppendEntries hp hdst
    | appendEntriesReply m => exact hobs.handleAppendEntriesReply hp hdst
    | installSnapshot m => exact hobs.handleInstallSnapshot hp hdst
    | installSnapshotReply m => exact hobs.handleInstallSnapshotReply hdst

theorem wellFormed_init : WellFormed S once (init S) := by
  have hnone : ∀ u T a, ¬Voted (init S) u T a := by
    rintro u T a ⟨env, henv, -⟩
    rcases mem_emittedBy.mp henv with h | h <;> simp [init, RaftNode.new] at h
  exact
  { id_eq := fun _ _ => rfl
    peers_eq := fun _ _ => rfl
    sent_src := fun p hp => by simp [init] at hp
    addressed := fun j _ env henv => by
      rcases mem_emittedBy.mp henv with h | h <;> simp [init, RaftNode.new] at h
    voted_term := fun j _ T a hv => absurd hv (hnone j T a)
    campaign := fun j _ hrole => absurd rfl hrole
    voted_for := fun _ j _ a hv => absurd hv (hnone j _ a)
    votes_once := fun _ j _ T a b hv => absurd hv (hnone j T a) }

/-- Votes are never taken back. -/
theorem Voted.step {T : ℕ} {a : NodeId} (h : Voted c u T a) (e : Event) :
    Voted (c.step e) u T a := by
  have hset : ∀ {i n}, (c.nodes i).outgoing <+: n.outgoing → Voted (c.setNode i n) u T a :=
    fun ⟨_, hout⟩ => h.setNode hout.symm
  cases e with
  | tick i => exact hset (RaftNode.outgoing_prefix_tick _)
  | propose i command => exact hset (RaftNode.outgoing_prefix_propose _ command)
  | takeReady i data =>
    rw [step_takeReady, voted_drain, RaftNode.applyCommitted_eq]
    exact hset List.prefix_rfl
  | deliver p => exact hset (RaftNode.outgoing_prefix_step _ p.src p.message)

end Cluster

end Ferrium
