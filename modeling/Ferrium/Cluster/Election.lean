import Ferrium.Cluster.WellFormed
import Ferrium.Lib.Quorum

/-!
# Election safety

A leader has the votes of a majority on record, and two majorities share a voter. So a term has one
leader at most, if no voter votes twice in it. The code does not ensure that: a follower that hears
from the leader of its term forgets its vote, and a late request of another candidate of the same
term finds it ready to vote again (`twoLeaders`).
-/

namespace Ferrium

namespace Cluster

variable {S : Setup} {once : Prop} {c : Cluster} {i j : NodeId}

theorem card_members (hi : i ∈ S.members) : S.members.card = (S.peers i).length + 1 := by
  have hmem : S.members = insert i (S.peers i).toFinset := by
    ext j
    by_cases hj : j = i <;> simp [S.mem_peers i hi j, hj, hi]
  have hnot : i ∉ (S.peers i).toFinset := by simp [S.mem_peers i hi i]
  rw [hmem, Finset.card_insert_of_notMem hnot, List.toFinset_card_of_nodup (S.nodup_peers i hi)]

/-- The quorums of a cluster: the majorities of its members. -/
def quorums (S : Setup) : QuorumSystem NodeId :=
  QuorumSystem.majority S.members

/-- A majority has voted for node `i` in term `T`. -/
def Won (S : Setup) (c : Cluster) (i : NodeId) (T : ℕ) : Prop :=
  ∃ Q, (quorums S).IsQuorum Q ∧ ∀ u ∈ Q, Voted c u T i ∨ (u = i ∧ S.peers i = [])

theorem Won.step {T : ℕ} (h : Won S c i T) (e : Event) : Won S (c.step e) i T := by
  obtain ⟨Q, hQ, hvoted⟩ := h
  exact ⟨Q, hQ, fun u hu => (hvoted u hu).imp_left fun hv => hv.step e⟩

/-- A leader has won its term. -/
theorem WellFormed.won (h : WellFormed S once c) (hi : i ∈ S.members)
    (hlead : (c.nodes i).role = .leader) : Won S c i (c.nodes i).currentTerm := by
  have hcamp := h.campaign i hi (by simp [hlead])
  refine ⟨(c.nodes i).votes.granted, ⟨hcamp.voters_mem, ?_⟩, hcamp.voted⟩
  have hmaj := hcamp.elected hlead
  unfold RaftNode.majority RaftNode.clusterSize at hmaj
  rwa [h.peers_eq i hi, ← card_members hi] at hmaj

/-- **A term is won by one node at most.** -/
theorem WellFormed.won_unique (h : WellFormed S True c) (hi : i ∈ S.members)
    (hj : j ∈ S.members) {T : ℕ} (hwi : Won S c i T) (hwj : Won S c j T) : i = j := by
  -- a cluster whose member has no peers has no other member
  have hsole : ∀ {k l}, k ∈ S.members → l ∈ S.members → S.peers k = [] → l = k := by
    intro k l hk hl hnil
    by_contra hne
    have := (S.mem_peers k hk l).mpr ⟨hl, hne⟩
    simp [hnil] at this
  obtain ⟨Q, hQ, hvoted⟩ := hwi
  obtain ⟨Q', hQ', hvoted'⟩ := hwj
  obtain ⟨v, hv, hv'⟩ := (quorums S).inter hQ hQ'
  rcases hvoted v hv with hvi | ⟨-, hnil⟩
  · rcases hvoted' v hv' with hvj | ⟨-, hnil⟩
    · exact h.votes_once trivial v (hQ.1 hv) T i j hvi hvj
    · exact hsole hj hi hnil
  · exact (hsole hi hj hnil).symm

/-- At most one node is ever leader in a given term, at whatever moments of the run. -/
def ElectionSafety (S : Setup) (es : List Event) : Prop :=
  ∀ es₁ es₂, es₁ <+: es → es₂ <+: es → ∀ a ∈ S.members, ∀ b ∈ S.members,
    ((after S es₁).nodes a).role = .leader → ((after S es₂).nodes b).role = .leader →
    ((after S es₁).nodes a).currentTerm = ((after S es₂).nodes b).currentTerm → a = b

theorem IsRun.wellFormed {es : List Event} (h : IsRun S RemembersVote es) :
    WellFormed S True (after S es) :=
  Run.Guarded.invariant (fun _ _ hg hwf => hwf.step hg.1 fun _ => hg.2) h wellFormed_init

/-- What a node has won at a moment of a run, it has won at the end. -/
theorem Won.of_isPrefix {es₁ es : List Event} {T : ℕ} (hp : es₁ <+: es)
    (h : Won S (after S es₁) i T) : Won S (after S es) i T := by
  obtain ⟨es₂, rfl⟩ := hp
  unfold after
  rw [Run.exec_append]
  exact Run.exec_invariant (Won S · i T) (fun _ e hw => hw.step e) es₂ h

/-- **Election safety** in every run in which no node votes twice in a term. -/
theorem electionSafety_of_remembersVote {es : List Event} (h : IsRun S RemembersVote es) :
    ElectionSafety S es := by
  intro es₁ es₂ h₁ h₂ a ha b hb hleada hleadb hterm
  have hwona : Won S (after S es) a ((after S es₁).nodes a).currentTerm :=
    Won.of_isPrefix h₁ (WellFormed.won (IsRun.wellFormed (Run.Guarded.of_isPrefix h h₁)) ha hleada)
  have hwonb : Won S (after S es) b ((after S es₂).nodes b).currentTerm :=
    Won.of_isPrefix h₂ (WellFormed.won (IsRun.wellFormed (Run.Guarded.of_isPrefix h h₂)) hb hleadb)
  exact h.wellFormed.won_unique ha hb hwona (hterm ▸ hwonb)

/-- Node `n1` calls an election and wins it with the vote of `n2`, while `n3` has called one too,
in the same term; the requests of `n3` are still on their way. -/
def contestedElection : List Event :=
  [.tick "n1", .takeReady "n1" [], .tick "n3", .takeReady "n3" [],
    .deliver ⟨"n1", "n2", .requestVote ⟨1, "n1", 0, 0⟩⟩, .takeReady "n2" [],
    .deliver ⟨"n2", "n1", .requestVoteReply ⟨1, "n2", true⟩⟩, .takeReady "n1" []]

theorem electionSafety_contestedElection :
    IsRun (threeNodes 100) RemembersVote contestedElection ∧
      ((after (threeNodes 100) contestedElection).nodes "n1").role = .leader ∧
      ElectionSafety (threeNodes 100) contestedElection :=
  ⟨by decide, by decide, electionSafety_of_remembersVote (by decide)⟩

/-- The heartbeat of the leader `n1` makes `n2` forget its vote, and the request of `n3` makes it
vote again. -/
def twoLeaders : List Event :=
  contestedElection ++
    [.deliver ⟨"n1", "n2", .appendEntries ⟨1, "n1", 0, 0, [], 0⟩⟩,
      .deliver ⟨"n3", "n2", .requestVote ⟨1, "n3", 0, 0⟩⟩, .takeReady "n2" [],
      .deliver ⟨"n2", "n3", .requestVoteReply ⟨1, "n2", true⟩⟩]

theorem not_electionSafety_twoLeaders :
    Violates (threeNodes 100) anyEvent (ElectionSafety (threeNodes 100)) twoLeaders := by
  refine ⟨by decide, by decide, fun h => ?_⟩
  have hsame := h twoLeaders twoLeaders List.prefix_rfl List.prefix_rfl "n1" (by decide)
    "n3" (by decide) (by decide) (by decide) (by decide)
  exact absurd hsame (by decide)

end Cluster

end Ferrium
