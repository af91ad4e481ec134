import Ferrium.Sim.Rounds

/-!
# Elections in the simulation

A round of an election in the part of the cluster that can be reached, from the moment at which
nobody there is leader to the moment at which the votes have been counted. The nodes that time out
first are the candidates. Each of the others votes for the first of them, in the order of the nodes,
whose log is up to date; a candidate with a majority of all nodes of the cluster becomes leader, and
if there is none, everybody waits for the next timeout in the next term.
-/

namespace Ferrium

namespace SimCluster

variable {codec : Codec} {sim : SimCluster} {i j : NodeId} {T : ℕ}

@[simp]
theorem ids_step (codec : Codec) (sim : SimCluster) : (sim.step codec).ids = sim.ids := by
  rw [step_eq]
  exact (sameNetwork_exec codec sim _).ids

@[simp]
theorem reach_step (codec : Codec) (sim : SimCluster) : (sim.step codec).reach = sim.reach := by
  have hsame := sameNetwork_exec codec sim (sim.events codec .step)
  unfold reach reachable
  rw [step_eq, hsame.ids, hsame.alive, hsame.connected]

@[simp]
theorem ids_run (codec : Codec) (sim : SimCluster) (k : ℕ) : (sim.run codec k).ids = sim.ids := by
  induction k with
  | zero => rfl
  | succ k ih => rw [run_succ, ids_step, ih]

@[simp]
theorem reach_run (codec : Codec) (sim : SimCluster) (k : ℕ) :
    (sim.run codec k).reach = sim.reach := by
  induction k with
  | zero => rfl
  | succ k ih => rw [run_succ, reach_step, ih]

theorem alive_of_mem_reach (h : j ∈ sim.reach) : sim.alive j = true :=
  (Bool.and_eq_true_iff.mp (mem_reach.mp h).2).1

/-- A step for a node that can be reached. -/
theorem nodes_step_of_mem (hids : sim.ids.Nodup) (codec : Codec) (hj : j ∈ sim.reach) :
    (sim.step codec).nodes j = (sim.nodes j).tick.takeReady.receiveAll (sim.inbox j) := by
  obtain ⟨hmem, hreachable⟩ := mem_reach.mp hj
  obtain ⟨halive, hconnected⟩ := Bool.and_eq_true_iff.mp hreachable
  rw [nodes_step hids codec hmem, if_pos halive, if_pos hconnected]

theorem length_filter_ne {l : List NodeId} (hl : l.Nodup) (hi : i ∈ l) :
    (l.filter (· ≠ i)).length + 1 = l.length := by
  have hothers : l.filter (· ≠ i) = l.erase i := by
    rw [hl.erase_eq_filter]
    refine List.filter_congr fun k _ => ?_
    rcases eq_or_ne k i with rfl | hne
    · simp
    · simp [hne]
  rw [hothers, List.length_erase_of_mem hi]
  exact Nat.sub_add_cancel (List.length_pos_of_mem hi)

/-- Every node is created with its name, the others as its peers, and the configuration of the
simulation. -/
structure Formed (sim : SimCluster) : Prop where
  nodup : sim.ids.Nodup
  id_eq : ∀ j ∈ sim.ids, (sim.nodes j).id = j
  peers_eq : ∀ j ∈ sim.ids, (sim.nodes j).peers = sim.ids.filter (· ≠ j)
  config_eq : ∀ j ∈ sim.ids, (sim.nodes j).config = config

theorem formed_new (n : ℕ) (rng : NodeId → StdRng) : (new n rng).Formed where
  nodup := nodup_names n
  id_eq _ _ := rfl
  peers_eq _ _ := rfl
  config_eq _ _ := rfl

namespace Formed

/-- Nodes that stay what they were created with. -/
theorem of_stays {sim' : SimCluster} (h : sim.Formed) (hids : sim'.ids = sim.ids)
    (hstays : ∀ j ∈ sim.ids, (sim.nodes j).Stays (sim'.nodes j)) : sim'.Formed where
  nodup := hids ▸ h.nodup
  id_eq j hj := by
    rw [hids] at hj
    exact (hstays j hj).id_eq.trans (h.id_eq j hj)
  peers_eq j hj := by
    rw [hids] at hj ⊢
    exact (hstays j hj).peers_eq.trans (h.peers_eq j hj)
  config_eq j hj := by
    rw [hids] at hj
    exact (hstays j hj).config_eq.trans (h.config_eq j hj)

theorem step (h : sim.Formed) (codec : Codec) : (sim.step codec).Formed := by
  refine h.of_stays (ids_step codec sim) fun j hj => ?_
  rw [nodes_step h.nodup codec hj]
  split
  · exact ((RaftNode.stays_input _ .tick).trans (RaftNode.stays_input _ .takeReady)).trans
      (RaftNode.stays_receiveAll _ _)
  · exact ⟨⟨rfl, rfl⟩, rfl⟩

theorem propose (h : sim.Formed) (codec : Codec) (i : NodeId) (command : WriteCommand) :
    (sim.propose codec i command).Formed := by
  refine h.of_stays rfl fun j _ => ?_
  rcases eq_or_ne j i with rfl | hne
  · rw [show (sim.propose codec j command).nodes j = _ from Function.update_self _ _ _]
    exact RaftNode.stays_input _ (.propose (codec.encode command))
  · rw [show (sim.propose codec i command).nodes j = _ from Function.update_of_ne hne _ _]
    exact ⟨⟨rfl, rfl⟩, rfl⟩

theorem nodup_reach (h : sim.Formed) : sim.reach.Nodup :=
  h.nodup.filter _

theorem nodup_peers (h : sim.Formed) (hj : j ∈ sim.ids) : (sim.nodes j).peers.Nodup := by
  rw [h.peers_eq j hj]
  exact h.nodup.filter _

theorem mem_peers (h : sim.Formed) (hi : i ∈ sim.ids) (hj : j ∈ sim.ids) :
    j ∈ (sim.nodes i).peers ↔ j ≠ i := by
  rw [h.peers_eq i hi, List.mem_filter]
  simp [hj]

/-- The peers of a node and the node itself are all nodes. -/
theorem clusterSize_eq (h : sim.Formed) (hj : j ∈ sim.ids) :
    (sim.nodes j).clusterSize = sim.ids.length := by
  rw [RaftNode.clusterSize, h.peers_eq j hj, length_filter_ne h.nodup hj]

theorem peers_ne_nil (h : sim.Formed) (hsize : 2 ≤ sim.ids.length) (hj : j ∈ sim.ids) :
    (sim.nodes j).peers ≠ [] := by
  intro hnil
  have hcluster := h.clusterSize_eq hj
  rw [RaftNode.clusterSize, hnil, List.length_nil] at hcluster
  omega

end Formed

/-! ### Logs that are left alone -/

/-- The node and its store are drained in the step, and the log is not touched else. -/
structure Rests (codec : Codec) (j : NodeId) (sim sim' : SimCluster) : Prop where
  log : (sim.nodes j).takeReady.SameLog (sim'.nodes j)
  store : sim'.stores j =
    (sim.nodes j).ready.committed.foldl (Committed.applyTo codec) (sim.stores j)

/-- The same for several steps. -/
def Rested (codec : Codec) (j : NodeId) : SimCluster → SimCluster → Prop :=
  Relation.ReflTransGen (Rests codec j)

theorem Formed.rests_step (h : sim.Formed) (hj : j ∈ sim.reach)
    (htick : (sim.nodes j).SameLog (sim.nodes j).tick)
    (hstep : (sim.nodes j).tick.takeReady.SameLog ((sim.step codec).nodes j)) :
    Rests codec j sim (sim.step codec) where
  log := (htick.takeReady (RaftNode.stays_tick _).config_eq).trans hstep
  store := by
    rw [stores_step h.nodup codec (mem_reach.mp hj).1, if_pos (alive_of_mem_reach hj), htick.ready]

theorem Rested.end_eq {sim' : SimCluster} (h : Rested codec j sim sim') :
    (sim'.nodes j).log.lastIndex = (sim.nodes j).log.lastIndex ∧
      (sim'.nodes j).log.lastTerm = (sim.nodes j).log.lastTerm := by
  induction h with
  | refl => exact ⟨rfl, rfl⟩
  | tail _ hrests ih =>
    rw [hrests.log.log, RaftNode.log_takeReady, RaftNode.lastIndex_appliedLog,
      RaftNode.lastTerm_appliedLog]
    exact ih

/-! ### Waiting for a timeout -/

/-- Nobody who can be reached is leader, all have the same term, and nothing is on its way. -/
structure Waiting (sim : SimCluster) (T : ℕ) : Prop extends Formed sim where
  role : ∀ j ∈ sim.reach, (sim.nodes j).role ≠ .leader
  term : ∀ j ∈ sim.reach, (sim.nodes j).currentTerm = T
  timer : ∀ j ∈ sim.reach, (sim.nodes j).electionElapsed < (sim.nodes j).electionTimeout
  silent : ∀ j ∈ sim.reach, ∀ env ∈ (sim.nodes j).outgoing, env.dst ∉ sim.reach

/-- The ticks until the timeout of a node. -/
def remaining (sim : SimCluster) (j : NodeId) : ℕ :=
  (sim.nodes j).electionTimeout - (sim.nodes j).electionElapsed

theorem waiting_new (n : ℕ) (rng : NodeId → StdRng) : (new n rng).Waiting 0 where
  toFormed := formed_new n rng
  role j _ := by
    show Role.follower ≠ .leader
    decide
  term _ _ := rfl
  timer j _ := Nat.lt_of_lt_of_le (Nat.zero_lt_succ 4)
    (RaftNode.electionTimeoutMin_le_resetElectionTimer { (new n rng).nodes j with rng := rng j })
  silent j _ env henv := by
    cases henv

namespace Waiting

theorem elapsed_lt_of_later (hlater : 2 ≤ sim.remaining j) :
    (sim.nodes j).electionElapsed + 1 < (sim.nodes j).electionTimeout := by
  unfold remaining at hlater
  omega

variable (h : sim.Waiting T)
include h

/-- Nobody who can be reached has anything to receive if no timeout is due. -/
theorem inbox_eq_nil (hlater : ∀ k ∈ sim.reach, 2 ≤ sim.remaining k) (hj : j ∈ sim.reach) :
    sim.inbox j = [] := by
  refine List.eq_nil_iff_forall_not_mem.mpr fun m hm => ?_
  obtain ⟨hk, henv⟩ := mem_inbox.mp hm
  rw [RaftNode.tick_of_not_due (h.role _ hk) (elapsed_lt_of_later (hlater _ hk))] at henv
  exact h.silent _ hk _ henv hj

/-- **A step before the first timeout.** -/
theorem nodes_step_of_later (hlater : ∀ k ∈ sim.reach, 2 ≤ sim.remaining k) (hj : j ∈ sim.reach) :
    (sim.step codec).nodes j =
      { sim.nodes j with electionElapsed := (sim.nodes j).electionElapsed + 1 }.takeReady := by
  rw [nodes_step_of_mem h.nodup codec hj, h.inbox_eq_nil hlater hj, RaftNode.receiveAll_nil,
    RaftNode.tick_of_not_due (h.role _ hj) (elapsed_lt_of_later (hlater _ hj))]

/-- Everybody goes on waiting. -/
theorem step_of_later (hlater : ∀ k ∈ sim.reach, 2 ≤ sim.remaining k) :
    (sim.step codec).Waiting T where
  toFormed := h.toFormed.step codec
  role j hj := by
    rw [reach_step] at hj
    rw [h.nodes_step_of_later hlater hj, RaftNode.takeReady_eq]
    exact h.role j hj
  term j hj := by
    rw [reach_step] at hj
    rw [h.nodes_step_of_later hlater hj, RaftNode.takeReady_eq]
    exact h.term j hj
  timer j hj := by
    rw [reach_step] at hj
    rw [h.nodes_step_of_later hlater hj, RaftNode.takeReady_eq]
    exact elapsed_lt_of_later (hlater j hj)
  silent j hj env henv := by
    rw [reach_step] at hj
    rw [h.nodes_step_of_later hlater hj, RaftNode.takeReady_eq] at henv
    cases henv

theorem remaining_step_of_later (hlater : ∀ k ∈ sim.reach, 2 ≤ sim.remaining k)
    (hj : j ∈ sim.reach) : (sim.step codec).remaining j = sim.remaining j - 1 := by
  unfold remaining
  rw [h.nodes_step_of_later hlater hj, RaftNode.takeReady_eq]
  exact Nat.sub_add_eq _ _ 1

theorem rests_step_of_later (hlater : ∀ k ∈ sim.reach, 2 ≤ sim.remaining k) (hj : j ∈ sim.reach) :
    Rests codec j sim (sim.step codec) := by
  have htick := RaftNode.tick_of_not_due (h.role _ hj) (elapsed_lt_of_later (hlater _ hj))
  refine h.rests_step hj ?_ ?_
  · rw [htick]
    exact ⟨rfl, rfl, rfl, rfl⟩
  · rw [h.nodes_step_of_later hlater hj, htick]
    exact ⟨rfl, rfl, rfl, rfl⟩

variable (codec) in
/-- **As long as no timeout is due** everybody waits. -/
theorem run_of_later {k : ℕ} (hlater : ∀ j ∈ sim.reach, k < sim.remaining j) :
    (sim.run codec k).Waiting T ∧
      ∀ j ∈ sim.reach, (sim.run codec k).remaining j = sim.remaining j - k ∧
        Rested codec j sim (sim.run codec k) := by
  induction k with
  | zero => exact ⟨h, fun j _ => ⟨rfl, .refl⟩⟩
  | succ k ih =>
    obtain ⟨hwaiting, hrun⟩ := ih fun j hj => Nat.lt_of_succ_lt (hlater j hj)
    have hrest : ∀ j ∈ (sim.run codec k).reach, 2 ≤ (sim.run codec k).remaining j := by
      intro j hj
      rw [reach_run] at hj
      rw [(hrun j hj).1]
      exact Nat.le_sub_of_add_le' (hlater j hj)
    rw [run_succ]
    refine ⟨hwaiting.step_of_later hrest, fun j hj => ?_⟩
    have hj' : j ∈ (sim.run codec k).reach := by rwa [reach_run]
    refine ⟨?_, (hrun j hj).2.tail (hwaiting.rests_step_of_later hrest hj')⟩
    rw [hwaiting.remaining_step_of_later hrest hj', (hrun j hj).1, Nat.sub_sub]

end Waiting

/-! ### Polling -/

/-- The nodes whose timeout is due. -/
def candidates (sim : SimCluster) : List NodeId :=
  sim.reach.filter (sim.remaining · = 1)

/-- The request of a node whose timeout is due. -/
def request (sim : SimCluster) (c : NodeId) : RequestVote :=
  (sim.nodes c).standForElection.voteRequest

/-- Whom node `j` votes for if the nodes `cs` are candidates: itself, if it is one of them, and else
the first one whose log is up to date. -/
def ballot (sim : SimCluster) (cs : List NodeId) (j : NodeId) : Option NodeId :=
  if j ∈ cs then some j
  else cs.find? fun c =>
    (sim.nodes j).candidateIsUpToDate (sim.nodes c).log.lastIndex (sim.nodes c).log.lastTerm

/-- Node `j` in the term `T` with the candidates `cs`, after it has answered them with its vote. -/
structure Answered (T : ℕ) (cs : List NodeId) (j : NodeId) (vote : Option NodeId) (n : RaftNode) :
    Prop where
  term : n.currentTerm = T
  elapsed : n.electionElapsed = 0
  timeout : config.electionTimeoutMin ≤ n.electionTimeout
  candidate : j ∈ cs → n.role = .candidate ∧ n.votes.granted = {j}
  follower : j ∉ cs → n.role = .follower
  outgoing : n.outgoing = (cs.filter (· ≠ j)).map fun c =>
    ⟨c, .requestVoteReply { term := T, voterId := j, voteGranted := vote = some c }⟩

/-- What a message to every peer has for one of them. -/
theorem filter_broadcast {peers : List NodeId} (hpeers : peers.Nodup) (f : NodeId → Message)
    (j : NodeId) :
    (peers.map fun peer => (⟨peer, f peer⟩ : Envelope)).filter (·.dst = j) =
      if j ∈ peers then [⟨j, f j⟩] else [] := by
  have hone : peers.filter (· = j) = if j ∈ peers then [j] else [] := by
    rw [List.filter_eq, hpeers.count]
    split <;> rfl
  rw [List.filter_map]
  have hcomp : ((fun env : Envelope => decide (env.dst = j)) ∘ fun peer => ⟨peer, f peer⟩) =
      fun peer => decide (peer = j) := rfl
  rw [hcomp, hone]
  split <;> rfl

namespace Waiting

variable (h : sim.Waiting T)
include h

theorem two_le_remaining (hj : j ∈ sim.reach) (hnot : j ∉ sim.candidates) :
    2 ≤ sim.remaining j := by
  have htimer := h.timer j hj
  have hne : sim.remaining j ≠ 1 := fun heq =>
    hnot (List.mem_filter.mpr ⟨hj, decide_eq_true heq⟩)
  unfold remaining at hne ⊢
  omega

/-- The tick of a node whose timeout is due. -/
theorem tick_of_mem (hsize : 2 ≤ sim.ids.length) {c : NodeId} (hc : c ∈ sim.candidates) :
    (sim.nodes c).tick = { (sim.nodes c).standForElection with
      outgoing := (sim.nodes c).outgoing ++
        (sim.nodes c).peers.map fun peer => ⟨peer, .requestVote (sim.request c)⟩ } := by
  obtain ⟨hreach, hdue⟩ := List.mem_filter.mp hc
  have hrem : sim.remaining c = 1 := of_decide_eq_true hdue
  refine RaftNode.tick_of_due (h.role c hreach)
    (h.peers_ne_nil hsize (mem_reach.mp hreach).1) ?_
  unfold remaining at hrem
  omega

/-- Every node gets the requests of the candidates, in their order. -/
theorem inbox_eq_requests (hsize : 2 ≤ sim.ids.length) (hj : j ∈ sim.reach) :
    sim.inbox j = RaftNode.requests sim.request (sim.candidates.filter (· ≠ j)) := by
  have hmem : j ∈ sim.ids := (mem_reach.mp hj).1
  have hone : ∀ k ∈ sim.reach,
      ((sim.nodes k).tick.outgoing.filter (·.dst = j)).map (fun env => (k, env.message)) =
        if (decide (k ≠ j) && decide (sim.remaining k = 1)) = true then
          [(k, .requestVote (sim.request k))] else [] := by
    intro k hk
    have hsilent : (sim.nodes k).outgoing.filter (·.dst = j) = [] :=
      List.filter_eq_nil_iff.mpr fun env henv hdst =>
        h.silent k hk env henv (by rwa [of_decide_eq_true hdst])
    by_cases hdue : sim.remaining k = 1
    · have hc : k ∈ sim.candidates := List.mem_filter.mpr ⟨hk, decide_eq_true hdue⟩
      rw [h.tick_of_mem hsize hc, List.filter_append, hsilent, List.nil_append,
        filter_broadcast (h.nodup_peers (mem_reach.mp hk).1)]
      have hpeer := h.mem_peers (mem_reach.mp hk).1 hmem
      rcases eq_or_ne k j with rfl | hne
      · rw [if_neg fun hmem => (hpeer.mp hmem) rfl]
        simp
      · rw [if_pos (hpeer.mpr hne.symm)]
        simp [hne, hdue]
    · have hlater := h.two_le_remaining hk fun hc =>
        hdue (of_decide_eq_true (List.mem_filter.mp hc).2)
      rw [RaftNode.tick_of_not_due (h.role k hk) (elapsed_lt_of_later hlater), hsilent]
      simp [hdue]
  rw [inbox, List.flatMap_congr hone, ← Family.flatMap_filter, candidates, List.filter_filter,
    RaftNode.requests, List.map_eq_flatMap]

theorem term_request {c : NodeId} (hc : c ∈ sim.candidates) : (sim.request c).term = T + 1 :=
  congrArg (· + 1) (h.term c (List.mem_filter.mp hc).1)

theorem candidateId_request {c : NodeId} (hc : c ∈ sim.candidates) :
    (sim.request c).candidateId = c :=
  h.id_eq c (mem_reach.mp (List.mem_filter.mp hc).1).1

/-- A node that is not a candidate votes for the first candidate whose log is up to date. -/
theorem answered_of_notMem (hsize : 2 ≤ sim.ids.length) (hcs : sim.candidates ≠ [])
    (hj : j ∈ sim.reach) (hnot : j ∉ sim.candidates) :
    Answered (T + 1) sim.candidates j (sim.ballot sim.candidates j) ((sim.step codec).nodes j) ∧
      (sim.nodes j).tick.takeReady.SameLog ((sim.step codec).nodes j) := by
  have hmem : j ∈ sim.ids := (mem_reach.mp hj).1
  have hnodup : sim.candidates.Nodup := h.nodup_reach.filter _
  have hall : sim.candidates.filter (· ≠ j) = sim.candidates :=
    List.filter_eq_self.mpr fun c hc => decide_eq_true fun heq => hnot (heq ▸ hc)
  have htick := RaftNode.tick_of_not_due (h.role j hj)
    (elapsed_lt_of_later (h.two_le_remaining hj hnot))
  have happroves : (sim.nodes j).tick.takeReady.approves sim.request = fun c =>
      (sim.nodes j).candidateIsUpToDate (sim.nodes c).log.lastIndex (sim.nodes c).log.lastTerm := by
    funext c
    rw [RaftNode.approves, RaftNode.candidateIsUpToDate_takeReady, htick]
    rfl
  have hterm : (sim.nodes j).tick.takeReady.currentTerm < T + 1 := by
    rw [RaftNode.currentTerm_takeReady, htick]
    exact (h.term j hj).trans_lt (Nat.lt_succ_self T)
  have hnewer : ∀ c ∈ sim.candidates, (sim.request c).term = T + 1 := fun c => h.term_request
  obtain ⟨rng, timeout, hmin, heq⟩ := RaftNode.receiveAll_requests_of_newer hnodup hcs hnewer
    (fun c hc => h.candidateId_request hc) hterm
  have hstays := RaftNode.stays_tick (sim.nodes j)
  rw [RaftNode.config_takeReady, hstays.config_eq, h.config_eq j hmem] at hmin
  rw [nodes_step_of_mem h.nodup codec hj, h.inbox_eq_requests hsize hj, hall, heq, happroves]
  refine ⟨⟨rfl, rfl, hmin, fun hc => absurd hc hnot, fun _ => rfl, ?_⟩, ⟨rfl, rfl, rfl, rfl⟩⟩
  rw [hall, RaftNode.outgoing_takeReady, RaftNode.id_takeReady, hstays.id_eq, h.id_eq j hmem,
    ballot, if_neg hnot]
  rfl

/-- A candidate votes for itself. -/
theorem answered_of_mem (hsize : 2 ≤ sim.ids.length) (hj : j ∈ sim.candidates) :
    Answered (T + 1) sim.candidates j (sim.ballot sim.candidates j) ((sim.step codec).nodes j) ∧
      (sim.nodes j).tick.takeReady.SameLog ((sim.step codec).nodes j) := by
  have hreach : j ∈ sim.reach := (List.mem_filter.mp hj).1
  have hmem : j ∈ sim.ids := (mem_reach.mp hreach).1
  have htick := h.tick_of_mem hsize hj
  have hid : (sim.nodes j).id = j := h.id_eq j hmem
  have hterm : (sim.nodes j).tick.takeReady.currentTerm = T + 1 := by
    rw [RaftNode.currentTerm_takeReady, htick]
    exact congrArg (· + 1) (h.term j hreach)
  have hvoted : (sim.nodes j).tick.takeReady.votedFor = some j := by
    rw [RaftNode.votedFor_takeReady, htick]
    exact congrArg some hid
  have hsame : ∀ c ∈ sim.candidates.filter (· ≠ j),
      (sim.request c).term = (sim.nodes j).tick.takeReady.currentTerm := fun c hc =>
    (h.term_request (List.mem_filter.mp hc).1).trans hterm.symm
  have heq := RaftNode.receiveAll_requests_of_voted hsame
    (fun c hc => h.candidateId_request (List.mem_filter.mp hc).1) hvoted (by simp)
  rw [nodes_step_of_mem h.nodup codec hreach, h.inbox_eq_requests hsize hreach, heq]
  refine ⟨⟨hterm, ?_, ?_, fun _ => ⟨?_, ?_⟩, fun hnot => absurd hj hnot, ?_⟩, ⟨rfl, rfl, rfl, rfl⟩⟩
  · show (sim.nodes j).tick.takeReady.electionElapsed = 0
    rw [RaftNode.electionElapsed_takeReady, htick]
    rfl
  · show _ ≤ (sim.nodes j).tick.takeReady.electionTimeout
    rw [RaftNode.electionTimeout_takeReady, htick, ← h.config_eq j hmem]
    exact RaftNode.electionTimeoutMin_le_resetElectionTimer (sim.nodes j)
  · show (sim.nodes j).tick.takeReady.role = .candidate
    rw [RaftNode.role_takeReady, htick]
    rfl
  · show (sim.nodes j).tick.takeReady.votes.granted = {j}
    rw [RaftNode.votes_takeReady, htick]
    show (insert (sim.nodes j).id ∅ : Finset NodeId) = {j}
    rw [hid]
    rfl
  · show (sim.nodes j).tick.takeReady.outgoing ++ _ = _
    rw [RaftNode.outgoing_takeReady, List.nil_append, ballot, if_pos hj, RaftNode.voteReply, hterm,
      RaftNode.id_takeReady, (RaftNode.stays_tick (sim.nodes j)).id_eq, hid]
    refine List.map_congr_left fun c hc => ?_
    have hne : j ≠ c := fun heq => (of_decide_eq_true (List.mem_filter.mp hc).2) heq.symm
    simp [hne]

theorem answered (hsize : 2 ≤ sim.ids.length) (hcs : sim.candidates ≠ []) (hj : j ∈ sim.reach) :
    Answered (T + 1) sim.candidates j (sim.ballot sim.candidates j) ((sim.step codec).nodes j) ∧
      (sim.nodes j).tick.takeReady.SameLog ((sim.step codec).nodes j) := by
  by_cases hc : j ∈ sim.candidates
  · exact h.answered_of_mem hsize hc
  · exact h.answered_of_notMem hsize hcs hj hc

theorem rests_step (hsize : 2 ≤ sim.ids.length) (hcs : sim.candidates ≠ []) (hj : j ∈ sim.reach) :
    Rests codec j sim (sim.step codec) :=
  h.toFormed.rests_step hj
    (.of_tick (h.role j hj) (h.peers_ne_nil hsize (mem_reach.mp hj).1)) (h.answered hsize hcs hj).2

end Waiting

/-- The candidates `cs` have asked for votes in the term `T`, and everybody has answered. -/
structure Polled (sim : SimCluster) (T : ℕ) (cs : List NodeId) (vote : NodeId → Option NodeId) :
    Prop extends Formed sim where
  answered : ∀ j ∈ sim.reach, Answered T cs j (vote j) (sim.nodes j)
  size : 2 ≤ sim.ids.length
  nodup_cs : cs.Nodup
  cs_subset : ∀ c ∈ cs, c ∈ sim.reach
  vote_self : ∀ c ∈ cs, vote c = some c

theorem Polled.congr {cs : List NodeId} {vote vote' : NodeId → Option NodeId}
    (h : sim.Polled T cs vote) (hvote : ∀ j ∈ sim.reach, vote j = vote' j) :
    sim.Polled T cs vote' where
  toFormed := h.toFormed
  answered j hj := hvote j hj ▸ h.answered j hj
  size := h.size
  nodup_cs := h.nodup_cs
  cs_subset := h.cs_subset
  vote_self c hc := hvote c (h.cs_subset c hc) ▸ h.vote_self c hc

variable (codec) in
theorem Waiting.polled (h : sim.Waiting T) (hsize : 2 ≤ sim.ids.length)
    (hcs : sim.candidates ≠ []) :
    (sim.step codec).Polled (T + 1) sim.candidates (sim.ballot sim.candidates) where
  toFormed := h.toFormed.step codec
  answered j hj := (h.answered hsize hcs (reach_step codec sim ▸ hj)).1
  size := by rwa [ids_step]
  nodup_cs := h.nodup_reach.filter _
  cs_subset c hc := by
    rw [reach_step]
    exact (List.mem_filter.mp hc).1
  vote_self c hc := if_pos hc

/-! ### Counting -/

/-- The votes that a candidate gets. -/
def votesFor (sim : SimCluster) (vote : NodeId → Option NodeId) (c : NodeId) : ℕ :=
  (sim.reach.filter fun j => vote j = some c).length

/-- More than half of all nodes of the cluster. -/
def majority (sim : SimCluster) : ℕ :=
  sim.ids.length / 2 + 1

/-- A node that has nothing to say, some time before its timeout. -/
structure Idle (T : ℕ) (n : RaftNode) : Prop where
  role : n.role ≠ .leader
  term : n.currentTerm = T
  elapsed : n.electionElapsed ≤ 1
  timeout : config.electionTimeoutMin ≤ n.electionTimeout
  outgoing : n.outgoing = []

/-- Node `i` has just become leader in the term `T`. -/
structure Elected (sim : SimCluster) (T : ℕ) (i : NodeId) : Prop extends Formed sim where
  mem : i ∈ sim.reach
  office : ∃ d : RaftNode, d.outgoing = [] ∧ d.currentTerm = T ∧ sim.nodes i = d.becomeLeader
  idle : ∀ j ∈ sim.reach, j ≠ i → Idle T (sim.nodes j)

theorem Elected.leads (h : sim.Elected T i) (hj : j ∈ sim.reach) :
    (sim.nodes j).currentTerm = T ∧ ((sim.nodes j).role = .leader ↔ j = i) := by
  rcases eq_or_ne j i with rfl | hne
  · obtain ⟨d, -, hterm, heq⟩ := h.office
    have hrole : d.becomeLeader.role = .leader := by
      rw [RaftNode.becomeLeader, RaftNode.advanceCommit_eq, RaftNode.broadcastAppend_eq]
      rfl
    rw [heq]
    exact ⟨(RaftNode.currentTerm_becomeLeader d).trans hterm, iff_of_true hrole rfl⟩
  · exact ⟨(h.idle j hj hne).term, iff_of_false (h.idle j hj hne).role hne⟩

namespace Polled

variable {cs : List NodeId} {vote : NodeId → Option NodeId} (h : sim.Polled T cs vote)
include h

/-- Nobody's timeout is due. -/
theorem tick_eq (hj : j ∈ sim.reach) :
    (sim.nodes j).tick = { sim.nodes j with electionElapsed := 1 } := by
  have hanswered := h.answered j hj
  have hrole : (sim.nodes j).role ≠ .leader := by
    by_cases hc : j ∈ cs
    · rw [(hanswered.candidate hc).1]
      decide
    · rw [hanswered.follower hc]
      decide
  have htimeout : 5 ≤ (sim.nodes j).electionTimeout := hanswered.timeout
  rw [RaftNode.tick_of_not_due hrole (by rw [hanswered.elapsed]; omega), hanswered.elapsed]

/-- A candidate gets the answers of all the others. -/
theorem inbox_of_mem {c : NodeId} (hc : c ∈ cs) :
    sim.inbox c = RaftNode.replies T
      ((sim.reach.filter (· ≠ c)).map fun k => (k, decide (vote k = some c))) := by
  have hone : ∀ k ∈ sim.reach,
      ((sim.nodes k).tick.outgoing.filter (·.dst = c)).map (fun env => (k, env.message)) =
        if decide (k ≠ c) = true then [(k, .requestVoteReply
          { term := T, voterId := k, voteGranted := vote k = some c })] else [] := by
    intro k hk
    rw [h.tick_eq hk, (h.answered k hk).outgoing, filter_broadcast (h.nodup_cs.filter _)]
    rcases eq_or_ne k c with rfl | hne
    · simp
    · rw [if_pos (List.mem_filter.mpr ⟨hc, decide_eq_true hne.symm⟩)]
      simp [hne]
  rw [inbox, List.flatMap_congr hone, ← Family.flatMap_filter, RaftNode.replies, List.map_map,
    List.map_eq_flatMap]
  rfl

/-- The others get nothing. -/
theorem inbox_of_notMem (hj : j ∉ cs) : sim.inbox j = [] := by
  refine List.eq_nil_iff_forall_not_mem.mpr fun m hm => ?_
  obtain ⟨hk, henv⟩ := mem_inbox.mp hm
  rw [h.tick_eq hk, (h.answered _ hk).outgoing] at henv
  obtain ⟨c, hc, heq⟩ := List.mem_map.mp henv
  have hdst : c = j := congrArg Envelope.dst heq
  exact hj (hdst ▸ (List.mem_filter.mp hc).1)

/-- What the answers add up to. -/
theorem count_tally {c : NodeId} (hc : c ∈ cs) :
    (RaftNode.tally (sim.nodes c).votes
      ((sim.reach.filter (· ≠ c)).map fun k => (k, decide (vote k = some c)))).count =
      sim.votesFor vote c := by
  have hreach := h.nodup_reach
  have hself : c ∈ sim.reach := h.cs_subset c hc
  have hgranted : (RaftNode.tally (sim.nodes c).votes
      ((sim.reach.filter (· ≠ c)).map fun k => (k, decide (vote k = some c)))).granted =
      (sim.reach.filter fun j => vote j = some c).toFinset := by
    rw [RaftNode.granted_tally, ((h.answered c hself).candidate hc).2, List.filter_map,
      List.map_map]
    ext v
    have hv : v = c → v ∈ sim.reach ∧ vote v = some c := by
      rintro rfl
      exact ⟨hself, h.vote_self v hc⟩
    simp only [Finset.mem_union, Finset.mem_singleton, List.mem_toFinset, List.mem_map,
      List.mem_filter, Function.comp_apply, decide_eq_true_eq]
    grind
  rw [VoteTally.count, hgranted, List.toFinset_card_of_nodup (hreach.filter _), votesFor]

variable (codec) in
/-- **A candidate becomes leader if and only if it has a majority.** -/
theorem nodes_step_of_mem {c : NodeId} (hc : c ∈ cs) :
    (sim.votesFor vote c < sim.majority →
        ∃ votes, (sim.step codec).nodes c = { (sim.nodes c).tick.takeReady with votes }) ∧
      (sim.majority ≤ sim.votesFor vote c →
        ∃ votes, (sim.step codec).nodes c =
          { (sim.nodes c).tick.takeReady with votes }.becomeLeader) := by
  have hreach : c ∈ sim.reach := h.cs_subset c hc
  have hmem : c ∈ sim.ids := (mem_reach.mp hreach).1
  have hanswered := h.answered c hreach
  have hmajority : (sim.nodes c).tick.takeReady.majority = sim.majority := by
    rw [RaftNode.majority, RaftNode.clusterSize, RaftNode.peers_takeReady,
      (RaftNode.stays_tick _).peers_eq]
    exact congrArg (· / 2 + 1) (h.clusterSize_eq hmem)
  have hcount : (sim.nodes c).tick.takeReady.votes = (sim.nodes c).votes := by
    rw [RaftNode.votes_takeReady, h.tick_eq hreach]
  have hsize := h.size
  obtain ⟨hlost, hwon⟩ := RaftNode.receiveAll_replies (n := (sim.nodes c).tick.takeReady) (T := T)
    ((sim.reach.filter (· ≠ c)).map fun k => (k, decide (vote k = some c)))
    (by rw [RaftNode.role_takeReady, h.tick_eq hreach]; exact (hanswered.candidate hc).1)
    (by rw [RaftNode.currentTerm_takeReady, h.tick_eq hreach]; exact hanswered.term)
    (by
      rw [hmajority, hcount, VoteTally.count, (hanswered.candidate hc).2, Finset.card_singleton,
        majority]
      omega)
  rw [hcount, hmajority, h.count_tally hc] at hlost hwon
  rw [SimCluster.nodes_step_of_mem h.nodup codec hreach, h.inbox_of_mem hc]
  exact ⟨fun hfew => ⟨_, hlost hfew⟩, hwon⟩

theorem nodes_step_of_notMem (hj : j ∈ sim.reach) (hnot : j ∉ cs) :
    (sim.step codec).nodes j = (sim.nodes j).tick.takeReady := by
  rw [SimCluster.nodes_step_of_mem h.nodup codec hj, h.inbox_of_notMem hnot,
    RaftNode.receiveAll_nil]

theorem role_ne (j : NodeId) (hj : j ∈ sim.reach) : (sim.nodes j).role ≠ .leader := by
  have hanswered := h.answered j hj
  by_cases hc : j ∈ cs
  · rw [(hanswered.candidate hc).1]
    decide
  · rw [hanswered.follower hc]
    decide

/-- Two candidates cannot both have a majority. -/
theorem eq_of_majority {c c' : NodeId} (hc : sim.majority ≤ sim.votesFor vote c)
    (hc' : sim.majority ≤ sim.votesFor vote c') : c = c' := by
  by_contra hne
  have hreach := h.nodup_reach
  have hdisjoint : Disjoint (sim.reach.filter fun j => vote j = some c).toFinset
      (sim.reach.filter fun j => vote j = some c').toFinset := by
    refine Finset.disjoint_left.mpr fun j hj hj' => hne ?_
    simp only [List.mem_toFinset, List.mem_filter, decide_eq_true_eq] at hj hj'
    exact Option.some.inj (hj.2.symm.trans hj'.2)
  have hsubset : (sim.reach.filter fun j => vote j = some c).toFinset ∪
      (sim.reach.filter fun j => vote j = some c').toFinset ⊆ sim.ids.toFinset := by
    intro j
    simp only [Finset.mem_union, List.mem_toFinset, List.mem_filter]
    rintro (⟨hj, -⟩ | ⟨hj, -⟩) <;> exact (mem_reach.mp hj).1
  have hcard := Finset.card_le_card hsubset
  rw [Finset.card_union_of_disjoint hdisjoint, List.toFinset_card_of_nodup (hreach.filter _),
    List.toFinset_card_of_nodup (hreach.filter _), List.toFinset_card_of_nodup h.nodup] at hcard
  unfold votesFor majority at hc hc'
  omega

/-- What a node that does not win looks like afterwards. -/
theorem loses (hj : j ∈ sim.reach) (hlost : j ∈ cs → sim.votesFor vote j < sim.majority) :
    Idle T ((sim.step codec).nodes j) := by
  have hanswered := h.answered j hj
  have hidle : Idle T (sim.nodes j).tick.takeReady := by
    have htimeout : 5 ≤ (sim.nodes j).electionTimeout := hanswered.timeout
    rw [h.tick_eq hj, RaftNode.takeReady_eq]
    exact ⟨h.role_ne j hj, hanswered.term, le_rfl, htimeout, rfl⟩
  by_cases hc : j ∈ cs
  · obtain ⟨votes, heq⟩ := (h.nodes_step_of_mem codec hc).1 (hlost hc)
    rw [heq]
    exact ⟨hidle.role, hidle.term, hidle.elapsed, hidle.timeout, hidle.outgoing⟩
  · rwa [h.nodes_step_of_notMem hj hc]

theorem rests_step (hj : j ∈ sim.reach) : Rests codec j sim (sim.step codec) := by
  have hticked : (sim.nodes j).SameLog (sim.nodes j).tick := by
    rw [h.tick_eq hj]
    exact ⟨rfl, rfl, rfl, rfl⟩
  refine h.toFormed.rests_step hj hticked ?_
  by_cases hc : j ∈ cs
  · obtain ⟨hlost, hwon⟩ := h.nodes_step_of_mem codec hc
    rcases Nat.lt_or_ge (sim.votesFor vote j) sim.majority with hfew | hmajority
    · obtain ⟨votes, heq⟩ := hlost hfew
      rw [heq]
      exact ⟨rfl, rfl, rfl, rfl⟩
    · obtain ⟨votes, heq⟩ := hwon hmajority
      have hpeers : (sim.nodes j).tick.takeReady.peers ≠ [] := by
        rw [RaftNode.peers_takeReady, (RaftNode.stays_tick _).peers_eq]
        exact h.peers_ne_nil h.size (mem_reach.mp hj).1
      have hoffice := RaftNode.SameLog.of_becomeLeader
        (n := { (sim.nodes j).tick.takeReady with votes }) hpeers
      rw [heq]
      exact ⟨hoffice.log, hoffice.commitIndex, hoffice.lastApplied, hoffice.committed⟩
  · rw [h.nodes_step_of_notMem hj hc]
    exact ⟨rfl, rfl, rfl, rfl⟩

/-- Without a majority everybody waits for the next timeout. -/
theorem step_of_lost (hlost : ∀ c ∈ cs, sim.votesFor vote c < sim.majority) :
    (sim.step codec).Waiting T := by
  have hidle : ∀ j ∈ (sim.step codec).reach, Idle T ((sim.step codec).nodes j) := fun j hj =>
    h.loses (reach_step codec sim ▸ hj) (hlost j)
  exact {
    toFormed := h.toFormed.step codec
    role := fun j hj => (hidle j hj).role
    term := fun j hj => (hidle j hj).term
    timer := fun j hj =>
      ((hidle j hj).elapsed.trans_lt (by decide)).trans_le (hidle j hj).timeout
    silent := fun j hj env henv => by
      rw [(hidle j hj).outgoing] at henv
      cases henv }

/-- With a majority there is a leader. -/
theorem step_of_won {c : NodeId} (hc : c ∈ cs) (hwon : sim.majority ≤ sim.votesFor vote c) :
    (sim.step codec).Elected T c := by
  have hreach : c ∈ sim.reach := h.cs_subset c hc
  obtain ⟨votes, heq⟩ := (h.nodes_step_of_mem codec hc).2 hwon
  exact {
    toFormed := h.toFormed.step codec
    mem := by rwa [reach_step]
    office := by
      refine ⟨_, rfl, ?_, heq⟩
      show (sim.nodes c).tick.takeReady.currentTerm = T
      rw [RaftNode.currentTerm_takeReady, h.tick_eq hreach]
      exact (h.answered c hreach).term
    idle := fun j hj hne => h.loses (reach_step codec sim ▸ hj) fun _ =>
      Nat.lt_of_not_le fun hmajority => hne (h.eq_of_majority hmajority hwon) }

end Polled

/-! ### The round -/

theorem ballot_eq_of_rested {sim' : SimCluster} {cs : List NodeId}
    (hrested : ∀ k ∈ sim.reach, Rested codec k sim sim') (hcs : ∀ c ∈ cs, c ∈ sim.reach)
    (hj : j ∈ sim.reach) : sim'.ballot cs j = sim.ballot cs j := by
  unfold ballot
  congr 1
  refine List.find?_congr fun c hc => ?_
  obtain ⟨hindex, hterm⟩ := (hrested c (hcs c hc)).end_eq
  obtain ⟨hindex', hterm'⟩ := (hrested j hj).end_eq
  unfold RaftNode.candidateIsUpToDate
  rw [hindex, hterm, hindex', hterm']

/-- The nodes with the first timeout, `m` ticks from now. -/
def firsts (sim : SimCluster) (m : ℕ) : List NodeId :=
  sim.reach.filter (sim.remaining · = m)

namespace Waiting

variable {m : ℕ} (h : sim.Waiting T) (hsize : 2 ≤ sim.ids.length)
  (hleast : ∀ j ∈ sim.reach, m ≤ sim.remaining j) (hdue : ∃ j ∈ sim.reach, sim.remaining j = m)
include h hsize hleast hdue

variable (codec) in
/-- The first timeouts of the round, and the votes. -/
theorem polled_run :
    (sim.run codec m).Polled (T + 1) (sim.firsts m) (sim.ballot (sim.firsts m)) ∧
      ∀ j ∈ sim.reach, Rested codec j sim (sim.run codec m) := by
  obtain ⟨k, hk⟩ : ∃ k, m = k + 1 := by
    obtain ⟨j, hj, rfl⟩ := hdue
    exact Nat.exists_eq_succ_of_ne_zero (Nat.sub_pos_of_lt (h.timer j hj)).ne'
  subst hk
  obtain ⟨hwaiting, hrun⟩ := h.run_of_later codec fun j hj => hleast j hj
  have hcandidates : (sim.run codec k).candidates = sim.firsts (k + 1) := by
    unfold candidates firsts
    rw [reach_run]
    refine List.filter_congr fun j hj => ?_
    have hle := hleast j hj
    rw [(hrun j hj).1, decide_eq_decide]
    omega
  have hsome : (sim.run codec k).candidates ≠ [] := by
    obtain ⟨j, hj, hrem⟩ := hdue
    rw [hcandidates]
    exact List.ne_nil_of_mem (List.mem_filter.mpr ⟨hj, decide_eq_true hrem⟩)
  have hsize' : 2 ≤ (sim.run codec k).ids.length := by rwa [ids_run]
  have hpolled := hwaiting.polled codec hsize' hsome
  rw [run_succ, ← hcandidates]
  refine ⟨hpolled.congr fun j hj => ?_, fun j hj => (hrun j hj).2.tail ?_⟩
  · rw [reach_step, reach_run] at hj
    refine ballot_eq_of_rested (fun k hk => (hrun k hk).2) (fun c hc => ?_) hj
    exact reach_run codec sim k ▸ (List.mem_filter.mp hc).1
  · exact hwaiting.rests_step hsize' hsome (by rwa [reach_run])

variable (codec) in
/-- **A round of an election.** Of the nodes with the first timeout the one that gets a majority of
the votes is elected, if there is one; otherwise everybody waits again, in the next term. Nothing
happens to the logs. -/
theorem round :
    (∀ c ∈ sim.firsts m, sim.majority ≤ sim.votesFor (sim.ballot (sim.firsts m)) c →
        (sim.run codec (m + 1)).Elected (T + 1) c) ∧
      ((∀ c ∈ sim.firsts m, sim.votesFor (sim.ballot (sim.firsts m)) c < sim.majority) →
        (sim.run codec (m + 1)).Waiting (T + 1)) ∧
      ∀ j ∈ sim.reach, Rested codec j sim (sim.run codec (m + 1)) := by
  obtain ⟨hpolled, hrested⟩ := h.polled_run codec hsize hleast hdue
  have hmajority : (sim.run codec m).majority = sim.majority := by
    rw [majority, ids_run, majority]
  have hvotes : ∀ vote c, (sim.run codec m).votesFor vote c = sim.votesFor vote c := by
    intro vote c
    rw [votesFor, reach_run, votesFor]
  rw [run_succ]
  refine ⟨fun c hc hwon => hpolled.step_of_won hc ?_, fun hlost => hpolled.step_of_lost ?_, ?_⟩
  · rwa [hmajority, hvotes]
  · intro c hc
    rw [hmajority, hvotes]
    exact hlost c hc
  · intro j hj
    exact (hrested j hj).tail (hpolled.rests_step (by rwa [reach_run]))

end Waiting

variable (codec) in
/-- **Who is elected.** A round of an election takes everybody who can be reached into the next
term. Exactly the node that is among the first to time out and gets the votes of a majority of the
whole cluster is leader then, where everybody votes for the first candidate with a log that is not
behind its own. If there is no such node, the next round begins. -/
theorem election_decided {m : ℕ} (h : sim.Waiting T) (hsize : 2 ≤ sim.ids.length)
    (hleast : ∀ j ∈ sim.reach, m ≤ sim.remaining j)
    (hdue : ∃ j ∈ sim.reach, sim.remaining j = m) :
    (∀ j ∈ sim.reach, ((sim.run codec (m + 1)).nodes j).currentTerm = T + 1 ∧
        (((sim.run codec (m + 1)).nodes j).role = .leader ↔
          j ∈ sim.firsts m ∧ sim.majority ≤ sim.votesFor (sim.ballot (sim.firsts m)) j)) ∧
      ((∀ j ∈ sim.reach, ((sim.run codec (m + 1)).nodes j).role ≠ .leader) →
        (sim.run codec (m + 1)).Waiting (T + 1)) := by
  obtain ⟨hwon, hlost, -⟩ := h.round codec hsize hleast hdue
  by_cases hsome : ∃ c ∈ sim.firsts m,
      sim.majority ≤ sim.votesFor (sim.ballot (sim.firsts m)) c
  · obtain ⟨c, hc, hmajority⟩ := hsome
    have helected := hwon c hc hmajority
    have hreach : c ∈ sim.reach := (List.mem_filter.mp hc).1
    refine ⟨fun j hj => ?_, fun hnobody => ?_⟩
    · have hleads := helected.leads (j := j) (by rwa [reach_run])
      refine ⟨hleads.1, hleads.2.trans ⟨?_, fun hj' => ?_⟩⟩
      · rintro rfl
        exact ⟨hc, hmajority⟩
      · have hother := hwon j hj'.1 hj'.2
        exact (helected.leads (by rwa [reach_run])).2.mp
          ((hother.leads (by rwa [reach_run])).2.mpr rfl)
    · exact absurd ((helected.leads (by rwa [reach_run])).2.mpr rfl) (hnobody c hreach)
  · push Not at hsome
    have hwaiting := hlost hsome
    refine ⟨fun j hj => ?_, fun _ => hwaiting⟩
    have hj' : j ∈ (sim.run codec (m + 1)).reach := by rwa [reach_run]
    exact ⟨hwaiting.term j hj', iff_of_false (hwaiting.role j hj') fun hwins =>
      absurd hwins.2 (not_le.mpr (hsome j hwins.1))⟩

/-- Two of five nodes have the first timeout. -/
def tied (i : NodeId) : StdRng :=
  ⟨fun _ => if i = "n0" ∨ i = "n1" then 0 else 3⟩

theorem election_decided_tied :
    (new 5 tied).firsts 5 = ["n0", "n1"] ∧
      (((new 5 tied).run Codec.tagged 6).nodes "n0").role = .leader ∧
      (((new 5 tied).run Codec.tagged 6).nodes "n1").role ≠ .leader := by
  have hdecided := (election_decided (m := 5) Codec.tagged (waiting_new 5 tied) (by decide)
    (by decide +kernel) (by decide +kernel)).1
  refine ⟨by decide +kernel, ?_, ?_⟩
  · exact (hdecided "n0" (by decide +kernel)).2.mpr (by decide +kernel)
  · rw [ne_eq, (hdecided "n1" (by decide +kernel)).2]
    decide +kernel

end SimCluster

end Ferrium
