import Ferrium.Cluster.Replicas
import Ferrium.Raft.Streaming
import Ferrium.Sim.Elections

/-!
# Replication in the simulation

What follows an election in the part of the cluster that can be reached, as long as the leader is
among it: with every step the leader sends its log to the others, they answer, and it commits what a
majority has.

The whole state is described by the log `F` of the leader and two of its prefixes. The others have
`F` up to `K`, and the leader knows of it up to `K₀`.
-/

namespace Ferrium

open Branch RaftLog StorageEngine RaftNode

namespace SimCluster

variable {codec : Codec} {sim : SimCluster} {i j : NodeId} {T K₀ K : ℕ} {F : List LogEntry}
  {n n' : RaftNode} {store : MemoryEngine}

/-! ### Nodes and their stores -/

/-- What the node has of the log is left of `F`, and its store has what it has applied of it. -/
structure Holds (codec : Codec) (F : List LogEntry) (n : RaftNode) (store : MemoryEngine) :
    Prop where
  log : RestOf F n.log
  chained : n.Chained
  drained : n.committed = []
  store : get store = codec.replay (get MemoryEngine.new) (F.take n.lastApplied)

namespace Holds

/-- More may be committed of the log. -/
theorem of_commit (h : Holds codec F n store) (hlog : n'.log = n.log)
    (happlied : n'.lastApplied = n.lastApplied) (hcommitted : n'.committed = n.committed)
    (hcommit : n.commitIndex ≤ n'.commitIndex) (hle : n'.commitIndex ≤ F.length) :
    Holds codec F n' store where
  log := hlog ▸ h.log
  chained := by
    refine ⟨?_, happlied.trans_le (h.chained.applied_le.trans hcommit), ?_⟩
    · rw [hlog, happlied]
      exact h.chained.snapshot_le
    · rw [hlog, ← h.log.length_eq]
      exact hle
  drained := hcommitted.trans h.drained
  store := happlied ▸ h.store

theorem commit_le (h : Holds codec F n store) : n.commitIndex ≤ F.length :=
  h.log.length_eq ▸ h.chained.commit_le

theorem sameLog (h : Holds codec F n store) (hsame : SameLog n n') : Holds codec F n' store :=
  h.of_commit hsame.log hsame.lastApplied hsame.committed hsame.commitIndex.ge
    (hsame.commitIndex.trans_le h.commit_le)

/-- Draining a node applies what is committed. -/
theorem takeReady (h : Holds codec F n store) :
    Holds codec F n.takeReady (n.ready.committed.foldl (Committed.applyTo codec) store) where
  log := by
    rw [log_takeReady]
    rcases n.appliedLog_cases with heq | heq
    · rw [heq]
      exact h.log
    · rw [heq]
      exact h.log.compact _
  chained := h.chained.takeReady
  drained := committed_takeReady n
  store := by
    rw [committed_ready, h.drained, List.nil_append, lastApplied_takeReady, newlyApplied,
      appliedIndex]
    refine Cluster.get_foldl_appliedAt h.log.covers _ h.chained.snapshot_le ?_ h.store
    have happlied := h.chained.applied_le
    have hcommit := h.commit_le
    omega

theorem lastApplied_takeReady (h : Holds codec F n store) :
    n.takeReady.lastApplied = n.commitIndex :=
  (RaftNode.lastApplied_takeReady n).trans h.chained.appliedIndex_eq

theorem snapshotIndex_le (h : Holds codec F n store) : n.log.snapshotIndex ≤ n.commitIndex :=
  h.chained.snapshot_le.trans h.chained.applied_le

end Holds

theorem Rested.holds {sim' : SimCluster} (h : Rested codec j sim sim')
    (hholds : Holds codec F (sim.nodes j) (sim.stores j)) :
    Holds codec F (sim'.nodes j) (sim'.stores j) := by
  induction h with
  | refl => exact hholds
  | tail _ hrests ih =>
    rw [hrests.store]
    exact ih.takeReady.sameLog hrests.log

/-! ### Leader and followers -/

/-- A follower of the leader `i` that has its log up to `K`, and has told it so, or has nothing to
tell it. -/
structure Following (T : ℕ) (i : NodeId) (K₀ K : ℕ) (j : NodeId) (n : RaftNode) : Prop where
  role : n.role ≠ .leader
  term : n.currentTerm = T
  elapsed : n.electionElapsed ≤ 1
  timeout : config.electionTimeoutMin ≤ n.electionTimeout
  commit_le : n.commitIndex ≤ K₀
  answers : ∃ rs : List ℕ, n.outgoing = rs.map (fun r => ⟨i, ack T j r⟩) ∧ (∀ r ∈ rs, r ≤ K) ∧
    (rs = [] ∧ K = K₀ ∨ rs.getLast? = some K)

/-- A leader that knows that the nodes `reach` have its log `F` up to `K₀`, and sends the rest. -/
structure Leading (T : ℕ) (F : List LogEntry) (K₀ : ℕ) (reach : List NodeId) (i : NodeId)
    (n : RaftNode) : Prop where
  role : n.role = .leader
  term : n.currentTerm = T
  commit_le : n.commitIndex ≤ K₀
  next_eq : ∀ j ∈ reach, j ≠ i → n.progress.nextIndex j = K₀ + 1
  match_le : ∀ p ∈ n.peers, n.progress.matchIndex p ≤ K₀
  dst_mem : ∀ env ∈ n.outgoing, env.dst ∈ n.peers
  outgoing : ∀ env ∈ n.outgoing, env.dst ∈ reach →
    ∃ m, env.message = .appendEntries m ∧ Carries F T i K₀ m ∧ m.leaderCommit ≤ K₀

/-- The leader `i` replicates its log `F` in the term `T`. -/
structure Steady (codec : Codec) (sim : SimCluster) (i : NodeId) (T : ℕ) (F : List LogEntry)
    (K₀ K : ℕ) : Prop extends Formed sim where
  size : 2 ≤ sim.ids.length
  mem : i ∈ sim.reach
  known_le : K₀ ≤ K
  le_length : K ≤ F.length
  terms : F.Pairwise (·.term ≤ ·.term)
  term_le : ∀ e ∈ F, e.term ≤ T
  leading : Leading T F K₀ sim.reach i (sim.nodes i)
  leads : Holds codec F (sim.nodes i) (sim.stores i)
  following : ∀ j ∈ sim.reach, j ≠ i → Following T i K₀ K j (sim.nodes j)
  follows : ∀ j ∈ sim.reach, j ≠ i → Holds codec (F.take K) (sim.nodes j) (sim.stores j)

theorem nodes_propose_of_ne (command : WriteCommand) (hne : j ≠ i) :
    (sim.propose codec i command).nodes j = sim.nodes j :=
  Function.update_of_ne hne _ _

namespace Steady

variable (h : sim.Steady codec i T F K₀ K)
include h

theorem mem_ids : i ∈ sim.ids :=
  (mem_reach.mp h.mem).1

theorem tick_of_leader :
    (sim.nodes i).tick = { sim.nodes i with
      heartbeatElapsed := 0
      outgoing := (sim.nodes i).outgoing ++
        (sim.nodes i).peers.map fun peer => ⟨peer, (sim.nodes i).appendFor peer⟩ } := by
  have hdue : (sim.nodes i).config.heartbeatTicks ≤ (sim.nodes i).heartbeatElapsed + 1 := by
    rw [h.config_eq i h.mem_ids]
    exact Nat.le_add_left 1 _
  rw [RaftNode.tick_of_leader h.leading.role, if_pos hdue, broadcastAppend_eq]
  rfl

theorem tick_of_follower (hj : j ∈ sim.reach) (hne : j ≠ i) :
    (sim.nodes j).tick =
      { sim.nodes j with electionElapsed := (sim.nodes j).electionElapsed + 1 } := by
  have hfollowing := h.following j hj hne
  have htimeout : 5 ≤ (sim.nodes j).electionTimeout := hfollowing.timeout
  have helapsed := hfollowing.elapsed
  exact tick_of_not_due hfollowing.role (by omega)

/-- What the leader sends with a step. -/
theorem appendFor_eq (hj : j ∈ sim.reach) (hne : j ≠ i) :
    ∃ m, (sim.nodes i).appendFor j = .appendEntries m ∧ Carries F T i K₀ m ∧
      K₀ + m.entries.length = F.length ∧ m.leaderCommit = (sim.nodes i).commitIndex := by
  have hsend := appendFor_of_restOf h.leads.log h.leading.term (h.leading.next_eq j hj hne)
    (h.leads.snapshotIndex_le.trans h.leading.commit_le) (h.known_le.trans h.le_length)
  rwa [h.id_eq i h.mem_ids] at hsend

/-! ### A step -/

/-- What a follower gets: windows of the log of the leader, and one that reaches its end. -/
theorem inbox_of_follower (hj : j ∈ sim.reach) (hne : j ≠ i) :
    ∃ ms : List AppendEntries, sim.inbox j = ms.map (fun m => (i, .appendEntries m)) ∧
      (∀ m ∈ ms, Carries F T i K₀ m ∧ m.leaderCommit ≤ K₀) ∧
      ∃ m ∈ ms, K₀ + m.entries.length = F.length ∧
        m.leaderCommit = (sim.nodes i).commitIndex := by
  have hpeer : j ∈ (sim.nodes i).peers := (h.mem_peers h.mem_ids (mem_reach.mp hj).1).mpr hne
  obtain ⟨last, happend, hcarries, hend, hcommit⟩ := h.appendFor_eq hj hne
  -- the messages that were queued before the tick
  obtain ⟨ms, hms, hcarried⟩ : ∃ ms : List AppendEntries,
      ((sim.nodes i).outgoing.filter (·.dst = j)).map (fun env => (i, env.message)) =
        ms.map (fun m => (i, .appendEntries m)) ∧
      ∀ m ∈ ms, Carries F T i K₀ m ∧ m.leaderCommit ≤ K₀ := by
    have hqueued : ∀ env ∈ (sim.nodes i).outgoing.filter (·.dst = j),
        ∃ m, env.message = .appendEntries m ∧ Carries F T i K₀ m ∧ m.leaderCommit ≤ K₀ := by
      intro env henv
      obtain ⟨henv, hdst⟩ := List.mem_filter.mp henv
      exact h.leading.outgoing env henv (by rwa [of_decide_eq_true hdst])
    generalize (sim.nodes i).outgoing.filter (·.dst = j) = queue at hqueued
    induction queue with
    | nil => exact ⟨[], rfl, fun _ hm => nomatch hm⟩
    | cons env queue ih =>
      obtain ⟨m, hmessage, hm⟩ := hqueued env List.mem_cons_self
      obtain ⟨ms, heq, hms⟩ := ih fun env' henv' => hqueued env' (List.mem_cons_of_mem env henv')
      refine ⟨m :: ms, by rw [List.map_cons, List.map_cons, heq, hmessage], fun m' hm' => ?_⟩
      rcases List.mem_cons.mp hm' with rfl | hm'
      · exact hm
      · exact hms m' hm'
  have hinbox : sim.inbox j = (ms ++ [last]).map (fun m => (i, .appendEntries m)) := by
    rw [inbox, Family.flatMap_of_only h.nodup_reach h.mem fun k hk hki => ?_]
    · rw [h.tick_of_leader, List.filter_append, filter_broadcast (h.nodup_peers h.mem_ids),
        if_pos hpeer, happend, List.map_append, hms, List.map_append]
      rfl
    · obtain ⟨rs, hout, -⟩ := (h.following k hk hki).answers
      rw [h.tick_of_follower hk hki, hout, List.map_eq_nil_iff, List.filter_eq_nil_iff]
      intro env henv hdst
      obtain ⟨r, -, rfl⟩ := List.mem_map.mp henv
      exact hne (of_decide_eq_true hdst).symm
  refine ⟨ms ++ [last], hinbox, fun m hm => ?_, last, by simp, hend, hcommit⟩
  rcases List.mem_append.mp hm with hm | hm
  · exact hcarried m hm
  · rw [List.mem_singleton.mp hm]
    exact ⟨hcarries, hcommit.trans_le h.leading.commit_le⟩

theorem follows_takeReady (hj : j ∈ sim.reach) (hne : j ≠ i) :
    Holds codec (F.take K) (sim.nodes j).tick.takeReady
      ((sim.nodes j).tick.ready.committed.foldl (Committed.applyTo codec) (sim.stores j)) :=
  ((h.follows j hj hne).sameLog
    (by rw [h.tick_of_follower hj hne]; exact ⟨rfl, rfl, rfl, rfl⟩)).takeReady

/-- A step for a follower. -/
theorem streamed (hj : j ∈ sim.reach) (hne : j ≠ i) :
    ∃ ms : List AppendEntries, ms ≠ [] ∧
      Streamed F T i K₀ (sim.nodes j).tick.takeReady K ms ((sim.step codec).nodes j) F.length ∧
      (∀ m ∈ ms, m.leaderCommit ≤ K₀) ∧
      (sim.nodes i).commitIndex ≤ ((sim.step codec).nodes j).commitIndex := by
  obtain ⟨ms, hinbox, hms, last, hlast, hend, hcommit⟩ := h.inbox_of_follower hj hne
  have hfollowing := h.following j hj hne
  have htick := h.tick_of_follower hj hne
  have hholds := h.follows_takeReady hj hne
  have hsnap : (sim.nodes j).tick.takeReady.log.snapshotIndex ≤ K₀ := by
    refine hholds.snapshotIndex_le.trans ?_
    rw [commitIndex_takeReady, htick]
    exact hfollowing.commit_le
  have hterm : (sim.nodes j).tick.takeReady.currentTerm = T := by
    rw [currentTerm_takeReady, htick]
    exact hfollowing.term
  obtain ⟨k', hk'⟩ := streamed_receiveAll i hms hterm hholds.log h.le_length hsnap h.known_le
  obtain rfl : k' = F.length := le_antisymm hk'.end_le (hend ▸ hk'.reaches last hlast)
  rw [← hinbox, ← nodes_step_of_mem h.nodup codec hj] at hk'
  exact ⟨ms, List.ne_nil_of_mem hlast, hk', fun m hm => (hms m hm).2,
    hcommit ▸ hk'.le_commit last hlast⟩

/-- What the leader gets: the answers of its followers. -/
theorem inbox_of_leader :
    ∃ as : List (NodeId × ℕ), sim.inbox i = acks T as ∧ (∀ a ∈ as, a.2 ≤ K) ∧
      ∀ j ∈ sim.reach, j ≠ i → ∃ rs : List ℕ,
        (sim.nodes j).outgoing = rs.map (fun r => ⟨i, ack T j r⟩) ∧
        as.filter (·.1 = j) = rs.map (fun r => (j, r)) ∧
        (rs = [] ∧ K = K₀ ∨ rs.getLast? = some K) := by
  have hanswers : ∀ j, ∃ rs : List ℕ, (j ∈ sim.reach → j ≠ i →
      (sim.nodes j).outgoing = rs.map (fun r => ⟨i, ack T j r⟩) ∧ (∀ r ∈ rs, r ≤ K) ∧
        (rs = [] ∧ K = K₀ ∨ rs.getLast? = some K)) ∧ (¬(j ∈ sim.reach ∧ j ≠ i) → rs = []) := by
    intro j
    by_cases hj : j ∈ sim.reach ∧ j ≠ i
    · obtain ⟨rs, hrs⟩ := (h.following j hj.1 hj.2).answers
      exact ⟨rs, fun _ _ => hrs, fun hnot => absurd hj hnot⟩
    · exact ⟨[], fun hmem hne => absurd ⟨hmem, hne⟩ hj, fun _ => rfl⟩
  choose rs hrs hnone using hanswers
  refine ⟨sim.reach.flatMap fun k => (rs k).map fun r => (k, r), ?_, fun a ha => ?_,
    fun j hj hne => ⟨rs j, (hrs j hj hne).1, ?_, (hrs j hj hne).2.2⟩⟩
  · have hone : ∀ k ∈ sim.reach,
        ((sim.nodes k).tick.outgoing.filter (·.dst = i)).map (fun env => (k, env.message)) =
          ((rs k).map fun r => (k, r)).map fun a => (a.1, ack T a.1 a.2) := by
      intro k hk
      rcases eq_or_ne k i with rfl | hki
      · -- a leader sends nothing to itself
        have hself : (sim.nodes k).tick.outgoing.filter (·.dst = k) = [] := by
          refine List.filter_eq_nil_iff.mpr fun env henv hdst => ?_
          have hpeer : env.dst ∈ (sim.nodes k).peers := by
            rw [h.tick_of_leader] at henv
            rcases List.mem_append.mp henv with henv | henv
            · exact h.leading.dst_mem env henv
            · obtain ⟨peer, hpeer, rfl⟩ := List.mem_map.mp henv
              exact hpeer
          rw [of_decide_eq_true hdst] at hpeer
          exact (h.mem_peers h.mem_ids h.mem_ids).mp hpeer rfl
        rw [hself, hnone k fun hnot => hnot.2 rfl]
        rfl
      · rw [h.tick_of_follower hk hki, (hrs k hk hki).1, List.filter_eq_self.mpr, List.map_map,
          List.map_map]
        · rfl
        · intro env henv
          obtain ⟨r, -, rfl⟩ := List.mem_map.mp henv
          exact decide_eq_true rfl
    rw [inbox, List.flatMap_congr hone, acks, List.map_flatMap]
  · obtain ⟨k, hk, hak⟩ := List.mem_flatMap.mp ha
    obtain ⟨r, hr, rfl⟩ := List.mem_map.mp hak
    by_cases hki : k = i
    · rw [hnone k fun hnot => hnot.2 hki] at hr
      cases hr
    · exact (hrs k hk hki).2.1 r hr
  · rw [List.filter_flatMap, Family.flatMap_of_only h.nodup_reach hj]
    · exact List.filter_eq_self.mpr fun a ha => by
        obtain ⟨r, -, rfl⟩ := List.mem_map.mp ha
        exact decide_eq_true rfl
    · intro k _ hkj
      refine List.filter_eq_nil_iff.mpr fun a ha heq => hkj ?_
      obtain ⟨r, -, rfl⟩ := List.mem_map.mp ha
      exact of_decide_eq_true heq

theorem leads_takeReady : Holds codec F (sim.nodes i).tick.takeReady
    ((sim.nodes i).tick.ready.committed.foldl (Committed.applyTo codec) (sim.stores i)) :=
  (h.leads.sameLog (by rw [h.tick_of_leader]; exact ⟨rfl, rfl, rfl, rfl⟩)).takeReady

/-- A step for the leader. -/
theorem nodes_step_of_leader :
    ∃ (as : List (NodeId × ℕ)) (c : ℕ),
      (sim.step codec).nodes i = { (sim.nodes i).tick.takeReady with
        progress := recordAll (sim.nodes i).progress as, commitIndex := c } ∧
      (sim.nodes i).commitIndex ≤ c ∧ c ≤ K ∧ (∀ a ∈ as, a.2 ≤ K) ∧
      (∀ j ∈ sim.reach, j ≠ i → ∃ rs : List ℕ,
        (sim.nodes j).outgoing = rs.map (fun r => ⟨i, ack T j r⟩) ∧
        as.filter (·.1 = j) = rs.map (fun r => (j, r)) ∧
        (rs = [] ∧ K = K₀ ∨ rs.getLast? = some K)) ∧
      (as ≠ [] → ∀ N, ¬((sim.step codec).nodes i).Committable N) := by
  obtain ⟨as, hinbox, hle, hanswers⟩ := h.inbox_of_leader
  have htick := h.tick_of_leader
  have hpeers : (sim.nodes i).tick.takeReady.peers = (sim.nodes i).peers := by
    rw [peers_takeReady, htick]
  have hprogress : (sim.nodes i).tick.takeReady.progress = (sim.nodes i).progress := by
    rw [progress_takeReady, htick]
  have hcommit : (sim.nodes i).tick.takeReady.commitIndex = (sim.nodes i).commitIndex := by
    rw [commitIndex_takeReady, htick]
  have hreceive := receiveAll_acks (n := (sim.nodes i).tick.takeReady) (T := T) (b := K)
    (by rw [role_takeReady, htick]; exact h.leading.role)
    (by rw [currentTerm_takeReady, htick]; exact h.leading.term)
    (by rw [hpeers]; exact h.peers_ne_nil h.size h.mem_ids)
    (by rw [hcommit]; exact h.leading.commit_le.trans h.known_le)
    (by
      intro p hp
      rw [hpeers] at hp
      rw [hprogress]
      exact (h.leading.match_le p hp).trans h.known_le) hle
  rw [← hinbox, ← nodes_step_of_mem h.nodup codec h.mem, hprogress, hcommit] at hreceive
  obtain ⟨c, heq, hc, hcK, hdone⟩ := hreceive
  exact ⟨as, c, heq, hc, hcK, hle, hanswers, hdone⟩

theorem leading_step : Leading T F K (sim.step codec).reach i ((sim.step codec).nodes i) := by
  obtain ⟨as, c, heq, -, hcK, hle, hanswers, -⟩ := h.nodes_step_of_leader
  have htick := h.tick_of_leader
  rw [heq]
  exact {
    role := by
      show (sim.nodes i).tick.takeReady.role = .leader
      rw [role_takeReady, htick]
      exact h.leading.role
    term := by
      show (sim.nodes i).tick.takeReady.currentTerm = T
      rw [currentTerm_takeReady, htick]
      exact h.leading.term
    commit_le := hcK
    next_eq := fun j hj hne => by
      rw [reach_step] at hj
      obtain ⟨rs, -, hfilter, hlast⟩ := hanswers j hj hne
      show (recordAll _ as).nextIndex j = K + 1
      rw [(recordAll_apply _ as j).2, hfilter, List.getLast?_map]
      rcases hlast with ⟨rfl, rfl⟩ | hlast
      · exact h.leading.next_eq j hj hne
      · rw [hlast]
        rfl
    match_le := fun p hp => by
      show (recordAll _ as).matchIndex p ≤ K
      rw [(recordAll_apply _ as p).1]
      cases hlast : (as.filter (·.1 = p)).getLast? with
      | none =>
        have hpeer : p ∈ (sim.nodes i).peers := by
          have hsame : (sim.nodes i).tick.takeReady.peers = (sim.nodes i).peers := by
            rw [peers_takeReady, htick]
          exact hsame ▸ hp
        exact (h.leading.match_le p hpeer).trans h.known_le
      | some a => exact hle a (List.mem_filter.mp (List.mem_of_getLast? hlast)).1
    dst_mem := fun env henv => by
      rw [show RaftNode.outgoing _ = [] from outgoing_takeReady (sim.nodes i).tick] at henv
      cases henv
    outgoing := fun env henv => by
      rw [show RaftNode.outgoing _ = [] from outgoing_takeReady (sim.nodes i).tick] at henv
      cases henv }

theorem following_step (hj : j ∈ sim.reach) (hne : j ≠ i) :
    Following T i K F.length j ((sim.step codec).nodes j) := by
  obtain ⟨ms, hms, hstreamed, hcommits, -⟩ := h.streamed hj hne
  have hfollowing := h.following j hj hne
  have htick := h.tick_of_follower hj hne
  have hconfig : (sim.nodes j).tick.takeReady.config = config := by
    rw [config_takeReady, htick]
    exact h.config_eq j (mem_reach.mp hj).1
  have hid : (sim.nodes j).tick.takeReady.id = j := by
    rw [id_takeReady, htick]
    exact h.id_eq j (mem_reach.mp hj).1
  obtain ⟨hrole, helapsed, htimeout⟩ :=
    hstreamed.follows.resolve_right fun hnone => hms hnone.1
  refine ⟨?_, hstreamed.term, ?_, hconfig ▸ htimeout, ?_, ?_⟩
  · rw [hrole]
    decide
  · rw [helapsed]
    exact Nat.zero_le 1
  · refine hstreamed.commit_bound K ?_ fun m hm => (hcommits m hm).trans h.known_le
    rw [commitIndex_takeReady, htick]
    exact hfollowing.commit_le.trans h.known_le
  · obtain ⟨rs, hout, hlen, hrs, hlast⟩ := hstreamed.answers
    refine ⟨rs, ?_, hrs, Or.inr (hlast.resolve_left ?_)⟩
    · rw [hout, outgoing_takeReady, hid, List.nil_append]
    · rintro ⟨rfl, -⟩
      exact hms (List.eq_nil_of_length_eq_zero hlen.symm)

theorem store_step (hj : j ∈ sim.reach) : (sim.step codec).stores j =
    (sim.nodes j).tick.ready.committed.foldl (Committed.applyTo codec) (sim.stores j) := by
  rw [stores_step h.nodup codec (mem_reach.mp hj).1, if_pos (alive_of_mem_reach hj)]

theorem leads_step : Holds codec F ((sim.step codec).nodes i) ((sim.step codec).stores i) := by
  obtain ⟨as, c, heq, hc, hcK, -⟩ := h.nodes_step_of_leader
  rw [h.store_step h.mem, heq]
  refine h.leads_takeReady.of_commit rfl rfl rfl ?_ (hcK.trans h.le_length)
  rw [commitIndex_takeReady, h.tick_of_leader]
  exact hc

theorem follows_step (hj : j ∈ sim.reach) (hne : j ≠ i) :
    Holds codec F ((sim.step codec).nodes j) ((sim.step codec).stores j) := by
  obtain ⟨ms, -, hstreamed, hcommits, -⟩ := h.streamed hj hne
  have hholds := h.follows_takeReady hj hne
  have hlog : RestOf F ((sim.step codec).nodes j).log := by
    have := hstreamed.log
    rwa [List.take_length] at this
  have hcommit : ((sim.step codec).nodes j).commitIndex ≤ F.length :=
    (h.following_step hj hne).commit_le.trans h.le_length
  have happlied : (sim.nodes j).tick.takeReady.lastApplied ≤ K := by
    refine hholds.chained.applied_le.trans (hholds.commit_le.trans ?_)
    exact List.length_take_le K F
  rw [h.store_step hj]
  refine ⟨hlog, ⟨?_, ?_, hlog.length_eq ▸ hcommit⟩, ?_, ?_⟩
  · rw [hstreamed.snapshotIndex, hstreamed.lastApplied]
    exact hholds.chained.snapshot_le
  · rw [hstreamed.lastApplied]
    exact hholds.chained.applied_le.trans hstreamed.commit_le
  · rw [hstreamed.committed, committed_takeReady]
  · rw [hholds.store, hstreamed.lastApplied, List.take_take, min_eq_left happlied]

/-- **A step in which the leader replicates its log.** Afterwards the others have all of it. -/
theorem step : (sim.step codec).Steady codec i T F K F.length where
  toFormed := h.toFormed.step codec
  size := by
    rw [ids_step]
    exact h.size
  mem := by
    rw [reach_step]
    exact h.mem
  known_le := h.le_length
  le_length := le_rfl
  terms := h.terms
  term_le := h.term_le
  leading := h.leading_step
  leads := h.leads_step
  following j hj hne := h.following_step (reach_step codec sim ▸ hj) hne
  follows j hj hne := by
    rw [List.take_length]
    exact h.follows_step (reach_step codec sim ▸ hj) hne

/-! ### Other calls -/

/-- Only the nodes that can be reached count. -/
theorem of_agree {sim' : SimCluster} (hformed : sim'.Formed) (hids : sim'.ids = sim.ids)
    (hi : i ∈ sim'.reach) (hreach : ∀ j ∈ sim'.reach, j ∈ sim.reach ∧
      sim'.nodes j = sim.nodes j ∧ sim'.stores j = sim.stores j) :
    sim'.Steady codec i T F K₀ K where
  toFormed := hformed
  size := hids ▸ h.size
  mem := hi
  known_le := h.known_le
  le_length := h.le_length
  terms := h.terms
  term_le := h.term_le
  leading := by
    rw [(hreach i hi).2.1]
    exact { h.leading with
      next_eq := fun j hj => h.leading.next_eq j (hreach j hj).1
      outgoing := fun env henv hdst => h.leading.outgoing env henv (hreach _ hdst).1 }
  leads := by
    rw [(hreach i hi).2.1, (hreach i hi).2.2]
    exact h.leads
  following j hj hne := by
    rw [(hreach j hj).2.1]
    exact h.following j (hreach j hj).1 hne
  follows j hj hne := by
    rw [(hreach j hj).2.1, (hreach j hj).2.2]
    exact h.follows j (hreach j hj).1 hne

theorem nodes_propose_self (command : WriteCommand) :
    ∃ c, (sim.propose codec i command).nodes i =
        { (sim.nodes i).appended (codec.encode command) with
          commitIndex := c
          outgoing := (sim.nodes i).outgoing ++ (sim.nodes i).peers.map fun peer =>
            ⟨peer, ((sim.nodes i).appended (codec.encode command)).appendFor peer⟩ } ∧
      (sim.nodes i).commitIndex ≤ c ∧ c ≤ K₀ := by
  have hself : (sim.propose codec i command).nodes i =
      ((sim.nodes i).propose (codec.encode command)).2 := Function.update_self _ _ _
  rw [hself]
  exact propose_of_leader _ h.leading.role (h.peers_ne_nil h.size h.mem_ids) h.leading.commit_le
    h.leading.match_le

theorem restOf_appended (command : List UInt8) :
    RestOf (F ++ [⟨T, command⟩]) ((sim.nodes i).appended command).log := by
  rw [← h.leading.term]
  exact h.leads.log.append _

theorem le_length_append (es : List LogEntry) : K ≤ (F ++ es).length :=
  h.le_length.trans (List.prefix_append F es).length_le

theorem leads_propose (command : WriteCommand) :
    Holds codec (F ++ [⟨T, codec.encode command⟩]) ((sim.propose codec i command).nodes i)
      (sim.stores i) := by
  obtain ⟨c, heq, hc, hcK⟩ := h.nodes_propose_self command
  have hrest := h.restOf_appended (codec.encode command)
  have hle := h.leads.chained.applied_le.trans h.leads.commit_le
  rw [heq]
  refine ⟨hrest, ⟨h.leads.chained.snapshot_le, h.leads.chained.applied_le.trans hc, ?_⟩,
    h.leads.drained, ?_⟩
  · exact ((hcK.trans h.known_le).trans (h.le_length_append _)).trans hrest.length_eq.le
  · exact h.leads.store.trans
      (congrArg (codec.replay _) (List.take_append_of_le_length hle).symm)

theorem leading_propose (command : WriteCommand) :
    Leading T (F ++ [⟨T, codec.encode command⟩]) K₀ sim.reach i
      ((sim.propose codec i command).nodes i) := by
  obtain ⟨c, heq, -, hcK⟩ := h.nodes_propose_self command
  rw [heq]
  exact {
    role := h.leading.role
    term := h.leading.term
    commit_le := hcK
    next_eq := h.leading.next_eq
    match_le := h.leading.match_le
    dst_mem := fun env henv => by
      rcases List.mem_append.mp henv with henv | henv
      · exact h.leading.dst_mem env henv
      · obtain ⟨peer, hpeer, rfl⟩ := List.mem_map.mp henv
        exact hpeer
    outgoing := fun env henv hdst => by
      rcases List.mem_append.mp henv with henv | henv
      · obtain ⟨m, hm, hcarries, hcommit⟩ := h.leading.outgoing env henv hdst
        exact ⟨m, hm, hcarries.append (h.known_le.trans h.le_length) _, hcommit⟩
      · obtain ⟨peer, hpeer, rfl⟩ := List.mem_map.mp henv
        have hne : peer ≠ i := (h.mem_peers h.mem_ids (mem_reach.mp hdst).1).mp hpeer
        obtain ⟨m, hm, hcarries, -, hcommit⟩ := appendFor_of_restOf
          (h.restOf_appended (codec.encode command)) h.leading.term
          (h.leading.next_eq peer hdst hne) (h.leads.snapshotIndex_le.trans h.leading.commit_le)
          (h.known_le.trans (h.le_length_append _))
        exact ⟨m, hm, h.id_eq i h.mem_ids ▸ hcarries, hcommit.trans_le h.leading.commit_le⟩ }

/-- A write that is proposed to the leader extends its log. -/
theorem propose (command : WriteCommand) :
    (sim.propose codec i command).Steady codec i T (F ++ [⟨T, codec.encode command⟩]) K₀ K where
  toFormed := h.toFormed.propose codec i command
  size := h.size
  mem := h.mem
  known_le := h.known_le
  le_length := h.le_length_append _
  terms := by
    refine List.pairwise_append.mpr ⟨h.terms, List.pairwise_singleton _ _, fun e he e' he' => ?_⟩
    rw [List.mem_singleton.mp he']
    exact h.term_le e he
  term_le e he := by
    rcases List.mem_append.mp he with he | he
    · exact h.term_le e he
    · rw [List.mem_singleton.mp he]
  leading := h.leading_propose command
  leads := h.leads_propose command
  following j hj hne := by
    rw [nodes_propose_of_ne command hne]
    exact h.following j hj hne
  follows j hj hne := by
    rw [nodes_propose_of_ne command hne, List.take_append_of_le_length h.le_length]
    exact h.follows j hj hne

/-! ### The way of a write -/

/-- From an entry of the leader's term on, all of its log is of that term. -/
theorem lastTerm_take {x : ℕ} {e : LogEntry} (hx : F[x]? = some e) (he : e.term = T)
    (hK : x < K) : Branch.lastTerm (F.take K) = T := by
  obtain ⟨hlt, rfl⟩ := List.getElem?_eq_some_iff.mp hx
  have hlast : K - 1 < F.length := by
    have := h.le_length
    omega
  have htake : F.take K = F.take (K - 1) ++ [F[K - 1]] := by
    rw [List.take_concat_get' F (K - 1) hlast, Nat.sub_add_cancel (Nat.zero_lt_of_lt hK)]
  rw [htake, lastTerm_concat]
  refine le_antisymm (h.term_le _ (List.getElem_mem _)) ?_
  rcases (Nat.le_sub_one_of_lt hK).eq_or_lt with heq | hlt'
  · simp only [← heq]
    exact he.ge
  · exact he.ge.trans (List.pairwise_iff_getElem.mp h.terms x (K - 1) hlt hlast hlt')

/-- What everybody has told the leader, it commits. -/
theorem le_commit_step (hterm : Branch.lastTerm (F.take K) = T)
    (hmajority : sim.majority ≤ sim.reach.length)
    (hanswered : ∀ j ∈ sim.reach, j ≠ i → (sim.nodes j).outgoing ≠ []) :
    K ≤ ((sim.step codec).nodes i).commitIndex := by
  obtain ⟨as, c, heq, -, -, -, hanswers, hdone⟩ := h.nodes_step_of_leader
  have hmatch : ∀ j ∈ sim.reach, j ≠ i →
      (as.filter (·.1 = j)).getLast? = some (j, K) := by
    intro j hj hne
    obtain ⟨rs, hout, hfilter, hlast⟩ := hanswers j hj hne
    have hrs : rs ≠ [] := by
      rintro rfl
      exact hanswered j hj hne hout
    rw [hfilter, List.getLast?_map, hlast.resolve_left fun hnone => hrs hnone.1]
    rfl
  -- there is somebody else, since the leader alone is no majority
  obtain ⟨j, hj, hne⟩ : ∃ j ∈ sim.reach, j ≠ i := by
    by_contra hnone
    push Not at hnone
    have hle : sim.reach.length ≤ [i].length := by
      refine (h.nodup_reach.subperm fun j hj => ?_).length_le
      exact List.mem_singleton.mpr (hnone j hj)
    have hsize := h.size
    rw [List.length_singleton] at hle
    unfold majority at hmajority
    omega
  have has : as ≠ [] := by
    rintro rfl
    exact nomatch hmatch j hj hne
  by_contra hlt
  refine hdone has K ⟨not_le.mp hlt, ?_, ?_, ?_⟩
  · rw [← h.leads_step.log.length_eq]
    exact h.le_length
  · rw [h.leads_step.log.termAt_eq (h.leads_step.snapshotIndex_le.trans h.leading_step.commit_le)
      h.le_length, hterm, h.leading_step.term]
  · have hpeers : ((sim.step codec).nodes i).peers = sim.ids.filter (· ≠ i) := by
      rw [(h.toFormed.step codec).peers_eq i (by rw [ids_step]; exact h.mem_ids), ids_step]
    have hnode : ((sim.step codec).nodes i).majority = sim.majority := by
      have hsize := (h.toFormed.step codec).clusterSize_eq (j := i)
        (by rw [ids_step]; exact h.mem_ids)
      rw [RaftNode.majority, hsize, ids_step, majority]
    have hheld : sim.reach.filter (· ≠ i) ⊆ ((sim.step codec).nodes i).peers.filter fun peer =>
        K ≤ ((sim.step codec).nodes i).progress.matchIndex peer := by
      intro j hj
      obtain ⟨hj, hne⟩ := List.mem_filter.mp hj
      refine List.mem_filter.mpr ⟨?_, decide_eq_true ?_⟩
      · rw [hpeers]
        exact List.mem_filter.mpr ⟨(mem_reach.mp hj).1, hne⟩
      · rw [heq]
        show K ≤ (recordAll _ as).matchIndex j
        rw [(recordAll_apply _ as j).1, hmatch j hj (of_decide_eq_true hne)]
        exact le_rfl
    have hcount := ((h.nodup_reach.filter _).subperm hheld).length_le
    have hothers := length_filter_ne h.nodup_reach h.mem
    rw [hnode, List.countP_eq_length_filter]
    omega

/-- What is committed is applied with the next step. -/
theorem lastApplied_step (hj : j ∈ sim.reach) :
    ((sim.step codec).nodes j).lastApplied = (sim.nodes j).commitIndex := by
  rcases eq_or_ne j i with rfl | hne
  · obtain ⟨as, c, heq, -⟩ := h.nodes_step_of_leader
    have htick : Holds codec F (sim.nodes j).tick (sim.stores j) :=
      h.leads.sameLog (by rw [h.tick_of_leader]; exact ⟨rfl, rfl, rfl, rfl⟩)
    rw [heq]
    refine htick.lastApplied_takeReady.trans ?_
    rw [h.tick_of_leader]
  · obtain ⟨ms, -, hstreamed, -⟩ := h.streamed hj hne
    have htick : Holds codec (F.take K) (sim.nodes j).tick (sim.stores j) :=
      (h.follows j hj hne).sameLog (by rw [h.tick_of_follower hj hne]; exact ⟨rfl, rfl, rfl, rfl⟩)
    rw [hstreamed.lastApplied, htick.lastApplied_takeReady, h.tick_of_follower hj hne]

/-- What the leader has committed everybody commits with the next step. -/
theorem commit_le_step (hj : j ∈ sim.reach) :
    (sim.nodes i).commitIndex ≤ ((sim.step codec).nodes j).commitIndex := by
  rcases eq_or_ne j i with rfl | hne
  · obtain ⟨as, c, heq, hc, -⟩ := h.nodes_step_of_leader
    rw [heq]
    exact hc
  · obtain ⟨ms, -, -, -, hcommit⟩ := h.streamed hj hne
    exact hcommit

theorem outgoing_step_ne_nil (hj : j ∈ sim.reach) (hne : j ≠ i) :
    ((sim.step codec).nodes j).outgoing ≠ [] := by
  obtain ⟨ms, hms, hstreamed, -⟩ := h.streamed hj hne
  obtain ⟨rs, hout, hlen, -⟩ := hstreamed.answers
  intro hnil
  rw [hnil, eq_comm, List.append_eq_nil_iff, List.map_eq_nil_iff] at hout
  rw [hout.2] at hlen
  exact hms (List.eq_nil_of_length_eq_zero hlen.symm)

end Steady

/-- How far the entry at position `x` of the leader's log has come: it is there; everybody has it
and has said so; the leader has committed it; everybody has; everybody has applied it. -/
def Progress (sim : SimCluster) (i : NodeId) (F : List LogEntry) (K x : ℕ) : ℕ → Prop
  | 0 => x ≤ F.length
  | 1 => x ≤ K ∧ ∀ j ∈ sim.reach, j ≠ i → (sim.nodes j).outgoing ≠ []
  | 2 => x ≤ (sim.nodes i).commitIndex
  | 3 => ∀ j ∈ sim.reach, x ≤ (sim.nodes j).commitIndex
  | _ => ∀ j ∈ sim.reach, x ≤ (sim.nodes j).lastApplied

/-- **Every step takes an entry further** as long as the leader reaches a majority. -/
theorem Progress.step {x s : ℕ} {e : LogEntry} (h : sim.Steady codec i T F K₀ K)
    (hx : F[x]? = some e) (he : e.term = T) (hmajority : sim.majority ≤ sim.reach.length)
    (hprogress : sim.Progress i F K (x + 1) s) :
    (sim.step codec).Progress i F F.length (x + 1) (min 4 (s + 1)) := by
  match s with
  | 0 =>
    refine ⟨hprogress, fun j hj hne => ?_⟩
    rw [reach_step] at hj
    exact h.outgoing_step_ne_nil hj hne
  | 1 =>
    obtain ⟨hle, hanswered⟩ := hprogress
    exact hle.trans (h.le_commit_step (h.lastTerm_take hx he hle) hmajority hanswered)
  | 2 =>
    intro j hj
    rw [reach_step] at hj
    exact le_trans hprogress (h.commit_le_step hj)
  | 3 =>
    intro j hj
    rw [reach_step] at hj
    rw [h.lastApplied_step hj]
    exact hprogress j hj
  | s + 4 =>
    rw [min_eq_left (by omega)]
    intro j hj
    rw [reach_step] at hj
    rw [h.lastApplied_step hj]
    refine (hprogress j hj).trans ?_
    rcases eq_or_ne j i with rfl | hne
    · exact h.leads.chained.applied_le
    · exact (h.follows j hj hne).chained.applied_le

end SimCluster

end Ferrium
