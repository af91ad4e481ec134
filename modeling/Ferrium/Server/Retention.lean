import Ferrium.Raft.Campaign
import Ferrium.Server.Leaders
import Ferrium.Server.Waiting

/-!
# How much of a log is kept

A driver drains its node at the end of every round: what is committed is applied, and if enough has
been applied since the last snapshot point, the entries up to there are discarded. So between two
rounds a node holds everything that is not committed, and of what is committed fewer entries than
the threshold; how long the cluster has been running makes no difference.

If a message has cut the log below the commit index, the loop over what is committed runs past the
end of the log, and compaction refuses to go there. This is excluded as in `Server.Waiting`.

## Main results

* `RaftNode.Chained.trimmed_takeReady`: what draining a node leaves;
* `Fleet.log_bounded`: how many entries a node holds between two rounds.
-/

namespace Ferrium

open StorageEngine RaftLog

namespace RaftNode

variable {n : RaftNode}

/-- Everything that is committed is applied, and fewer entries of it are kept than it takes for a
snapshot. -/
structure Trimmed (n : RaftNode) : Prop where
  applied_eq : n.lastApplied = n.commitIndex
  kept_lt : n.lastApplied - n.log.snapshotIndex < max 1 n.config.snapshotThreshold

theorem trimmed_new (id : NodeId) (peers : List NodeId) (config : RaftConfig) (rng : StdRng) :
    (new id peers config rng).Trimmed :=
  ⟨rfl, Nat.zero_lt_one.trans_le (le_max_left _ _)⟩

/-- Compaction up to a position in the log leaves nothing of it below. -/
theorem snapshotIndex_compact_of_le {log : RaftLog} {i : ℕ} (hsnap : log.snapshotIndex ≤ i)
    (hi : i ≤ log.lastIndex) : (log.compact i).snapshotIndex = i := by
  rcases hsnap.eq_or_lt with rfl | hlt
  · rw [compact, if_pos (Or.inl le_rfl)]
  · rw [compact, if_neg (by omega)]

/-- **Draining trims the log.** -/
theorem Chained.trimmed_takeReady (h : n.Chained) : n.takeReady.Trimmed := by
  have hindex := h.appliedIndex_eq
  have hsnap := h.snapshot_le.trans h.applied_le
  rw [takeReady_eq]
  refine ⟨hindex, ?_⟩
  show n.appliedIndex - n.appliedLog.snapshotIndex < _
  rw [hindex]
  by_cases hlong : n.config.snapshotThreshold ≤ n.commitIndex - n.log.snapshotIndex
  · -- enough has been applied, so that all of it is discarded
    have hlog : n.appliedLog = n.log.compact n.commitIndex := by
      rw [appliedLog, hindex, if_pos hlong]
    rw [hlog, snapshotIndex_compact_of_le hsnap h.commit_le, Nat.sub_self]
    exact Nat.zero_lt_one.trans_le (le_max_left _ _)
  · have hlog : n.appliedLog = n.log := by
      rw [appliedLog, hindex, if_neg hlong]
    rw [hlog]
    exact (Nat.lt_of_not_le hlong).trans_le (le_max_right _ _)

/-- How many entries the log has then. -/
theorem Trimmed.length_entries (h : n.Trimmed) (hchained : n.Chained) :
    n.log.lastIndex - n.commitIndex ≤ n.log.entries.length ∧
      n.log.entries.length <
        n.log.lastIndex - n.commitIndex + max 1 n.config.snapshotThreshold := by
  have hlast : n.log.lastIndex = n.log.snapshotIndex + n.log.entries.length := rfl
  have hkept := h.kept_lt
  have hsnap := hchained.snapshot_le
  have hcommit := hchained.commit_le
  rw [h.applied_eq] at hkept hsnap
  omega

end RaftNode

namespace Fleet

variable {σ δ : Type*} [StorageEngine σ] {codec : Codec} {S : Setup} {storage : σ}
  {f : Fleet σ δ} {e : FleetEvent δ} {events : List (FleetEvent δ)}

theorem config_step (codec : Codec) (f : Fleet σ δ) (e : FleetEvent δ) (i : NodeId) :
    ((f.step codec e).drivers i).node.config = (f.drivers i).node.config := by
  rcases eq_or_ne i e.node with rfl | hne
  · rw [drivers_step_self, Driver.node_next, RaftNode.takeReady_eq]
    rcases (f.drivers e.node).exists_input codec e.event with ⟨input, -, hnode⟩ | hstatus
    · rw [hnode]
      exact RaftNode.config_input _ input
    · rw [hstatus]
      rfl
  · rw [drivers_step_of_ne codec f hne]

/-- What all nodes have between two rounds. -/
structure Tidy (S : Setup) (f : Fleet σ δ) : Prop where
  chained : f.core.AllChained
  trimmed : ∀ i, (f.drivers i).node.Trimmed
  config_eq : ∀ i, (f.drivers i).node.config = S.config i

omit [StorageEngine σ] in
theorem tidy_init : (init S storage : Fleet σ δ).Tidy S where
  chained := Cluster.allChained_init
  trimmed _ := RaftNode.trimmed_new _ _ _ _
  config_eq _ := rfl

/-- A round keeps the positions in order, first with its event and then when it drains the node. -/
theorem allChained_step (h : f.core.AllChained) (hkeeps : CoreKeeps codec f e) :
    (f.afterInput codec e).AllChained ∧ (f.step codec e).core.AllChained := by
  have hinput : (f.afterInput codec e).AllChained := by
    unfold afterInput
    cases hcore : coreInput codec e.node e.event with
    | none => exact h
    | some input => exact h.step (hkeeps input hcore)
  refine ⟨hinput, ?_⟩
  rw [core_step]
  exact hinput.step trivial

/-- **A round leaves the log of its node trimmed.** -/
theorem Tidy.step (h : f.Tidy S) (hkeeps : CoreKeeps codec f e) : (f.step codec e).Tidy S := by
  obtain ⟨hinput, hchained⟩ := allChained_step h.chained hkeeps
  refine ⟨hchained, fun i => ?_, fun i => (config_step codec f e i).trans (h.config_eq i)⟩
  rcases eq_or_ne i e.node with rfl | hne
  · rw [drivers_step_self, Driver.node_next, node_handle]
    exact (hinput e.node).trimmed_takeReady
  · rw [drivers_step_of_ne codec f hne]
    exact h.trimmed i

/-- **A log does not grow with what has been committed.** In every run in which no message cuts a
log below the commit index: between two rounds, a node has applied all that it knows to be
committed, and its log holds what is not committed and fewer entries besides than it takes for a
snapshot. -/
theorem log_bounded (h : IsRun codec S (CoreKeeps codec) storage events) (i : NodeId) :
    let n := ((after codec S storage events).drivers i).node
    n.lastApplied = n.commitIndex ∧
      n.log.lastIndex - n.commitIndex ≤ n.log.entries.length ∧
      n.log.entries.length <
        n.log.lastIndex - n.commitIndex + max 1 (S.config i).snapshotThreshold := by
  have htidy : (after codec S storage events).Tidy S :=
    Run.Guarded.invariant (fun _ _ hg hf => hf.step hg.2) h tidy_init
  have htrimmed := htidy.trimmed i
  refine ⟨htrimmed.applied_eq, ?_⟩
  rw [← htidy.config_eq i]
  exact htrimmed.length_entries (htidy.chained i)

/-- Two of three writes have been discarded. -/
theorem log_bounded_threeWrites :
    IsRun Codec.tagged threeDrivers (CoreKeeps Codec.tagged) MemoryEngine.new threeWrites ∧
      ((after Codec.tagged threeDrivers MemoryEngine.new threeWrites).drivers
        "n1").node.log.lastIndex = 3 ∧
      let n := ((after Codec.tagged threeDrivers MemoryEngine.new threeWrites).drivers "n1").node
      n.lastApplied = n.commitIndex ∧
        n.log.lastIndex - n.commitIndex ≤ n.log.entries.length ∧
        n.log.entries.length <
          n.log.lastIndex - n.commitIndex + max 1 (threeDrivers.config "n1").snapshotThreshold := by
  have hrun : IsRun Codec.tagged threeDrivers (CoreKeeps Codec.tagged) MemoryEngine.new
      threeWrites := by decide +kernel
  exact ⟨hrun, by decide +kernel, log_bounded hrun "n1"⟩

end Fleet

end Ferrium
