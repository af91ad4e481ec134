import Ferrium.Server.Driver

/-!
# The data of a snapshot

The core labels a snapshot with the point up to which its log is discarded, and leaves the data to
the driver, which fills in what its store holds when it sends the message. That is before it applies
what the node hands out in the same round. Still, nothing that the label covers is missing from the
data: what is discarded has been applied in an earlier round, and a message that replaces the whole
store is not answered with a snapshot.

The data may be newer than the label, which does no harm as long as the receiver applies what comes
behind the label.
-/

namespace Ferrium

open StorageEngine

namespace RaftNode

variable {n n' : RaftNode}

/-- Between two rounds of the driver: nothing waits to be sent or applied, and what is discarded has
been applied. -/
structure Drained (n : RaftNode) : Prop where
  snapshot_le : n.log.snapshotIndex ≤ n.lastApplied
  outgoing_eq : n.outgoing = []
  committed_eq : n.committed = []

/-- After an input: the label of a snapshot that is to be sent is the point up to which the log is
discarded, and nothing waits to be applied but what the apply loop is about to add. -/
structure Labels (n : RaftNode) : Prop where
  snapshot_le : n.log.snapshotIndex ≤ n.lastApplied
  label : ∀ dst m, ⟨dst, .installSnapshot m⟩ ∈ n.outgoing →
    m.lastIncludedIndex = n.log.snapshotIndex ∧ n.committed = []

/-- The apply loop hands out commands that have not been applied. -/
theorem exists_command_of_mem_newlyApplied {item : Committed} (h : item ∈ n.newlyApplied) :
    ∃ index command, item = .command index command ∧ n.lastApplied < index := by
  obtain ⟨index, hindex, hitem⟩ := List.mem_flatMap.mp h
  obtain ⟨entry, -, -, rfl⟩ := mem_appliedAt.mp hitem
  exact ⟨index, entry.command, rfl, (List.mem_range'_1.mp hindex).1⟩

/-- What is handed out together with a snapshot are commands behind its label. -/
theorem Labels.lt_of_mem_ready (h : n.Labels) {dst : NodeId} {m : InstallSnapshot}
    (hm : ⟨dst, .installSnapshot m⟩ ∈ n.outgoing) {item : Committed}
    (hitem : item ∈ n.ready.committed) :
    ∃ index command, item = .command index command ∧ m.lastIncludedIndex < index := by
  obtain ⟨hlabel, hnone⟩ := h.label dst m hm
  rw [committed_ready, hnone, List.nil_append] at hitem
  obtain ⟨index, command, rfl, hlt⟩ := exists_command_of_mem_newlyApplied hitem
  exact ⟨index, command, rfl, (hlabel.trans_le h.snapshot_le).trans_lt hlt⟩

theorem Labels.drained_takeReady (h : n.Labels) : n.takeReady.Drained := by
  rw [takeReady_eq]
  exact ⟨n.snapshotIndex_appliedLog_le h.snapshot_le, rfl, rfl⟩

theorem Drained.keepsLog (h : n.Drained) (hk : n.KeepsLog n') : n'.Labels where
  snapshot_le := by
    rw [hk.log, hk.lastApplied]
    exact h.snapshot_le
  label dst m hm := by
    rw [hk.committed, hk.log]
    rcases hk.queue _ hm with hold | hreads
    · rw [h.outgoing_eq] at hold
      cases hold
    · exact ⟨hreads.1, h.committed_eq⟩

theorem Drained.propose (h : n.Drained) (command : List UInt8) :
    (n.propose command).2.Labels := by
  by_cases hrole : n.role = .leader
  · have happended : Drained { n with log := n.log.append [n.newEntry command] } :=
      ⟨h.snapshot_le, h.outgoing_eq, h.committed_eq⟩
    exact happended.keepsLog (n.keepsLog_propose command hrole)
  · rw [propose_of_ne_leader n command hrole]
    exact h.keepsLog (.refl _)

theorem Drained.step (h : n.Drained) (sender : NodeId) (message : Message) :
    (n.step sender message).Labels := by
  cases n.receives_step sender message with
  | keeps _ hk => exact h.keepsLog hk
  | splices _ hs =>
    refine ⟨?_, fun dst m' hm' => ?_⟩
    · rw [hs.log, RaftLog.snapshotIndex_splice, hs.lastApplied]
      exact h.snapshot_le
    · rw [hs.committed]
      rcases hs.queue _ hm' with hold | hreads
      · rw [h.outgoing_eq] at hold
        cases hold
      · exact ⟨hreads.1, h.committed_eq⟩
  | @installs m hacc hi =>
    refine ⟨?_, fun dst m' hm' => ?_⟩
    · rw [hi.log, hi.lastApplied]
      exact le_rfl
    · -- the only message is the answer
      rw [step_installSnapshot n sender hacc] at hm'
      rcases List.mem_append.mp hm' with hold | hreply
      · replace hold : _ ∈ (n.observeTerm m.term).outgoing := hold
        rw [outgoing_observeTerm, h.outgoing_eq] at hold
        cases hold
      · cases List.mem_singleton.mp hreply

end RaftNode

namespace Driver

variable {σ δ : Type*} [StorageEngine σ] {codec : Codec} {d : Driver σ δ}

omit [StorageEngine σ] in
/-- The event of a round. -/
theorem labels_handle (h : d.node.Drained) (event : DriverEvent δ) :
    (d.handle codec event).1.node.Labels := by
  match event with
  | .tick => exact h.keepsLog d.node.keepsLog_tick
  | .inbound sender message => exact h.step sender message
  | .request (.peer sender message) => exact h.step sender message
  | .request (.propose command done) =>
    rw [node_handle_propose]
    exact h.propose (codec.encode command)
  | .request .status => exact h.keepsLog (.refl _)

theorem drained_next (h : d.node.Drained) (event : DriverEvent δ) :
    (d.next codec event).node.Drained := by
  rw [node_next]
  exact (labels_handle h event).drained_takeReady

/-- A snapshot among the messages of a round is one that the node has left to be sent, with what the
store holds before the round. -/
theorem mem_messages_step {event : DriverEvent δ} {dst : NodeId} {m : InstallSnapshot}
    (h : ⟨dst, .installSnapshot m⟩ ∈ (d.step codec event).2.messages) :
    m.data = snapshot d.storage ∧ ∃ m', ⟨dst, .installSnapshot m'⟩ ∈
      (d.handle codec event).1.node.outgoing ∧ m'.lastIncludedIndex = m.lastIncludedIndex := by
  replace h : _ ∈ (d.handle codec event).1.node.ready.messages.map _ := h
  rw [RaftNode.messages_ready, storage_handle] at h
  obtain ⟨⟨dst', message⟩, henv, heq⟩ := List.mem_map.mp h
  cases message with
  | installSnapshot m' =>
    simp only [Message.fillSnapshot, Envelope.mk.injEq, Message.installSnapshot.injEq] at heq
    obtain ⟨rfl, rfl⟩ := heq
    exact ⟨rfl, m', henv, rfl⟩
  | requestVote m' => simp [Message.fillSnapshot] at heq
  | requestVoteReply m' => simp [Message.fillSnapshot] at heq
  | appendEntries m' => simp [Message.fillSnapshot] at heq
  | appendEntriesReply m' => simp [Message.fillSnapshot] at heq
  | installSnapshotReply m' => simp [Message.fillSnapshot] at heq

/-! ### Runs -/

variable (codec)

omit [StorageEngine σ] in
/-- What the node hands out in a round. -/
def produces (d : Driver σ δ) (event : DriverEvent δ) : List Committed :=
  (d.handle codec event).1.node.ready.committed

/-- What the node has handed out in a run. -/
def produced (d : Driver σ δ) (events : List (DriverEvent δ)) : List Committed :=
  Run.outputs (next codec) (produces codec) d events

/-- The store holds what everything leads to that has been handed out. -/
theorem storage_exec (d : Driver σ δ) (events : List (DriverEvent δ)) :
    (Run.exec (next codec) d events).storage =
      (d.produced codec events).foldl (Committed.applyTo codec) d.storage := by
  induction events generalizing d with
  | nil => rfl
  | cons event events ih =>
    rw [Run.exec_cons, ih, storage_next, ← List.foldl_append]
    rfl

/-- In every round of the run, the snapshots that are sent have the contents to which everything
leads that was handed out in earlier rounds, and what is handed out in the same round are commands
behind the label. -/
def SnapshotsCover (d : Driver σ δ) (events : List (DriverEvent δ)) : Prop :=
  ∀ before event, before ++ [event] <+: events →
    ∀ dst m, ⟨dst, .installSnapshot m⟩ ∈
        ((Run.exec (next codec) d before).step codec event).2.messages →
      m.data = snapshot ((d.produced codec before).foldl (Committed.applyTo codec) d.storage) ∧
        ∀ item ∈ (Run.exec (next codec) d before).produces codec event,
          ∃ index command, item = .command index command ∧ m.lastIncludedIndex < index

/-- **The data of a snapshot is never older than its label**, in every run of a driver. -/
theorem snapshotsCover (name : NodeId) (peers : List NodeId) (config : RaftConfig) (rng : StdRng)
    (storage : σ) (events : List (DriverEvent δ)) :
    SnapshotsCover codec (new (RaftNode.new name peers config rng) storage) events := by
  intro before event _ dst m hm
  have hfresh : (new (RaftNode.new name peers config rng) storage : Driver σ δ).node.Drained :=
    ⟨le_rfl, rfl, rfl⟩
  have hdrained : (Run.exec (next codec) (new (RaftNode.new name peers config rng) storage)
      before).node.Drained :=
    Run.exec_invariant (fun d : Driver σ δ => d.node.Drained)
      (fun _ event h => drained_next h event) before hfresh
  obtain ⟨hdata, m', hm', hlabel⟩ := mem_messages_step hm
  refine ⟨?_, fun item hitem => ?_⟩
  · rw [hdata, storage_exec]
  · obtain ⟨index, command, heq, hlt⟩ := (labels_handle hdrained event).lt_of_mem_ready hm' hitem
    exact ⟨index, command, heq, hlabel ▸ hlt⟩

/-- The driver of a node that discards every entry as soon as it is applied. -/
def compacting : Driver MemoryEngine ℕ :=
  new (RaftNode.new "n1" ["n2", "n3"] (.eager 1) ⟨fun _ => 0⟩) MemoryEngine.new

-- a write is committed and discarded, and `n3`, which has not acknowledged it, is sent a snapshot
example :
    let before : List (DriverEvent ℕ) :=
      [.tick, .inbound "n2" (.requestVoteReply ⟨1, "n2", true⟩),
        .request (.propose (.set "k" [1]) 0),
        .inbound "n2" (.appendEntriesReply ⟨1, "n2", true, 1, 0⟩)]
    ⟨"n3", .installSnapshot ⟨1, "n1", 1, 1, [("k", [1])]⟩⟩ ∈
      ((Run.exec (next Codec.tagged) compacting before).step Codec.tagged .tick).2.messages := by
  decide +kernel

end Driver

end Ferrium
