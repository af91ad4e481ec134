import Ferrium.Raft.Votes
import Ferrium.Server.Driver

/-!
# A cluster of one

A driver whose node has no peers is a sequential store. The node elects itself at the first timeout
and stays leader, an entry is committed when it is appended, and the client gets its answer in the
round in which it has asked, after the command was applied. Compaction, at whatever threshold, does
not show.

## Main results

* `Driver.Alone.tick`, `Driver.Alone.refuse`, `Driver.Alone.accept`: what the rounds do;
* `Driver.Alone.run`: what a run acknowledges is what it hands out and what the store is made of;
* `Driver.isSequential_of_nonEmpty`: the driver is a sequential store.
-/

namespace Ferrium

open StorageEngine RaftLog

variable {σ δ : Type*}

/-- What happens to a driver that has no peers: a tick, or a request of a client. -/
inductive LocalEvent (δ : Type*)
  | tick
  | propose (command : WriteCommand) (done : δ)
  deriving DecidableEq, Repr

/-- The event of the driver's loop. -/
def LocalEvent.toDriverEvent : LocalEvent δ → DriverEvent δ
  | .tick => .tick
  | .propose command done => .request (.propose command done)

namespace RaftNode

variable {n : RaftNode}

/-- A node without peers that has `k` entries, all of which are committed. -/
structure Alone (n : RaftNode) (k : ℕ) : Prop extends Chained n where
  peers_eq : n.peers = []
  lastIndex_eq : n.log.lastIndex = k
  commitIndex_eq : n.commitIndex = k
  /-- Before it is elected the node has no entries and has not heard of any leader. -/
  waits : n.role ≠ .leader → n.leaderId = none ∧ k = 0

variable {k : ℕ}

theorem alone_new (id : NodeId) (config : RaftConfig) (rng : StdRng) :
    (RaftNode.new id [] config rng).Alone 0 where
  snapshot_le := le_rfl
  applied_le := le_rfl
  commit_le := le_rfl
  peers_eq := rfl
  lastIndex_eq := rfl
  commitIndex_eq := rfl
  waits _ := ⟨rfl, rfl⟩

/-- Without peers one vote is a majority. -/
theorem majority_of_peers_eq_nil (h : n.peers = []) : n.majority = 1 := by
  simp [majority, clusterSize, h]

theorem role_becomeCandidate_of_peers_eq_nil (h : n.peers = []) :
    n.becomeCandidate.role = .leader := by
  have hmajority : n.standForElection.majority ≤ n.standForElection.votes.count := by
    rw [majority_of_peers_eq_nil (show n.standForElection.peers = [] from h)]
    exact le_rfl
  unfold becomeCandidate
  dsimp only
  rw [if_pos hmajority, becomeLeader, advanceCommit_eq, broadcastAppend_eq]
  rfl

/-- A node that is not leader after a tick is what it was, apart from its timer. -/
theorem role_tick_of_peers_eq_nil (h : n.peers = []) :
    n.tick.role = .leader ∨ (n.role ≠ .leader ∧ n.tick.leaderId = n.leaderId) := by
  rcases n.tick_cases with ⟨hrole, heq⟩ | ⟨hrole, -, heq⟩ | ⟨hrole, heq⟩ | ⟨-, heq⟩ <;> rw [heq]
  · exact Or.inl hrole
  · rw [broadcastAppend_eq]
    exact Or.inl hrole
  · exact Or.inr ⟨hrole, rfl⟩
  · exact Or.inl (role_becomeCandidate_of_peers_eq_nil h)

/-- Time passes. -/
theorem Alone.tick (h : n.Alone k) : n.tick.Alone k := by
  have hk := n.keepsLog_tick
  have hchained := h.toChained.keepsLog hk
  have hlast : n.tick.log.lastIndex = k := by rw [hk.log, h.lastIndex_eq]
  refine { hchained with
    peers_eq := (electionStep_tick n).sameIdentity.peers_eq.trans h.peers_eq
    lastIndex_eq := hlast
    commitIndex_eq := ?_
    waits := fun hrole => ?_ }
  · have hcommit := h.commitIndex_eq
    have hlast' := h.lastIndex_eq
    rcases hk.commit with heq | ⟨hlt, hle⟩ <;> omega
  · rcases role_tick_of_peers_eq_nil h.peers_eq with hleader | ⟨hnot, hsame⟩
    · exact absurd hleader hrole
    · rw [hsame]
      exact h.waits hnot

/-- The commit loop counts the leader itself. -/
theorem commitIndex_advanceCommit_of_peers_eq_nil (hpeers : n.peers = []) (hrole : n.role = .leader)
    (hcommit : n.commitIndex = k) (hlast : n.log.lastIndex = k + 1)
    (hterm : n.log.termAt (k + 1) = some n.currentTerm) : n.advanceCommit.commitIndex = k + 1 := by
  have hmajority : n.majority ≤ n.replicas (k + 1) := by
    rw [majority_of_peers_eq_nil hpeers, replicas_eq]
    exact Nat.le_add_left 1 _
  rw [advanceCommit_eq]
  show (if n.role = .leader then n.commitFrom n.log.lastIndex else n.commitIndex) = k + 1
  rw [if_pos hrole, hlast, commitFrom, if_neg (by omega), if_neg (not_not.mpr hterm),
    if_pos hmajority]

theorem role_propose_of_leader (hrole : n.role = .leader) (command : List UInt8) :
    (n.propose command).2.role = .leader := by
  unfold propose
  rw [if_neg (not_not.mpr hrole)]
  dsimp only
  rw [advanceCommit_eq, broadcastAppend_eq]
  exact hrole

/-- The leader appends an entry, which is committed by that. -/
theorem Alone.propose (h : n.Alone k) (hrole : n.role = .leader) (command : List UInt8) :
    (n.propose command).2.Alone (k + 1) := by
  have hk := n.keepsLog_propose command hrole
  have hlast : (n.log.append [n.newEntry command]).lastIndex = k + 1 := by
    rw [← h.lastIndex_eq]
    simp [lastIndex, RaftLog.append, Nat.add_assoc]
  have hterm : (n.log.append [n.newEntry command]).termAt (k + 1) = some n.currentTerm := by
    rw [← h.lastIndex_eq]
    exact termAt_of_get (get_append_singleton n.log (n.newEntry command))
  refine { h.toChained.propose command with
    peers_eq := (electionStep_propose n command).sameIdentity.peers_eq.trans h.peers_eq
    lastIndex_eq := by rw [hk.log]; exact hlast
    commitIndex_eq := ?_
    waits := fun hnot => absurd (role_propose_of_leader hrole command) hnot }
  unfold RaftNode.propose
  rw [if_neg (not_not.mpr hrole)]
  dsimp only
  rw [broadcastAppend_eq]
  exact commitIndex_advanceCommit_of_peers_eq_nil h.peers_eq hrole h.commitIndex_eq hlast hterm

/-- Draining applies everything. -/
theorem Alone.takeReady (h : n.Alone k) :
    n.takeReady.Alone k ∧ n.takeReady.lastApplied = k := by
  have happlied : n.takeReady.lastApplied = k := by
    rw [takeReady_eq]
    exact h.appliedIndex_eq.trans h.commitIndex_eq
  have hlast : n.takeReady.log.lastIndex = k := by
    rw [takeReady_eq]
    exact n.lastIndex_appliedLog.trans h.lastIndex_eq
  refine ⟨{ h.toChained.takeReady with
    peers_eq := ?_, lastIndex_eq := hlast, commitIndex_eq := ?_, waits := ?_ }, happlied⟩
  all_goals rw [takeReady_eq]
  · exact h.peers_eq
  · exact h.commitIndex_eq
  · exact h.waits

/-- Nothing is ready if everything was applied before. -/
theorem committed_ready_of_applied (hdrained : n.committed = [])
    (happlied : n.lastApplied = n.commitIndex) : n.ready.committed = [] := by
  rw [committed_ready, hdrained, newlyApplied, happlied]
  simp

/-- The one command that is committed but not applied is ready. -/
theorem committed_ready_of_next {e : LogEntry} (hdrained : n.committed = [])
    (hcommit : n.commitIndex = n.lastApplied + 1) (hget : n.log.get (n.lastApplied + 1) = some e)
    (hfilled : e.command ≠ []) :
    n.ready.committed = [.command (n.lastApplied + 1) e.command] := by
  have hone : n.commitIndex - n.lastApplied = 1 := by omega
  rw [committed_ready, hdrained, newlyApplied, hone]
  simp [appliedAt_of_get hget hfilled]

end RaftNode

namespace Driver

variable [StorageEngine σ] (codec : Codec) {d : Driver σ δ}

/-! ### The rounds -/

omit [StorageEngine σ] in
theorem failWaiters_of_nil (h : d.waiters = []) : d.failWaiters = (d, []) := by
  obtain ⟨node, storage, waiters⟩ := d
  obtain rfl : waiters = [] := h
  unfold failWaiters
  split <;> rfl

/-- Nothing is ready and nobody waits. -/
theorem processReady_of_nil (hready : d.node.ready.committed = []) (hwaiters : d.waiters = []) :
    (d.processReady codec).1 = { d with node := d.node.takeReady } ∧
      (d.processReady codec).2.answers = [] := by
  have hfail := failWaiters_of_nil (d := { d with node := d.node.takeReady }) hwaiters
  simp only [processReady, hready, applyAll, hfail, List.append_nil, and_self]

/-- A command is ready, and its client is the only one that waits. -/
theorem processReady_of_singleton {index : ℕ} {bytes : List UInt8} {done : δ}
    (hready : d.node.ready.committed = [.command index bytes])
    (hwaiters : d.waiters = [⟨index, done⟩]) :
    (d.processReady codec).1 =
        { node := d.node.takeReady
          storage := (Committed.command index bytes).applyTo codec d.storage
          waiters := [] } ∧
      (d.processReady codec).2.answers =
        [⟨done, .committed, some index, some (.command index bytes)⟩] := by
  simp only [processReady, hready, applyAll, applyOne, resolve, hwaiters]
  rw [failWaiters_of_nil (by simp)]
  simp

/-- What the node of the driver hands out in a round. -/
def handedOut (d : Driver σ δ) (event : LocalEvent δ) : List Committed :=
  (d.handle codec event.toDriverEvent).1.node.ready.committed

/-- What a round answers to clients. -/
def answers (d : Driver σ δ) (event : LocalEvent δ) : List (Answer δ) :=
  (d.step codec event.toDriverEvent).2.answers

/-- The driver after a round. -/
def localNext (d : Driver σ δ) (event : LocalEvent δ) : Driver σ δ :=
  d.next codec event.toDriverEvent

/-- The command that a round acknowledges, if it acknowledges one. -/
def acknowledges (d : Driver σ δ) : LocalEvent δ → List WriteCommand
  | .tick => []
  | .propose command done =>
    if (d.answers codec (.propose command done)).any (·.outcome = .committed) then [command] else []

/-- A round whose event leads to `d'` and is answered by `now`. -/
theorem round_eq {event : LocalEvent δ} {d' : Driver σ δ} {now : List (Answer δ)}
    (h : d.handle codec event.toDriverEvent = (d', now)) :
    d.localNext codec event = (d'.processReady codec).1 ∧
      d.answers codec event = now ++ (d'.processReady codec).2.answers ∧
      d.handedOut codec event = d'.node.ready.committed := by
  simp only [localNext, next, step, answers, handedOut, h, and_self]

/-- A driver without peers between two rounds: nobody waits, and the store, which was `engine` at
the start, has had the commands `acked` applied to it, one for each entry of the log. -/
structure Alone (engine : σ) (acked : List WriteCommand) (d : Driver σ δ) : Prop where
  node : d.node.Alone acked.length
  applied : d.node.lastApplied = acked.length
  drained : d.node.committed = []
  nobody : d.waiters = []
  storage : d.storage = WriteCommand.applyList engine acked

variable {engine : σ} {acked : List WriteCommand}

/-- A round in which nothing is committed. -/
theorem Alone.rest (h : d.Alone engine acked) {event : LocalEvent δ} {n : RaftNode}
    {now : List (Answer δ)}
    (hhandle : d.handle codec event.toDriverEvent = ({ d with node := n }, now))
    (hn : n.Alone acked.length) (happlied : n.lastApplied = d.node.lastApplied)
    (hdrained : n.committed = d.node.committed) :
    (d.localNext codec event).Alone engine acked ∧ d.answers codec event = now ∧
      d.handedOut codec event = [] := by
  have hready : n.ready.committed = [] := by
    refine RaftNode.committed_ready_of_applied (hdrained.trans h.drained) ?_
    rw [happlied, h.applied, hn.commitIndex_eq]
  have hnobody : { d with node := n }.waiters = [] := h.nobody
  obtain ⟨hstate, hanswers⟩ := processReady_of_nil codec hready hnobody
  obtain ⟨hnext, hround, hhanded⟩ := round_eq codec hhandle
  rw [hnext, hround, hhanded, hstate, hanswers, List.append_nil]
  exact ⟨⟨hn.takeReady.1, hn.takeReady.2, rfl, h.nobody, h.storage⟩, rfl, hready⟩

/-- Time passes. -/
theorem Alone.tick (h : d.Alone engine acked) :
    (d.localNext codec .tick).Alone engine acked ∧ d.answers codec .tick = [] ∧
      d.handedOut codec .tick = [] :=
  have hk := d.node.keepsLog_tick
  h.rest codec rfl h.node.tick hk.lastApplied hk.committed

/-- A proposal before the election. -/
theorem Alone.refuse (h : d.Alone engine acked) (hrole : d.node.role ≠ .leader)
    (command : WriteCommand) (done : δ) :
    (d.localNext codec (.propose command done)).Alone engine acked ∧
      d.answers codec (.propose command done) = [⟨done, .notLeader none, none, none⟩] ∧
      d.handedOut codec (.propose command done) = [] := by
  have hpropose := d.node.propose_of_ne_leader (codec.encode command) hrole
  have hhandle : d.handle codec (LocalEvent.propose command done).toDriverEvent =
      ({ d with node := d.node }, [⟨done, .notLeader none, none, none⟩]) := by
    simp only [LocalEvent.toDriverEvent, handle, handleRequest, hpropose, (h.node.waits hrole).1]
  exact h.rest codec hhandle h.node rfl rfl

/-- The leader's node after a proposal has one command ready. -/
theorem Alone.committed_ready (h : d.Alone engine acked) (hrole : d.node.role = .leader)
    {bytes : List UInt8} (hfilled : bytes ≠ []) :
    (d.node.propose bytes).2.ready.committed = [.command (acked.length + 1) bytes] := by
  have hk := d.node.keepsLog_propose bytes hrole
  have happlied : (d.node.propose bytes).2.lastApplied = acked.length :=
    hk.lastApplied.trans h.applied
  have hget : (d.node.propose bytes).2.log.get ((d.node.propose bytes).2.lastApplied + 1) =
      some (d.node.newEntry bytes) := by
    rw [hk.log, happlied, ← h.node.lastIndex_eq]
    exact get_append_singleton _ _
  have hcommit : (d.node.propose bytes).2.commitIndex =
      (d.node.propose bytes).2.lastApplied + 1 := by
    rw [happlied, (h.node.propose hrole bytes).commitIndex_eq]
  have hdrained : (d.node.propose bytes).2.committed = [] := hk.committed.trans h.drained
  rw [RaftNode.committed_ready_of_next hdrained hcommit hget hfilled, happlied]
  rfl

/-- A proposal to the leader. -/
theorem Alone.accept (h : d.Alone engine acked) (hcodec : codec.NonEmpty)
    (hrole : d.node.role = .leader) (command : WriteCommand) (done : δ) :
    (d.localNext codec (.propose command done)).Alone engine (acked ++ [command]) ∧
      d.answers codec (.propose command done) =
        [⟨done, .committed, some (acked.length + 1),
          some (.command (acked.length + 1) (codec.encode command))⟩] ∧
      d.handedOut codec (.propose command done) =
        [.command (acked.length + 1) (codec.encode command)] := by
  have hready := h.committed_ready hrole (hcodec command)
  have hnode := h.node.propose hrole (codec.encode command)
  have hindex := d.node.propose_fst (codec.encode command) hrole
  rw [h.node.lastIndex_eq] at hindex
  rcases hpropose : d.node.propose (codec.encode command) with ⟨result, n⟩
  rw [hpropose] at hready hnode hindex
  obtain rfl : result = .ok (acked.length + 1) := hindex
  have hhandle : d.handle codec (LocalEvent.propose command done).toDriverEvent =
      ({ d with node := n, waiters := [⟨acked.length + 1, done⟩] }, []) := by
    simp only [LocalEvent.toDriverEvent, handle, handleRequest, hpropose, h.nobody,
      List.nil_append]
  -- the entry is committed on the spot, so that the same round applies it and answers
  obtain ⟨hnext, hround, hhanded⟩ := round_eq codec hhandle
  have hwaits : { d with node := n, waiters := [⟨acked.length + 1, done⟩] }.waiters =
      [⟨acked.length + 1, done⟩] := rfl
  obtain ⟨hstate, hanswers⟩ := processReady_of_singleton codec hready hwaits
  rw [hnext, hround, hhanded, hstate, hanswers]
  refine ⟨⟨?_, ?_, rfl, rfl, ?_⟩, rfl, hready⟩
  · simpa using hnode.takeReady.1
  · simpa using hnode.takeReady.2
  · simp [Committed.applyTo, codec.decode_encode, h.storage, WriteCommand.applyList]

/-! ### Runs -/

/-- The driver after the events of a run. -/
def afterLocal (d : Driver σ δ) (events : List (LocalEvent δ)) : Driver σ δ :=
  Run.exec (localNext codec) d events

/-- The commands that are acknowledged in a run, in the order of their proposals. -/
def acknowledgements (d : Driver σ δ) (events : List (LocalEvent δ)) : List WriteCommand :=
  Run.outputs (localNext codec) (acknowledges codec) d events

/-- What the node hands out in a run. -/
def handOuts (d : Driver σ δ) (events : List (LocalEvent δ)) : List Committed :=
  Run.outputs (localNext codec) (handedOut codec) d events

/-- The commands stand at consecutive positions, the first one behind the position `k`. -/
def numbered (k : ℕ) (commands : List WriteCommand) : List Committed :=
  commands.mapIdx fun j command => .command (k + j + 1) (codec.encode command)

theorem numbered_append (k : ℕ) (commands commands' : List WriteCommand) :
    numbered codec k (commands ++ commands') =
      numbered codec k commands ++ numbered codec (k + commands.length) commands' := by
  unfold numbered
  rw [List.mapIdx_append]
  congr 2
  funext j command
  congr 1
  omega

/-- **A round** hands out what it acknowledges. -/
theorem Alone.step (h : d.Alone engine acked) (hcodec : codec.NonEmpty) (event : LocalEvent δ) :
    (d.localNext codec event).Alone engine (acked ++ d.acknowledges codec event) ∧
      d.handedOut codec event = numbered codec acked.length (d.acknowledges codec event) := by
  cases event with
  | tick =>
    obtain ⟨hnext, -, hhanded⟩ := h.tick codec
    simpa [acknowledges, numbered] using ⟨hnext, hhanded⟩
  | propose command done =>
    by_cases hrole : d.node.role = .leader
    · obtain ⟨hnext, hanswers, hhanded⟩ := h.accept codec hcodec hrole command done
      simpa [acknowledges, numbered, hanswers] using ⟨hnext, hhanded⟩
    · obtain ⟨hnext, hanswers, hhanded⟩ := h.refuse codec hrole command done
      simpa [acknowledges, numbered, hanswers] using ⟨hnext, hhanded⟩

/-- **A run** hands out what it acknowledges. -/
theorem Alone.run (h : d.Alone engine acked) (hcodec : codec.NonEmpty)
    (events : List (LocalEvent δ)) :
    (d.afterLocal codec events).Alone engine (acked ++ d.acknowledgements codec events) ∧
      d.handOuts codec events = numbered codec acked.length (d.acknowledgements codec events) := by
  induction events generalizing d acked with
  | nil => exact ⟨(List.append_nil acked).symm ▸ h, rfl⟩
  | cons event events ih =>
    obtain ⟨hnext, hround⟩ := h.step codec hcodec event
    obtain ⟨hend, hrest⟩ := ih hnext
    refine ⟨(List.append_assoc acked _ _) ▸ hend, ?_⟩
    show d.handedOut codec event ++ handOuts codec (d.localNext codec event) events =
      numbered codec _ (d.acknowledges codec event ++ acknowledgements codec _ events)
    rw [hround, hrest, numbered_append, List.length_append]

/-- Who is elected stays leader. -/
theorem Alone.leader (h : d.Alone engine acked) (hrole : d.node.role = .leader)
    (event : LocalEvent δ) : (d.localNext codec event).node.role = .leader := by
  have hhandled : (d.handle codec event.toDriverEvent).1.node.role = .leader := by
    cases event with
    | tick =>
      rcases RaftNode.role_tick_of_peers_eq_nil h.node.peers_eq with hleader | ⟨hnot, -⟩
      · exact hleader
      · exact absurd hrole hnot
    | propose command done =>
      have hpropose := RaftNode.role_propose_of_leader hrole (codec.encode command)
      simp only [LocalEvent.toDriverEvent, handle, handleRequest]
      split <;> next heq =>
        rw [heq] at hpropose
        exact hpropose
  unfold localNext
  rw [node_next, RaftNode.takeReady_eq]
  exact hhandled

theorem Alone.leader_run (h : d.Alone engine acked) (hcodec : codec.NonEmpty)
    (hrole : d.node.role = .leader) (events : List (LocalEvent δ)) :
    (d.afterLocal codec events).node.role = .leader := by
  induction events generalizing d acked with
  | nil => exact hrole
  | cons event events ih =>
    exact ih (h.step codec hcodec event).1 (h.leader codec hrole event)

/-- A driver whose store was `engine` at the start acts, in every run, as a sequential store. -/
structure IsSequential (engine : σ) (d : Driver σ δ) : Prop where
  /-- A proposal before the election is answered at once, and nothing is handed out for it. -/
  refused : ∀ before command done, (d.afterLocal codec before).node.role ≠ .leader →
    (d.afterLocal codec before).answers codec (.propose command done) =
        [⟨done, .notLeader none, none, none⟩] ∧
      (d.afterLocal codec before).handedOut codec (.propose command done) = []
  /-- Who is elected stays leader. -/
  leads : ∀ before later, (d.afterLocal codec before).node.role = .leader →
    (d.afterLocal codec (before ++ later)).node.role = .leader
  /-- A proposal to the leader is answered in the same round, when it has been applied at the index
  behind those of the commands that were acknowledged before. -/
  accepted : ∀ before command done, (d.afterLocal codec before).node.role = .leader →
    (d.afterLocal codec before).answers codec (.propose command done) =
        [⟨done, .committed, some ((d.acknowledgements codec before).length + 1),
          some (.command ((d.acknowledgements codec before).length + 1) (codec.encode command))⟩] ∧
      (d.afterLocal codec before).handedOut codec (.propose command done) =
        [.command ((d.acknowledgements codec before).length + 1) (codec.encode command)]
  /-- Nothing else is answered. -/
  silent : ∀ before, (d.afterLocal codec before).answers codec .tick = []
  /-- What is acknowledged is handed out at the indices `1, 2, 3, ...`, and nothing else is. -/
  handed : ∀ events,
    d.handOuts codec events = numbered codec 0 (d.acknowledgements codec events)
  /-- The store is that of the acknowledged commands. -/
  store : ∀ events, (d.afterLocal codec events).storage =
    WriteCommand.applyList engine (d.acknowledgements codec events)

theorem alone_new (id : NodeId) (config : RaftConfig) (rng : StdRng) (engine : σ) :
    (new (RaftNode.new id [] config rng) engine : Driver σ δ).Alone engine [] where
  node := RaftNode.alone_new id config rng
  applied := rfl
  drained := rfl
  nobody := rfl
  storage := rfl

variable {codec}

/-- **A cluster of one is a sequential store**, with any timeouts and any snapshot threshold. -/
theorem isSequential_of_nonEmpty (hcodec : codec.NonEmpty) (id : NodeId) (config : RaftConfig)
    (rng : StdRng) (engine : σ) :
    IsSequential codec engine (new (RaftNode.new id [] config rng) engine : Driver σ δ) := by
  have hstart : (new (RaftNode.new id [] config rng) engine : Driver σ δ).Alone engine [] :=
    alone_new id config rng engine
  have hrun := hstart.run codec hcodec
  refine ⟨?_, ?_, ?_, ?_, ?_, ?_⟩
  · intro before command done hrole
    exact ((hrun before).1.refuse codec hrole command done).2
  · intro before later hrole
    rw [afterLocal, Run.exec_append]
    exact (hrun before).1.leader_run codec hcodec hrole later
  · intro before command done hrole
    exact ((hrun before).1.accept codec hcodec hrole command done).2
  · intro before
    exact ((hrun before).1.tick codec).2.1
  · intro events
    exact (hrun events).2
  · intro events
    exact (hrun events).1.storage

/-- A driver without peers that compacts its log after every entry. -/
def onlyDriver : Driver MemoryEngine Unit :=
  new (RaftNode.new "n1" [] { raftCfg with snapshotThreshold := 1 } ⟨fun _ => 0⟩) MemoryEngine.new

/-- A write before the election and two after it. -/
def threeProposals : List (LocalEvent Unit) :=
  .propose (.set "k" [1]) () :: List.replicate 6 .tick ++
    [.propose (.set "k" [2]) (), .propose (.del ["k"]) ()]

theorem isSequential_onlyDriver :
    Codec.tagged.NonEmpty ∧
      onlyDriver.acknowledgements Codec.tagged threeProposals = [.set "k" [2], .del ["k"]] ∧
      IsSequential Codec.tagged MemoryEngine.new onlyDriver :=
  ⟨Codec.nonEmpty_tagged, by decide +kernel,
    isSequential_of_nonEmpty Codec.nonEmpty_tagged _ _ _ _⟩

end Driver

end Ferrium
