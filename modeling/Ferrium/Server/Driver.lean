import Ferrium.Lib.Run
import Ferrium.Raft.Inputs
import Ferrium.Storage.Apply

/-!
# The driver of a node

Embedding of the `Driver` of `src/server.rs`: the single task that owns a `RaftNode` and connects it
to the clock, the transport, the storage engine and the clients. Each round of its loop takes one
event and then processes what the node has ready.

Sending is returning: a round results in the messages that go to the transport and the outcomes that
go to clients. The end of a client's channel is a value of an arbitrary type `δ`. Metrics, logging
and the replies to status requests, which nothing depends on, are left out.

Waiting clients are kept by log index only. A client is told that its write is committed as soon as
anything is committed at that index, and what was appended there for it may have been replaced
(`Driver.KeepsWaited`).
-/

namespace Ferrium

open StorageEngine RaftLog

variable {σ δ : Type*}

/-- Result of a proposed write. -/
inductive ProposeOutcome
  | committed
  | notLeader (leader : Option NodeId)
  deriving DecidableEq, Repr

/-- A request sent to the driver task. -/
inductive DriverMsg (δ : Type*)
  /-- An inbound Raft message from a peer. -/
  | peer (sender : NodeId) (message : Message)
  /-- A client write to be replicated; resolved once committed. -/
  | propose (command : WriteCommand) (done : δ)
  /-- A snapshot of cluster state for `CLUSTER STATUS`. -/
  | status
  deriving DecidableEq, Repr

/-- What a round of the driver's loop starts with. -/
inductive DriverEvent (δ : Type*)
  | tick
  | inbound (sender : NodeId) (message : Message)
  | request (msg : DriverMsg δ)
  deriving DecidableEq, Repr

/-- A client that waits for the log index that its write was given. The `HashMap` of the source,
from an index to the clients waiting for it, is the list of these pairs. -/
structure Waiter (δ : Type*) where
  index : ℕ
  done : δ
  deriving DecidableEq, Repr

/-- An outcome that is sent to a client, with the index that it was waiting for, if any, and what
has just been applied, if it is sent for that. -/
structure Answer (δ : Type*) where
  done : δ
  outcome : ProposeOutcome
  index : Option ℕ
  applied : Option Committed
  deriving DecidableEq, Repr

/-- What a round sends. -/
structure Output (δ : Type*) where
  messages : List Envelope
  answers : List (Answer δ)

/-- The configuration that `run` creates its node with. -/
def raftCfg : RaftConfig where
  heartbeatTicks := 2
  electionTimeoutMin := 6
  electionTimeoutMax := 12
  snapshotThreshold := 1024
  timeout_le := by decide

/-- The single-owner Raft driver. -/
structure Driver (σ δ : Type*) where
  node : RaftNode
  storage : σ
  waiters : List (Waiter δ)

namespace Driver

/-- A driver nobody waits for. -/
def new (node : RaftNode) (storage : σ) : Driver σ δ :=
  { node, storage, waiters := [] }

/-- Send an outcome to everybody who waits for an index. -/
def resolve (self : Driver σ δ) (index : ℕ) (outcome : ProposeOutcome)
    (applied : Option Committed) : Driver σ δ × List (Answer δ) :=
  ({ self with waiters := self.waiters.filter (·.index ≠ index) },
    (self.waiters.filter (·.index = index)).map fun waiter =>
      { done := waiter.done, outcome, index := some index, applied })

variable [StorageEngine σ] (codec : Codec)

/-- One round of the loop over what is committed. -/
def applyOne (self : Driver σ δ) (item : Committed) : Driver σ δ × List (Answer δ) :=
  let driver := { self with storage := item.applyTo codec self.storage }
  match item with
  | .command index _ => driver.resolve index .committed (some item)
  | .snapshot _ => (driver, [])

/-- The loop over what is committed. -/
def applyAll : Driver σ δ → List Committed → Driver σ δ × List (Answer δ)
  | self, [] => (self, [])
  | self, item :: items =>
    let first := self.applyOne codec item
    let rest := applyAll first.1 items
    (rest.1, first.2 ++ rest.2)

omit [StorageEngine σ] in
/-- If we have lost (or never had) leadership, fail everything still waiting. -/
def failWaiters (self : Driver σ δ) : Driver σ δ × List (Answer δ) :=
  if self.node.isLeader then (self, [])
  else
    ({ self with waiters := [] },
      self.waiters.map fun waiter =>
        { done := waiter.done
          outcome := .notLeader self.node.leaderId
          index := some waiter.index
          applied := none })

/-- Send what the node has to send, with the current contents of the store in every snapshot, and
apply what is committed. -/
def processReady (self : Driver σ δ) : Driver σ δ × Output δ :=
  let ready := self.node.ready
  let messages := ready.messages.map fun env =>
    ⟨env.dst, env.message.fillSnapshot (snapshot self.storage)⟩
  let applied := applyAll codec { self with node := self.node.takeReady } ready.committed
  let failed := applied.1.failWaiters
  (failed.1, { messages, answers := applied.2 ++ failed.2 })

omit [StorageEngine σ] in
def handleRequest (self : Driver σ δ) : DriverMsg δ → Driver σ δ × List (Answer δ)
  | .peer sender message => ({ self with node := self.node.step sender message }, [])
  | .propose command done =>
    match self.node.propose (codec.encode command) with
    | (.ok index, node) =>
      ({ self with node, waiters := self.waiters ++ [{ index, done }] }, [])
    | (.error notLeader, node) =>
      ({ self with node },
        [{ done, outcome := .notLeader notLeader.leader, index := none, applied := none }])
  | .status => (self, [])

omit [StorageEngine σ] in
/-- The first half of a round: the event. -/
def handle (self : Driver σ δ) : DriverEvent δ → Driver σ δ × List (Answer δ)
  | .tick => ({ self with node := self.node.tick }, [])
  | .inbound sender message => ({ self with node := self.node.step sender message }, [])
  | .request msg => self.handleRequest codec msg

/-- A round of the loop. -/
def step (self : Driver σ δ) (event : DriverEvent δ) : Driver σ δ × Output δ :=
  let handled := self.handle codec event
  let ready := handled.1.processReady codec
  (ready.1, { ready.2 with answers := handled.2 ++ ready.2.answers })

/-- The driver after a round. -/
def next (self : Driver σ δ) (event : DriverEvent δ) : Driver σ δ :=
  (self.step codec event).1

/-! ### The event -/

omit [StorageEngine σ] in
theorem storage_handle (codec : Codec) (d : Driver σ δ) (event : DriverEvent δ) :
    (d.handle codec event).1.storage = d.storage := by
  match event with
  | .tick | .inbound _ _ | .request (.peer _ _) | .request .status => rfl
  | .request (.propose command done) =>
    simp only [handle, handleRequest]
    split <;> rfl

omit [StorageEngine σ] in
/-- A proposal goes to the node, whether it is leader or not. -/
theorem node_handle_propose (codec : Codec) (d : Driver σ δ) (command : WriteCommand) (done : δ) :
    (d.handle codec (.request (.propose command done))).1.node =
      (d.node.propose (codec.encode command)).2 := by
  simp only [handle, handleRequest]
  split <;> next heq => exact (congrArg Prod.snd heq).symm

/-! ### The loop over what is committed -/

theorem node_applyAll (codec : Codec) (items : List Committed) (d : Driver σ δ) :
    (applyAll codec d items).1.node = d.node := by
  induction items generalizing d with
  | nil => rfl
  | cons item items ih =>
    refine (ih _).trans ?_
    cases item <;> rfl

theorem storage_applyAll (codec : Codec) (items : List Committed) (d : Driver σ δ) :
    (applyAll codec d items).1.storage = items.foldl (Committed.applyTo codec) d.storage := by
  induction items generalizing d with
  | nil => rfl
  | cons item items ih =>
    refine (ih _).trans ?_
    cases item <;> rfl

/-- Who still waits after the loop has waited before, for an index at which nothing was applied. -/
theorem mem_waiters_applyAll {codec : Codec} {items : List Committed} {d : Driver σ δ}
    {waiter : Waiter δ} (h : waiter ∈ (applyAll codec d items).1.waiters) :
    waiter ∈ d.waiters ∧ ∀ bytes, .command waiter.index bytes ∉ items := by
  induction items generalizing d with
  | nil => exact ⟨h, fun _ => List.not_mem_nil⟩
  | cons item items ih =>
    obtain ⟨hfirst, hrest⟩ := ih h
    cases item with
    | command index command =>
      obtain ⟨hmem, hindex⟩ := List.mem_filter.mp hfirst
      have hne : waiter.index ≠ index := by simpa using hindex
      refine ⟨hmem, fun bytes hbytes => ?_⟩
      rcases List.mem_cons.mp hbytes with heq | hlater
      · exact hne (Committed.command.inj heq).1
      · exact hrest bytes hlater
    | snapshot data =>
      refine ⟨hfirst, fun bytes hbytes => ?_⟩
      rcases List.mem_cons.mp hbytes with heq | hlater
      · cases heq
      · exact hrest bytes hlater

/-- The node after a round that processes `d`. -/
theorem node_processReady (codec : Codec) (d : Driver σ δ) :
    (d.processReady codec).1.node = d.node.takeReady := by
  have hnode := node_applyAll codec d.node.ready.committed
    { d with node := d.node.takeReady }
  show (failWaiters _).1.node = _
  unfold failWaiters
  split <;> exact hnode

/-- The store after a round that processes `d`. -/
theorem storage_processReady (codec : Codec) (d : Driver σ δ) :
    (d.processReady codec).1.storage =
      d.node.ready.committed.foldl (Committed.applyTo codec) d.storage := by
  have hstorage := storage_applyAll codec d.node.ready.committed { d with node := d.node.takeReady }
  show (failWaiters _).1.storage = _
  unfold failWaiters
  split <;> exact hstorage

/-- The node after a round. -/
theorem node_next (codec : Codec) (d : Driver σ δ) (event : DriverEvent δ) :
    (d.next codec event).node = (d.handle codec event).1.node.takeReady :=
  node_processReady codec _

/-- The store after a round. -/
theorem storage_next (codec : Codec) (d : Driver σ δ) (event : DriverEvent δ) :
    (d.next codec event).storage =
      (d.handle codec event).1.node.ready.committed.foldl (Committed.applyTo codec) d.storage := by
  rw [← storage_handle codec d event]
  exact storage_processReady codec _

end Driver

end Ferrium
