import Ferrium.Cluster.Defs
import Ferrium.Raft.Inputs
import Ferrium.Storage.Apply

/-!
# Deterministic simulation testing

Embedding of `src/sim.rs`: a whole cluster over an in-memory network. In each step every live node
advances one tick, its outputs are drained and applied, and the messages are delivered to the nodes
that can be reached; a message that cannot be delivered in its step is lost.

The source keeps its nodes in vectors, with a map from ids to positions; here everything is indexed
by the ids themselves, and `ids` gives their order. The seed of the random number generators is left
out, as everywhere (`StdRng`), and so is the counter of the steps, which nothing reads. The
functions that inspect the cluster or repeat `step` are in `Sim.Rounds`.

A step of the simulation is a list of events of the cluster of its nodes (`step_eq`).
-/

namespace Ferrium

open StorageEngine

/-- An in-memory cluster used for deterministic testing, with the history of what its nodes have
sent and handed out, which the source does not keep. -/
structure SimCluster where
  nodes : NodeId → RaftNode
  stores : NodeId → MemoryEngine
  /-- Whether a node is running (a crashed node neither ticks nor receives). -/
  alive : NodeId → Bool
  /-- Whether a node can reach the network (partition modelling). -/
  connected : NodeId → Bool
  ids : List NodeId
  sent : List Packet
  handed : List (NodeId × Committed)

/-- What a test does with the cluster. -/
inductive SimEvent
  | step
  | propose (i : NodeId) (command : WriteCommand)
  | crash (i : NodeId)
  | restart (i : NodeId)
  | disconnect (i : NodeId)
  | reconnect (i : NodeId)
  deriving DecidableEq, Repr

namespace SimCluster

/-- The names of `n` nodes. -/
def names (n : ℕ) : List NodeId :=
  (List.range n).map fun i => "n" ++ toString i

theorem nodup_names (n : ℕ) : (names n).Nodup := by
  refine List.nodup_range.map fun i j hij => ?_
  have hdigits : Nat.toDigits 10 i = Nat.toDigits 10 j := by
    simpa [Nat.repr_eq_ofList_toDigits, String.append_right_inj, String.ofList_inj] using hij
  calc i = Nat.ofDigitChars 10 (Nat.toDigits 10 i) 0 := Nat.ofDigitChars_ten_toDigits.symm
    _ = j := by rw [hdigits, Nat.ofDigitChars_ten_toDigits]

/-- The configuration of the simulated nodes. -/
def config : RaftConfig where
  heartbeatTicks := 1
  electionTimeoutMin := 5
  electionTimeoutMax := 10
  snapshotThreshold := 8
  timeout_le := by decide

/-- The nodes of a simulation before its start. -/
def setup (n : ℕ) (rng : NodeId → StdRng) : Setup :=
  Setup.ofNames (names n) (nodup_names n) config rng

/-- Build an `n`-node cluster. -/
def new (n : ℕ) (rng : NodeId → StdRng) : SimCluster where
  nodes := (Cluster.init (setup n rng)).nodes
  stores _ := MemoryEngine.new
  alive _ := true
  connected _ := true
  ids := names n
  sent := []
  handed := []

/-- The cluster of the simulated nodes. -/
def core (self : SimCluster) : Cluster where
  nodes := self.nodes
  sent := self.sent
  handed := self.handed

def deliverable (self : SimCluster) (sender receiver : NodeId) : Bool :=
  self.alive sender && self.alive receiver && self.connected sender && self.connected receiver

/-- Change the state of one node. -/
def setNode (self : SimCluster) (i : NodeId) (n : RaftNode) : SimCluster :=
  { self with nodes := Function.update self.nodes i n }

/-- Drain one node, and apply what it hands out to its store. -/
def drainNode (self : SimCluster) (codec : Codec) (i : NodeId) : SimCluster :=
  { self with
    nodes := Function.update self.nodes i (self.nodes i).takeReady
    stores := Function.update self.stores i
      ((self.nodes i).ready.committed.foldl (Committed.applyTo codec) (self.stores i))
    sent := self.sent ++ (self.nodes i).ready.messages.map fun env => ⟨i, env.dst, env.message⟩
    handed := self.handed ++ (self.nodes i).ready.committed.map fun item => (i, item) }

/-- What node `i` puts on the bus: its messages to nodes that exist. -/
def bus (self : SimCluster) (i : NodeId) : List Packet :=
  ((self.nodes i).ready.messages.filter (·.dst ∈ self.ids)).map fun env =>
    ⟨i, env.dst, env.message⟩

/-- Hand a message to its receiver. -/
def deliver (self : SimCluster) (p : Packet) : SimCluster :=
  self.setNode p.dst ((self.nodes p.dst).step p.src p.message)

/-- The first loop of `step`. -/
def tickAll (self : SimCluster) : SimCluster :=
  self.ids.foldl
    (fun sim i => if self.alive i then sim.setNode i (sim.nodes i).tick else sim) self

/-- The second loop of `step`, with the messages that are buffered for delivery. -/
def drainAll (self : SimCluster) (codec : Codec) : SimCluster × List Packet :=
  self.ids.foldl
    (fun (sim, buffered) i =>
      if self.alive i then (sim.drainNode codec i, buffered ++ sim.bus i) else (sim, buffered))
    (self, [])

/-- The third loop of `step`. -/
def deliverAll (self : SimCluster) (buffered : List Packet) : SimCluster :=
  buffered.foldl
    (fun sim p => if self.deliverable p.src p.dst then sim.deliver p else sim) self

/-- Advance the whole cluster by one step. -/
def step (self : SimCluster) (codec : Codec) : SimCluster :=
  let drained := self.tickAll.drainAll codec
  drained.1.deliverAll drained.2

/-- Propose a write to a node. -/
def propose (self : SimCluster) (codec : Codec) (i : NodeId) (command : WriteCommand) :
    SimCluster :=
  self.setNode i ((self.nodes i).propose (codec.encode command)).2

/-- Crash a node: it stops ticking and receiving until restarted. -/
def crash (self : SimCluster) (i : NodeId) : SimCluster :=
  { self with alive := Function.update self.alive i false }

/-- Restart a previously crashed node (its log and state persist). -/
def restart (self : SimCluster) (i : NodeId) : SimCluster :=
  { self with alive := Function.update self.alive i true }

/-- Partition a node away from the rest of the cluster. -/
def disconnect (self : SimCluster) (i : NodeId) : SimCluster :=
  { self with connected := Function.update self.connected i false }

/-- Heal a node's network partition. -/
def reconnect (self : SimCluster) (i : NodeId) : SimCluster :=
  { self with connected := Function.update self.connected i true }

/-- The effect of a call. -/
def next (codec : Codec) (self : SimCluster) : SimEvent → SimCluster
  | .step => self.step codec
  | .propose i command => self.propose codec i command
  | .crash i => self.crash i
  | .restart i => self.restart i
  | .disconnect i => self.disconnect i
  | .reconnect i => self.reconnect i

/-! ### Calls as events of the cluster -/

/-- What an event of the cluster does to the simulation. -/
def input (codec : Codec) (self : SimCluster) : Event → SimCluster
  | .tick i => self.setNode i (self.nodes i).tick
  | .propose i command => self.setNode i ((self.nodes i).propose command).2
  | .takeReady i _ => self.drainNode codec i
  | .deliver p => self.deliver p

/-- The nodes that are running. -/
def running (self : SimCluster) : List NodeId :=
  self.ids.filter self.alive

/-- The messages that `step` hands to their receivers. -/
def delivered (self : SimCluster) (codec : Codec) : List Packet :=
  (self.tickAll.drainAll codec).2.filter fun p => self.deliverable p.src p.dst

/-- The events of a call. -/
def events (codec : Codec) (self : SimCluster) : SimEvent → List Event
  | .step =>
    self.running.map .tick ++ self.running.map (.takeReady · []) ++
      (self.delivered codec).map .deliver
  | .propose i command => [.propose i (codec.encode command)]
  | .crash _ | .restart _ | .disconnect _ | .reconnect _ => []

variable {codec : Codec} {self : SimCluster}

/-- No event changes which nodes there are, run, and can be reached. -/
structure SameNetwork (before sim : SimCluster) : Prop where
  ids : sim.ids = before.ids
  alive : sim.alive = before.alive
  connected : sim.connected = before.connected

theorem sameNetwork_exec (codec : Codec) (self : SimCluster) (es : List Event) :
    SameNetwork self (Run.exec (input codec) self es) := by
  refine Run.exec_invariant (SameNetwork self) (fun sim e h => ?_) es ⟨rfl, rfl, rfl⟩
  cases e <;> exact ⟨h.ids, h.alive, h.connected⟩

theorem tickAll_eq (codec : Codec) (self : SimCluster) :
    self.tickAll = Run.exec (input codec) self (self.running.map .tick) := by
  unfold tickAll Run.exec running
  rw [List.foldl_map, List.foldl_filter]
  rfl

/-- The loop that drains the nodes, without the messages that it buffers. -/
theorem drainAll_fst (codec : Codec) (self : SimCluster) :
    (self.drainAll codec).1 = Run.exec (input codec) self (self.running.map (.takeReady · [])) := by
  unfold drainAll Run.exec running
  rw [List.foldl_map, List.foldl_filter]
  -- the buffer is only added to
  suffices h : ∀ (ids : List NodeId) (sim : SimCluster) (buffered : List Packet),
      (ids.foldl (fun (sim, buffered) i =>
        if self.alive i then (sim.drainNode codec i, buffered ++ sim.bus i) else (sim, buffered))
        (sim, buffered)).1 =
      ids.foldl (fun sim i => if self.alive i = true then sim.drainNode codec i else sim) sim from
    h self.ids self []
  intro ids
  induction ids with
  | nil => exact fun _ _ => rfl
  | cons i ids ih =>
    intro sim buffered
    rw [List.foldl_cons, List.foldl_cons]
    by_cases halive : self.alive i = true
    · simp only [if_pos halive]
      exact ih _ _
    · simp only [if_neg halive]
      exact ih _ _

theorem deliverAll_eq (codec : Codec) (self : SimCluster) (buffered : List Packet) :
    self.deliverAll buffered = Run.exec (input codec) self
      ((buffered.filter fun p => self.deliverable p.src p.dst).map .deliver) := by
  unfold deliverAll Run.exec
  rw [List.foldl_map, List.foldl_filter]
  rfl

theorem running_tickAll (self : SimCluster) : self.tickAll.running = self.running := by
  -- no codec is involved yet, any will do
  have hticked := sameNetwork_exec Codec.tagged self (self.running.map .tick)
  rw [← tickAll_eq] at hticked
  unfold running
  rw [hticked.ids, hticked.alive]

/-- **A step of the simulation is a list of events of the cluster.** -/
theorem step_eq (codec : Codec) (self : SimCluster) :
    self.step codec = Run.exec (input codec) self (self.events codec .step) := by
  have hticked := sameNetwork_exec codec self (self.running.map .tick)
  rw [← tickAll_eq codec self] at hticked
  have hdrained := sameNetwork_exec codec self.tickAll (self.tickAll.running.map (.takeReady · []))
  rw [← drainAll_fst codec self.tickAll] at hdrained
  have hreach : ∀ p : Packet, (self.tickAll.drainAll codec).1.deliverable p.src p.dst =
      self.deliverable p.src p.dst := fun p => by
    unfold deliverable
    rw [hdrained.alive, hdrained.connected, hticked.alive, hticked.connected]
  calc self.step codec
      = Run.exec (input codec) (self.tickAll.drainAll codec).1
          ((self.delivered codec).map .deliver) := by
        unfold step delivered
        rw [deliverAll_eq codec]
        simp only [hreach]
    _ = Run.exec (input codec) self (self.events codec .step) := by
        rw [drainAll_fst, running_tickAll, tickAll_eq codec, events, Run.exec_append,
          Run.exec_append]

/-- A call that is not a step is at most one event, and may change the network besides. -/
theorem next_eq (codec : Codec) (self : SimCluster) (call : SimEvent) :
    ∃ alive connected, self.next codec call =
      { Run.exec (input codec) self (self.events codec call) with alive, connected } := by
  cases call with
  | step => exact ⟨_, _, step_eq codec self⟩
  | propose i command => exact ⟨_, _, rfl⟩
  | crash i => exact ⟨_, self.connected, rfl⟩
  | restart i => exact ⟨_, self.connected, rfl⟩
  | disconnect i => exact ⟨self.alive, _, rfl⟩
  | reconnect i => exact ⟨self.alive, _, rfl⟩

end SimCluster

end Ferrium
