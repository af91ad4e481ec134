import Ferrium.Lib.Run
import Ferrium.Raft.Node

/-!
# Clusters of Raft nodes

A cluster is a family of `RaftNode`s together with what they have given out so far: every message
that was drained from a node, and everything that was handed out as committed. An event lets one
node tick, propose, drain its outputs, or receive a message that was drained before and is
addressed to it. A message may be received late, after later ones, never, or more than once, and a
node that has no events is paused.

A run is a list of events each of which is `Enabled` in the state where it occurs.
-/

namespace Ferrium

/-- A message on its way: the driver and the simulation both tell the receiver who sent it. -/
structure Packet where
  src : NodeId
  dst : NodeId
  message : Message
  deriving DecidableEq, Repr

/-- A cluster before its start: its members, and what each of them is created with. The peers of a
member are exactly the other members. -/
structure Setup where
  members : Finset NodeId
  peers : NodeId → List NodeId
  config : NodeId → RaftConfig
  rng : NodeId → StdRng
  nodup_peers : ∀ i ∈ members, (peers i).Nodup
  mem_peers : ∀ i ∈ members, ∀ j, j ∈ peers i ↔ j ∈ members ∧ j ≠ i

/-- The cluster of the nodes with the given names: the peers of each are the other names, in the
same order. -/
def Setup.ofNames (names : List NodeId) (hnames : names.Nodup) (config : RaftConfig)
    (rng : NodeId → StdRng) : Setup where
  members := names.toFinset
  peers i := names.filter (· ≠ i)
  config _ := config
  rng := rng
  nodup_peers _ _ := hnames.filter _
  mem_peers _ _ _ := by simp

theorem nodup_threeNames : (["n1", "n2", "n3"] : List NodeId).Nodup := by
  decide

/-- Three nodes that call an election or send a heartbeat at every tick, and compact their logs
after `snapshotThreshold` entries. -/
def threeNodes (snapshotThreshold : ℕ) : Setup :=
  Setup.ofNames ["n1", "n2", "n3"] nodup_threeNames
    { heartbeatTicks := 1
      electionTimeoutMin := 1
      electionTimeoutMax := 1
      snapshotThreshold
      timeout_le := le_rfl }
    fun _ => ⟨fun _ => 0⟩

/-- The state of a cluster, with the history of its outputs. -/
structure Cluster where
  nodes : NodeId → RaftNode
  /-- Every message drained from a node so far. -/
  sent : List Packet
  /-- Everything handed out as committed so far, with the node that handed it out. -/
  handed : List (NodeId × Committed)

/-- One input to one node. -/
inductive Event
  | tick (i : NodeId)
  | propose (i : NodeId) (command : List UInt8)
  /-- Drain node `i`; `data` is what its driver fills into the snapshots among the messages (`[]`
  for the bare core). -/
  | takeReady (i : NodeId) (data : List KeyValue)
  | deliver (p : Packet)
  deriving DecidableEq, Repr

namespace Cluster

/-- The cluster of fresh nodes. -/
def init (S : Setup) : Cluster where
  nodes i := RaftNode.new i (S.peers i) (S.config i) (S.rng i)
  sent := []
  handed := []

/-- Replace the state of one node. -/
def setNode (c : Cluster) (i : NodeId) (n : RaftNode) : Cluster :=
  { c with nodes := Function.update c.nodes i n }

/-- The effect of an event. -/
def step (c : Cluster) : Event → Cluster
  | .tick i => c.setNode i (c.nodes i).tick
  | .propose i command => c.setNode i ((c.nodes i).propose command).2
  | .takeReady i data =>
    { nodes := Function.update c.nodes i (c.nodes i).takeReady
      sent := c.sent ++ (c.nodes i).ready.messages.map
        fun env => ⟨i, env.dst, env.message.fillSnapshot data⟩
      handed := c.handed ++ (c.nodes i).ready.committed.map fun item => (i, item) }
  | .deliver p => c.setNode p.dst ((c.nodes p.dst).step p.src p.message)

/-- An event can occur: its node is a member, and a message that is received was drained from some
node before and is addressed to the receiver. -/
def Enabled (S : Setup) (c : Cluster) : Event → Prop
  | .tick i => i ∈ S.members
  | .propose i _ => i ∈ S.members
  | .takeReady i _ => i ∈ S.members
  | .deliver p => p.dst ∈ S.members ∧ p ∈ c.sent

instance decidableEnabled (S : Setup) (c : Cluster) : ∀ e, Decidable (Enabled S c e)
  | .tick i => inferInstanceAs (Decidable (i ∈ S.members))
  | .propose i _ => inferInstanceAs (Decidable (i ∈ S.members))
  | .takeReady i _ => inferInstanceAs (Decidable (i ∈ S.members))
  | .deliver p => inferInstanceAs (Decidable (p.dst ∈ S.members ∧ p ∈ c.sent))

/-- The messages received in a run. -/
def deliveries (es : List Event) : List Packet :=
  es.filterMap fun e => match e with
    | .deliver p => some p
    | _ => none

/-- The state after the events `es` of the cluster `S`. -/
def after (S : Setup) (es : List Event) : Cluster :=
  Run.exec step (init S) es

/-- `es` is a run of the cluster `S` all of whose events satisfy `cond` where they occur. -/
def IsRun (S : Setup) (cond : Cluster → Event → Prop) (es : List Event) : Prop :=
  Run.Guarded step (fun c e => Enabled S c e ∧ cond c e) (init S) es

instance decidableIsRun (S : Setup) (cond : Cluster → Event → Prop)
    [∀ c e, Decidable (cond c e)] (es : List Event) : Decidable (IsRun S cond es) :=
  inferInstanceAs (Decidable (Run.Guarded step (fun c e => Enabled S c e ∧ cond c e) (init S) es))

/-- No condition on the events. -/
def anyEvent : Cluster → Event → Prop := fun _ _ => True

instance decidableAnyEvent (c : Cluster) (e : Event) : Decidable (anyEvent c e) :=
  isTrue trivial

/-- The run `es` of the cluster `S` meets the condition `cond` and receives no message twice, but
does not have the property `P`. -/
def Violates (S : Setup) (cond : Cluster → Event → Prop) (P : List Event → Prop)
    (es : List Event) : Prop :=
  IsRun S cond es ∧ (deliveries es).Nodup ∧ ¬P es

@[simp]
theorem nodes_setNode_self (c : Cluster) (i : NodeId) (n : RaftNode) :
    (c.setNode i n).nodes i = n := by
  simp [setNode]

theorem nodes_setNode_of_ne (c : Cluster) {i j : NodeId} (n : RaftNode) (h : j ≠ i) :
    (c.setNode i n).nodes j = c.nodes j := by
  simp [setNode, h]

@[simp]
theorem setNode_setNode (c : Cluster) (i : NodeId) (n n' : RaftNode) :
    (c.setNode i n).setNode i n' = c.setNode i n' := by
  simp [setNode]

@[simp]
theorem setNode_nodes (c : Cluster) (i : NodeId) : c.setNode i (c.nodes i) = c := by
  simp [setNode]

/-- Move everything that node `i` has accumulated to the histories: the second half of
`takeReady`. -/
def drain (c : Cluster) (i : NodeId) (data : List KeyValue) : Cluster where
  nodes := Function.update c.nodes i { c.nodes i with outgoing := [], committed := [] }
  sent := c.sent ++ (c.nodes i).outgoing.map
    fun env => ⟨i, env.dst, env.message.fillSnapshot data⟩
  handed := c.handed ++ (c.nodes i).committed.map fun item => (i, item)

theorem step_takeReady (c : Cluster) (i : NodeId) (data : List KeyValue) :
    c.step (.takeReady i data) = (c.setNode i (c.nodes i).applyCommitted).drain i data := by
  simp [step, drain, setNode, RaftNode.takeReady, RaftNode.ready]

/-- Everything that node `i` has produced so far, whether it was drained or still waits in the
queue of the node. -/
def emittedBy (c : Cluster) (i : NodeId) : List Envelope :=
  (c.sent.filter (·.src = i)).map (fun p => ⟨p.dst, p.message⟩) ++ (c.nodes i).outgoing

theorem mem_emittedBy {c : Cluster} {i : NodeId} {env : Envelope} :
    env ∈ c.emittedBy i ↔ ⟨i, env.dst, env.message⟩ ∈ c.sent ∨ env ∈ (c.nodes i).outgoing := by
  unfold emittedBy
  rw [List.mem_append]
  refine or_congr_left ⟨?_, fun h => ?_⟩
  · rintro h
    obtain ⟨⟨src, dst, message⟩, hp, rfl⟩ := List.mem_map.mp h
    obtain ⟨hmem, hsrc⟩ := List.mem_filter.mp hp
    obtain rfl : src = i := by simpa using hsrc
    exact hmem
  · exact List.mem_map.mpr ⟨_, List.mem_filter.mpr ⟨h, by simp⟩, rfl⟩

/-- A message that was drained has been produced by its sender. -/
theorem mem_emittedBy_of_sent {c : Cluster} {p : Packet} (h : p ∈ c.sent) :
    ⟨p.dst, p.message⟩ ∈ c.emittedBy p.src :=
  mem_emittedBy.mpr (Or.inl h)

/-- A node that only adds to its queue adds just that to what it has produced. -/
theorem emittedBy_setNode {c : Cluster} {i : NodeId} {n : RaftNode} {out : List Envelope}
    (h : n.outgoing = (c.nodes i).outgoing ++ out) (j : NodeId) :
    (c.setNode i n).emittedBy j = if j = i then c.emittedBy i ++ out else c.emittedBy j := by
  unfold emittedBy
  split
  · next hj => rw [hj, nodes_setNode_self, h, ← List.append_assoc]; rfl
  · next hj => rw [nodes_setNode_of_ne c n hj]; rfl

/-- Draining fills the snapshots among the messages; else nothing is produced or lost. -/
theorem mem_emittedBy_drain {c : Cluster} {i j : NodeId} {data : List KeyValue} {env : Envelope} :
    env ∈ (c.drain i data).emittedBy j ↔
      ⟨j, env.dst, env.message⟩ ∈ c.sent ∨
        ∃ env' ∈ (c.nodes j).outgoing,
          env = if j = i then ⟨env'.dst, env'.message.fillSnapshot data⟩ else env' := by
  rw [mem_emittedBy]
  rcases eq_or_ne j i with rfl | hne
  · simp only [drain, List.mem_append, List.mem_map, Packet.mk.injEq, true_and,
      Function.update_self, List.not_mem_nil, or_false, if_pos]
    refine or_congr_right (exists_congr fun env' => and_congr_right fun _ => ?_)
    constructor
    · rintro ⟨hdst, hmsg⟩
      cases env
      simp_all
    · rintro rfl
      exact ⟨rfl, rfl⟩
  · simp only [drain, List.mem_append, List.mem_map, Packet.mk.injEq, hne.symm, false_and,
      and_false, exists_false, or_false, Function.update_of_ne hne, if_neg hne]
    simp

end Cluster

end Ferrium
