import Ferrium.Cluster.Replicas
import Ferrium.Cluster.Safety
import Ferrium.Server.Driver

/-!
# A cluster of drivers

Every node of a cluster is run by a `Driver`. A round of a driver is an input to its node, followed
by `takeReady` with the contents of the store as the data for snapshots; the cores of the drivers
make up a run of the `Cluster`, and the stores are those of `Stored`.

The data that the driver fills into a snapshot is what the store holds when the message is sent. The
snapshot point that the node has put on the label is where the log was compacted last, and the store
may have gone on since then (`newerData`).

## Main results

* `Fleet.core_step`: a round of a driver is two events of the cluster of the cores;
* `Fleet.replicasAgree_of_inTime`: stores with the same last applied index agree in every run that
  follows the protocol and sends snapshots only of the position that the store is in;
* `Fleet.not_replicasAgree_newerData`: not in every run that follows the protocol.
-/

namespace Ferrium

open StorageEngine TermLog RaftLog

/-- The drivers of a cluster, with the history of what they have sent and what their nodes have
handed out. -/
structure Fleet (σ δ : Type*) where
  drivers : NodeId → Driver σ δ
  sent : List Packet
  handed : List (NodeId × Committed)

/-- A round of one driver. -/
structure FleetEvent (δ : Type*) where
  node : NodeId
  event : DriverEvent δ
  deriving DecidableEq, Repr

/-- If the message is a snapshot, it is labelled with the position `k`. -/
def Message.SnapshotAt (k : ℕ) : Message → Prop
  | .installSnapshot m => m.lastIncludedIndex = k
  | .requestVote _ | .requestVoteReply _ | .appendEntries _ | .appendEntriesReply _
  | .installSnapshotReply _ => True

instance decidableSnapshotAt (k : ℕ) : ∀ message : Message, Decidable (message.SnapshotAt k)
  | .installSnapshot m => inferInstanceAs (Decidable (m.lastIncludedIndex = k))
  | .requestVote _ | .requestVoteReply _ | .appendEntries _ | .appendEntriesReply _
  | .installSnapshotReply _ => isTrue trivial

namespace Fleet

variable {σ δ : Type*}

/-- Fresh nodes, each with the same store. -/
def init (S : Setup) (storage : σ) : Fleet σ δ where
  drivers i := Driver.new (RaftNode.new i (S.peers i) (S.config i) (S.rng i)) storage
  sent := []
  handed := []

/-- The cluster of the nodes. -/
def core (f : Fleet σ δ) : Cluster where
  nodes i := (f.drivers i).node
  sent := f.sent
  handed := f.handed

variable (codec : Codec)

/-- The input of a round to the node. -/
def coreInput (i : NodeId) : DriverEvent δ → Option Event
  | .tick => some (.tick i)
  | .inbound sender message => some (.deliver ⟨sender, i, message⟩)
  | .request (.peer sender message) => some (.deliver ⟨sender, i, message⟩)
  | .request (.propose command _) => some (.propose i (codec.encode command))
  | .request .status => none

/-- The cluster of the nodes after the input of a round. -/
def afterInput (f : Fleet σ δ) (e : FleetEvent δ) : Cluster :=
  match coreInput codec e.node e.event with
  | some input => f.core.step input
  | none => f.core

/-- A round can take place: its driver is that of a member, and a message that is received was sent
before and is addressed to it. -/
def Enabled (S : Setup) (f : Fleet σ δ) (e : FleetEvent δ) : Prop :=
  e.node ∈ S.members ∧
    ∀ input ∈ coreInput codec e.node e.event, Cluster.Enabled S f.core input

instance decidableEnabled (S : Setup) (f : Fleet σ δ) (e : FleetEvent δ) :
    Decidable (Enabled codec S f e) :=
  inferInstanceAs (Decidable (_ ∧ _))

/-- The snapshots among what the node has to send are of the position that the store is in. -/
def FillsInTime (f : Fleet σ δ) (e : FleetEvent δ) : Prop :=
  ∀ env ∈ ((f.afterInput codec e).nodes e.node).outgoing,
    env.message.SnapshotAt (f.drivers e.node).node.lastApplied

instance decidableFillsInTime (f : Fleet σ δ) (e : FleetEvent δ) :
    Decidable (FillsInTime codec f e) :=
  inferInstanceAs (Decidable (∀ env ∈ _, _))

/-- The input of the round follows the protocol. -/
def CoreFollows (f : Fleet σ δ) (e : FleetEvent δ) : Prop :=
  ∀ input ∈ coreInput codec e.node e.event, Cluster.FollowsProtocol f.core input

instance decidableCoreFollows (f : Fleet σ δ) (e : FleetEvent δ) :
    Decidable (CoreFollows codec f e) :=
  inferInstanceAs (Decidable (∀ input ∈ _, _))

variable [StorageEngine σ]

/-- A round of the driver of a node. -/
def step (f : Fleet σ δ) (e : FleetEvent δ) : Fleet σ δ :=
  let result := (f.drivers e.node).step codec e.event
  { drivers := Function.update f.drivers e.node result.1
    sent := f.sent ++ result.2.messages.map fun env => ⟨e.node, env.dst, env.message⟩
    handed := f.handed ++
      ((f.drivers e.node).handle codec e.event).1.node.ready.committed.map fun item =>
        (e.node, item) }

/-- What a round answers to clients. -/
def answers (f : Fleet σ δ) (e : FleetEvent δ) : List (Answer δ) :=
  ((f.drivers e.node).step codec e.event).2.answers

omit [StorageEngine σ] in
/-- What the node hands out in a round. -/
def handedOut (f : Fleet σ δ) (e : FleetEvent δ) : List Committed :=
  ((f.drivers e.node).handle codec e.event).1.node.ready.committed

theorem drivers_step_self (f : Fleet σ δ) (e : FleetEvent δ) :
    (f.step codec e).drivers e.node = (f.drivers e.node).next codec e.event :=
  Function.update_self _ _ _

theorem drivers_step_of_ne (f : Fleet σ δ) {e : FleetEvent δ} {i : NodeId} (hne : i ≠ e.node) :
    (f.step codec e).drivers i = f.drivers i :=
  Function.update_of_ne hne _ _

theorem handed_step (f : Fleet σ δ) (e : FleetEvent δ) :
    (f.step codec e).handed = f.handed ++ (handedOut codec f e).map fun item => (e.node, item) :=
  rfl

variable {codec} {f : Fleet σ δ} {e : FleetEvent δ}

/-- What has been handed out stays in the history. -/
theorem handed_subset_exec (f : Fleet σ δ) (events : List (FleetEvent δ)) :
    f.handed ⊆ (Run.exec (step codec) f events).handed := by
  induction events generalizing f with
  | nil => exact List.Subset.refl _
  | cons e events ih => exact List.Subset.trans (List.subset_append_left _ _) (ih (f.step codec e))

/-! ### Rounds as events of the cluster -/

omit [StorageEngine σ] in
/-- The node of the driver after the event. -/
theorem node_handle (codec : Codec) (f : Fleet σ δ) (e : FleetEvent δ) :
    ((f.drivers e.node).handle codec e.event).1.node = (f.afterInput codec e).nodes e.node := by
  obtain ⟨i, event⟩ := e
  match event with
  | .tick => exact (Cluster.nodes_setNode_self f.core i _).symm
  | .inbound sender message => exact (Cluster.nodes_setNode_self f.core i _).symm
  | .request (.peer sender message) => exact (Cluster.nodes_setNode_self f.core i _).symm
  | .request (.propose command done) =>
    exact ((f.drivers i).node_handle_propose codec command done).trans
      (Cluster.nodes_setNode_self f.core i _).symm
  | .request .status => rfl

omit [StorageEngine σ] in
/-- It is the driver that drains its node, not the event. -/
theorem coreInput_ne_takeReady {input : Event} (h : coreInput codec e.node e.event = some input)
    (i : NodeId) (data : List KeyValue) : input ≠ .takeReady i data := by
  obtain ⟨i, event⟩ := e
  rintro rfl
  match event with
  | .tick | .inbound _ _ | .request (.peer _ _) | .request (.propose _ _) | .request .status =>
    cases h

omit [StorageEngine σ] in
/-- The other nodes are not touched by the event. -/
theorem nodes_afterInput_of_ne {j : NodeId} (hne : j ≠ e.node) :
    (f.afterInput codec e).nodes j = (f.drivers j).node := by
  obtain ⟨i, event⟩ := e
  match event with
  | .tick => exact Cluster.nodes_setNode_of_ne f.core _ hne
  | .inbound sender message => exact Cluster.nodes_setNode_of_ne f.core _ hne
  | .request (.peer sender message) => exact Cluster.nodes_setNode_of_ne f.core _ hne
  | .request (.propose command done) => exact Cluster.nodes_setNode_of_ne f.core _ hne
  | .request .status => rfl

omit [StorageEngine σ] in
/-- An event changes nothing of what was sent or handed out. -/
theorem histories_afterInput (codec : Codec) (f : Fleet σ δ) (e : FleetEvent δ) :
    (f.afterInput codec e).sent = f.sent ∧ (f.afterInput codec e).handed = f.handed := by
  obtain ⟨i, event⟩ := e
  match event with
  | .tick | .inbound _ _ | .request (.peer _ _) | .request (.propose _ _) | .request .status =>
    exact ⟨rfl, rfl⟩

/-- **A round of a driver is two events of the cluster.** -/
theorem core_step (codec : Codec) (f : Fleet σ δ) (e : FleetEvent δ) :
    (f.step codec e).core = (f.afterInput codec e).step
      (.takeReady e.node (snapshot (f.drivers e.node).storage)) := by
  have hnode := f.node_handle codec e
  obtain ⟨hsent, hhanded⟩ := f.histories_afterInput codec e
  have hnodes : (f.step codec e).core.nodes = Function.update (f.afterInput codec e).nodes e.node
      ((f.afterInput codec e).nodes e.node).takeReady := by
    funext j
    rcases eq_or_ne j e.node with rfl | hne
    · show ((f.step codec e).drivers e.node).node = _
      rw [drivers_step_self, Function.update_self, ← hnode, Driver.node_next]
    · show ((f.step codec e).drivers j).node = _
      rw [drivers_step_of_ne codec f hne, Function.update_of_ne hne, nodes_afterInput_of_ne hne]
  have hmessages : (f.step codec e).sent = (f.afterInput codec e).sent ++
      ((f.afterInput codec e).nodes e.node).ready.messages.map fun env =>
        ⟨e.node, env.dst, env.message.fillSnapshot (snapshot (f.drivers e.node).storage)⟩ := by
    rw [hsent, ← hnode, ← Driver.storage_handle codec (f.drivers e.node) e.event]
    simp only [step, Driver.step, Driver.processReady, List.map_map]
    rfl
  have hcommitted : (f.step codec e).handed = (f.afterInput codec e).handed ++
      ((f.afterInput codec e).nodes e.node).ready.committed.map fun item => (e.node, item) := by
    rw [hhanded, ← hnode]
    rfl
  simp only [Cluster.step]
  rw [← hnodes, ← hmessages, ← hcommitted]
  rfl

/-- The store after a round is the one before it with what was handed out applied to it. -/
theorem storage_step (f : Fleet σ δ) (e : FleetEvent δ) :
    ((f.drivers e.node).step codec e.event).1.storage =
      ((f.afterInput codec e).nodes e.node).ready.committed.foldl (Committed.applyTo codec)
        (f.drivers e.node).storage := by
  rw [← f.node_handle codec e]
  exact Driver.storage_next codec _ _

/-- A snapshot that was sent in time has the position and the contents of the store. -/
theorem mem_sent_step (hfills : FillsInTime codec f e) {src dst : NodeId} {m : InstallSnapshot}
    (h : ⟨src, dst, .installSnapshot m⟩ ∈ (f.step codec e).sent) :
    ⟨src, dst, .installSnapshot m⟩ ∈ f.sent ∨
      m.lastIncludedIndex = (f.drivers e.node).node.lastApplied ∧
        m.data = snapshot (f.drivers e.node).storage := by
  replace h : ⟨src, dst, .installSnapshot m⟩ ∈ (f.step codec e).core.sent := h
  rw [core_step] at h
  rcases List.mem_append.mp h with hold | hnew
  · rw [(f.histories_afterInput codec e).1] at hold
    exact Or.inl hold
  · obtain ⟨env, henv, hpacket⟩ := List.mem_map.mp hnew
    obtain ⟨-, -, hmessage⟩ := Packet.mk.inj hpacket
    rw [RaftNode.messages_ready] at henv
    have hposition := hfills env henv
    cases hcase : env.message with
    | installSnapshot m' =>
      -- the driver fills in the contents of the store as they are before the apply loop
      rw [hcase] at hmessage hposition
      obtain rfl := Message.installSnapshot.inj hmessage
      exact Or.inr ⟨hposition, rfl⟩
    | _ =>
      rw [hcase] at hmessage
      cases hmessage

/-! ### Stores that agree -/

variable {S : Setup} {contents₀ : Contents} {a : State NodeId LogEntry}

/-- The cores refine the abstract log, every store has the contents that belong to its last applied
index, and so has every snapshot on its way. -/
structure Agreed (codec : Codec) (contents₀ : Contents) (S : Setup) (f : Fleet σ δ)
    (a : State NodeId LogEntry) : Prop where
  refines : Cluster.Refines Cluster.strictChecks S f.core a
  drained : ∀ i, (f.drivers i).node.committed = []
  stored : Cluster.Stored codec contents₀ S f.core a fun i => (f.drivers i).storage
  dated : ∀ src dst m, ⟨src, dst, .installSnapshot m⟩ ∈ f.sent →
    Cluster.Dated σ codec contents₀ S a m

/-- The store of a member has the contents for its last applied index. -/
theorem Agreed.settledAt (h : Agreed codec contents₀ S f a) {i : NodeId} (hi : i ∈ S.members) :
    Cluster.SettledAt codec contents₀ S a (f.drivers i).node.lastApplied
      (get (f.drivers i).storage) := by
  have hstored := h.stored i hi
  have hempty : (f.core.nodes i).committed = [] := h.drained i
  rw [hempty] at hstored
  exact hstored

/-- The same in the middle of the round `e`, when its event has been handled, with the abstract log
gone on from `a` to `a'`. -/
structure Midway (codec : Codec) (contents₀ : Contents) (S : Setup) (f : Fleet σ δ)
    (e : FleetEvent δ) (a a' : State NodeId LogEntry) : Prop where
  grows : Grows a a'
  refines : Cluster.Refines Cluster.strictChecks S (f.afterInput codec e) a'
  stored : Cluster.Stored codec contents₀ S (f.afterInput codec e) a'
    fun i => (f.drivers i).storage

/-- The first half of a round: the event. -/
theorem Agreed.input [LawfulStorageEngine σ] (h : Agreed codec contents₀ S f a)
    (henabled : Enabled codec S f e) (hfollows : CoreFollows codec f e) :
    ∃ a', Midway codec contents₀ S f e a a' := by
  cases hinput : coreInput codec e.node e.event with
  | none =>
    have hcore : f.afterInput codec e = f.core := by simp only [afterInput, hinput]
    exact ⟨a, Grows.refl a, hcore ▸ h.refines, hcore ▸ h.stored⟩
  | some input =>
    have hcore : f.afterInput codec e = f.core.step input := by simp only [afterInput, hinput]
    have hen := henabled.2 input hinput
    obtain ⟨a', ha'⟩ := h.refines.step Cluster.admits_strictChecks
      (Cluster.ensures_followsProtocol _ _ _ ⟨hen, hfollows input hinput⟩ h.refines)
    have hg : Grows a a' := Steps.grows ha'.steps h.refines.consistent
    refine ⟨a', hg, hcore ▸ ha'.refines,
      hcore ▸ h.stored.input hg (coreInput_ne_takeReady hinput) ?_⟩
    unfold Cluster.OnInstall
    split
    · exact fun _ => (h.dated _ _ _ hen.2).mono hg
    · trivial

/-- **The second half of a round** keeps the stores in agreement. -/
theorem Midway.agreed [LawfulStorageEngine σ] {a' : State NodeId LogEntry}
    (hmid : Midway codec contents₀ S f e a a') (h : Agreed codec contents₀ S f a)
    (henabled : Enabled codec S f e) (hfills : FillsInTime codec f e) :
    Agreed codec contents₀ S (f.step codec e) a' := by
  obtain ⟨hg, href, hstored⟩ := hmid
  have hcore := f.core_step codec e
  refine ⟨?_, fun i => ?_, ?_, fun src dst m hmem => ?_⟩
  · rw [hcore]
    exact href.takeReady Cluster.admits_strictChecks henabled.1 _
  · rcases eq_or_ne i e.node with rfl | hne
    · rw [drivers_step_self, Driver.node_next]
      rfl
    · rw [drivers_step_of_ne codec f hne]
      exact h.drained i
  · rw [hcore]
    have hengines : (fun i => ((f.step codec e).drivers i).storage) =
        Function.update (fun i => (f.drivers i).storage) e.node
          (((f.afterInput codec e).nodes e.node).ready.committed.foldl (Committed.applyTo codec)
            (f.drivers e.node).storage) := by
      funext j
      rcases eq_or_ne j e.node with rfl | hne
      · rw [drivers_step_self, Function.update_self]
        exact f.storage_step e
      · rw [drivers_step_of_ne codec f hne, Function.update_of_ne hne]
    rw [hengines]
    exact hstored.takeReady href trivial henabled.1 _
  · rcases mem_sent_step hfills hmem with hold | ⟨hposition, hdata⟩
    · exact (h.dated src dst m hold).mono hg
    · -- a new snapshot has the contents of the store, which are those for its position
      exact ⟨_, hdata, hposition ▸ (h.settledAt henabled.1).mono hg⟩

theorem agreed_init (storage : σ) :
    Agreed codec (get storage) S (init S storage : Fleet σ δ) State.init where
  refines := Cluster.refines_init
  drained _ := rfl
  stored _ _ := ⟨0, [], settled_nil, rfl, rfl⟩
  dated _ _ _ hmem := by cases hmem

variable (codec)

/-- The drivers after the rounds `events`. -/
def after (S : Setup) (storage : σ) (events : List (FleetEvent δ)) : Fleet σ δ :=
  Run.exec (step codec) (init S storage) events

/-- A run of the drivers all of whose rounds satisfy `cond` where they take place. -/
def IsRun (S : Setup) (cond : Fleet σ δ → FleetEvent δ → Prop) (storage : σ)
    (events : List (FleetEvent δ)) : Prop :=
  Run.Guarded (step codec) (fun f e => Enabled codec S f e ∧ cond f e) (init S storage) events

instance decidableIsRun (S : Setup) (cond : Fleet σ δ → FleetEvent δ → Prop)
    [∀ f e, Decidable (cond f e)] (storage : σ) (events : List (FleetEvent δ)) :
    Decidable (IsRun codec S cond storage events) :=
  inferInstanceAs (Decidable (Run.Guarded _ _ _ _))

theorem after_concat (S : Setup) (storage : σ) (events : List (FleetEvent δ))
    (e : FleetEvent δ) :
    after codec S storage (events ++ [e]) = (after codec S storage events).step codec e :=
  Run.exec_append _ _ _

/-- At every moment between two rounds, the stores of any two nodes with the same last applied index
have the same contents. -/
def ReplicasAgree (S : Setup) (storage : σ) (events : List (FleetEvent δ)) : Prop :=
  ∀ before, before <+: events → ∀ i ∈ S.members, ∀ j ∈ S.members,
    ((after codec S storage before).drivers i).node.lastApplied =
      ((after codec S storage before).drivers j).node.lastApplied →
    get ((after codec S storage before).drivers i).storage =
      get ((after codec S storage before).drivers j).storage

/-- The round follows the protocol, and sends snapshots only of the position that the store is
in. -/
def InTime (f : Fleet σ δ) (e : FleetEvent δ) : Prop :=
  CoreFollows codec f e ∧ FillsInTime codec f e

omit [StorageEngine σ] in
instance decidableInTime (f : Fleet σ δ) (e : FleetEvent δ) : Decidable (InTime codec f e) :=
  inferInstanceAs (Decidable (_ ∧ _))

variable {codec} {storage : σ} {events : List (FleetEvent δ)}

/-- **Replica stores agree** in every run that follows the protocol and sends snapshots only of the
position that the store is in. -/
theorem replicasAgree_of_inTime [LawfulStorageEngine σ]
    (h : IsRun codec S (InTime codec) storage events) : ReplicasAgree codec S storage events := by
  intro before hp i hi j hj hsame
  have hround : ∀ f e, Enabled codec S f e ∧ InTime codec f e →
      (∃ a, Agreed codec (get storage) S f a) →
      ∃ a, Agreed codec (get storage) S (f.step codec e : Fleet σ δ) a := by
    rintro f e ⟨henabled, hfollows, hfills⟩ ⟨a, ha⟩
    obtain ⟨a', hmid⟩ := ha.input henabled hfollows
    exact ⟨a', hmid.agreed ha henabled hfills⟩
  obtain ⟨a, ha⟩ : ∃ a, Agreed codec (get storage) S (after codec S storage before) a :=
    Run.Guarded.invariant hround (Run.Guarded.of_isPrefix h hp) ⟨State.init, agreed_init storage⟩
  have hat := ha.settledAt hj
  rw [← hsame] at hat
  exact (ha.settledAt hi).unique hat (ha.refines.complete trivial) ha.refines.consistent

/-- Three nodes as `run` creates them, except that a log is compacted after two entries. -/
def threeDrivers : Setup :=
  Setup.ofNames ["n1", "n2", "n3"] nodup_threeNames { raftCfg with snapshotThreshold := 2 }
    fun _ => ⟨fun _ => 0⟩

/-- The bytes of the write of a value to the key `k`. -/
def bytes (value : UInt8) : List UInt8 :=
  Codec.tagged.encode (.set "k" [value])

/-- A client writes a value to the key `k`. -/
def writes (i : NodeId) (value : UInt8) : FleetEvent Unit :=
  ⟨i, .request (.propose (.set "k" [value]) ())⟩

/-- A driver receives a message. -/
def receives (i sender : NodeId) (message : Message) : FleetEvent Unit :=
  ⟨i, .inbound sender message⟩

/-- Node `n1` is elected by `n2`. -/
def firstElected : List (FleetEvent Unit) :=
  List.replicate 6 ⟨"n1", .tick⟩ ++
    [receives "n2" "n1" (.requestVote ⟨1, "n1", 0, 0⟩),
      receives "n1" "n2" (.requestVoteReply ⟨1, "n2", true⟩)]

/-- Node `n1` is elected; three writes go to `n1` and `n2`, which have both compacted the first two
when the third is committed by `n1`. -/
def threeWrites : List (FleetEvent Unit) :=
  List.replicate 6 ⟨"n1", .tick⟩ ++
    [receives "n2" "n1" (.requestVote ⟨1, "n1", 0, 0⟩),
      receives "n1" "n2" (.requestVoteReply ⟨1, "n2", true⟩),
      writes "n1" 1,
      receives "n2" "n1" (.appendEntries ⟨1, "n1", 0, 0, [⟨1, bytes 1⟩], 0⟩),
      receives "n1" "n2" (.appendEntriesReply ⟨1, "n2", true, 1, 0⟩),
      writes "n1" 2,
      receives "n2" "n1" (.appendEntries ⟨1, "n1", 1, 1, [⟨1, bytes 2⟩], 1⟩),
      receives "n1" "n2" (.appendEntriesReply ⟨1, "n2", true, 2, 0⟩),
      writes "n1" 3,
      receives "n2" "n1" (.appendEntries ⟨1, "n1", 2, 1, [⟨1, bytes 3⟩], 2⟩),
      receives "n1" "n2" (.appendEntriesReply ⟨1, "n2", true, 3, 0⟩)]

/-- The snapshot that was sent with the third write reaches `n3`. -/
def timelyData : List (FleetEvent Unit) :=
  threeWrites ++ [receives "n3" "n1" (.installSnapshot ⟨1, "n1", 2, 1, [("k", [2])]⟩)]

theorem replicasAgree_timelyData :
    IsRun Codec.tagged threeDrivers (InTime Codec.tagged) MemoryEngine.new timelyData ∧
      ((after Codec.tagged threeDrivers MemoryEngine.new timelyData).drivers
        "n2").node.lastApplied = 2 ∧
      ((after Codec.tagged threeDrivers MemoryEngine.new timelyData).drivers
        "n3").node.lastApplied = 2 ∧
      ReplicasAgree Codec.tagged threeDrivers MemoryEngine.new timelyData :=
  ⟨by decide +kernel, by decide +kernel, by decide +kernel,
    replicasAgree_of_inTime (by decide +kernel)⟩

/-- The snapshot that goes with the next heartbeat has the third write in its data, but not in its
label. -/
def newerData : List (FleetEvent Unit) :=
  threeWrites ++
    [⟨"n1", .tick⟩, ⟨"n1", .tick⟩,
      receives "n3" "n1" (.installSnapshot ⟨1, "n1", 2, 1, [("k", [3])]⟩)]

/-- Two nodes with the same last applied index have different values for a key. -/
theorem not_replicasAgree_newerData :
    IsRun Codec.tagged threeDrivers (CoreFollows Codec.tagged) MemoryEngine.new newerData ∧
      ¬ReplicasAgree Codec.tagged threeDrivers MemoryEngine.new newerData := by
  refine ⟨by decide +kernel, fun h => ?_⟩
  have hsame := h newerData List.prefix_rfl "n2" (by decide) "n3" (by decide) (by decide +kernel)
  exact absurd (congrFun hsame "k") (by decide +kernel)

end Fleet

end Ferrium
