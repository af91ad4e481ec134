import Ferrium.Net.Requests
import Ferrium.Raft.Office
import Ferrium.Server.Answers
import Ferrium.Server.Service
import Ferrium.Server.Solo

/-!
# A node without peers, as its clients see it

What the clients of a node without peers are told is what a sequential store would tell them, in the
order in which their requests take effect. The `SeqStore` knows nothing of bytes, channels, tasks
and logs. It takes one write after the other; a write is a sequence of calls to the engine, and a
GET may come between two of them, so that a DEL of several keys is not atomic. Everything else that
a client may ask is answered at one moment, from the state of that moment.

## Main results

* `Service.Sim.step`: a step of one of the tasks is a path of the sequential store;
* `Service.linearizable`: in every run, the clients are answered by the sequential store, each of
  them in the order of its requests, and nobody waits that is not going to be answered.
-/

namespace Ferrium

open StorageEngine

variable {σ κ : Type*}

/-! ### The sequential store -/

/-- The write that a frame asks for. -/
def ServiceConfig.writeOf (cfg : ServiceConfig) (frame : Frame) : Option WriteCommand :=
  match Command.fromFrame cfg.format frame with
  | .ok request => request.write
  | .error _ => none

/-- A store with one writer, which accepts writes from the moment on at which it is elected. -/
structure SeqStore (σ κ : Type*) where
  leader : Bool
  store : σ
  /-- The number of writes that have been accepted. -/
  writes : ℕ
  /-- The write that is going on, with who has asked for it and the calls that are left. -/
  current : Option (κ × WriteCommand × List EngineCall)

namespace SeqStore

/-- The store before the election. -/
def init (store : σ) : SeqStore σ κ where
  leader := false
  store
  writes := 0
  current := none

/-- The only node has been elected once, if at all, and all writes are committed. -/
def status (id : NodeId) (self : SeqStore σ κ) : ClusterStatus where
  id
  role := if self.leader then "leader" else "follower"
  term := if self.leader then 1 else 0
  leader := if self.leader then some id else none
  commitIndex := self.writes
  clusterSize := 1

/-- What a request finds. -/
def handle (members : List (String × String)) (id : NodeId) (self : SeqStore σ κ) : Handle σ where
  storage := self.store
  members
  propose _ := if self.leader then .committed else .notLeader none
  status := some (self.status id)

/-- What may happen. In every case the reply to a frame is that of the state at hand. -/
inductive Step [StorageEngine σ] (cfg : ServiceConfig) (id : NodeId) :
    SeqStore σ κ → Effect κ → SeqStore σ κ → Prop
  | elected {a : SeqStore σ κ} (not_leader : a.leader = false) :
    Step cfg id a .elected { a with leader := true }
  | accepted {a : SeqStore σ κ} {k : κ} {command : WriteCommand} (leader : a.leader = true)
      (idle : a.current = none) :
    Step cfg id a (.accepted k command)
      { a with writes := a.writes + 1, current := some (k, command, command.calls) }
  | call {a : SeqStore σ κ} {k : κ} {command : WriteCommand} {call : EngineCall}
      {calls : List EngineCall} (busy : a.current = some (k, command, call :: calls)) :
    Step cfg id a (.call call)
      { a with store := call.apply a.store, current := some (k, command, calls) }
  /-- The write is over, and who has asked for it is told. -/
  | finished {a : SeqStore σ κ} {k : κ} {frame : Frame} {command : WriteCommand}
      (done : a.current = some (k, command, [])) (asked : cfg.writeOf frame = some command) :
    Step cfg id a (.replied k frame (reply cfg.format (a.handle cfg.members id) frame))
      { a with current := none }
  | refused {a : SeqStore σ κ} {k : κ} {frame : Frame} {command : WriteCommand}
      (not_leader : a.leader = false) (asked : cfg.writeOf frame = some command) :
    Step cfg id a (.replied k frame (reply cfg.format (a.handle cfg.members id) frame)) a
  /-- A request that changes nothing, or that cannot be understood. -/
  | answered {a : SeqStore σ κ} {k : κ} {frame : Frame} (no_write : cfg.writeOf frame = none) :
    Step cfg id a (.replied k frame (reply cfg.format (a.handle cfg.members id) frame)) a

end SeqStore

/-! ### What a reply depends on -/

section Dispatch

variable [StorageEngine σ] {cfg : ServiceConfig} {request : Command}

/-- A request that the driver is not asked about depends on the store and the members. -/
theorem dispatch_of_asks_none {k : κ} (h : request.asks k = none) {handle handle' : Handle σ}
    (hstorage : handle.storage = handle'.storage) (hmembers : handle.members = handle'.members) :
    dispatch handle request = dispatch handle' request := by
  cases request with
  | ping payload => cases payload <;> rfl
  | get key => simp only [dispatch, hstorage]
  | clusterMembers => simp only [dispatch, hmembers]
  | command => rfl
  | set key value => cases h
  | del keys => cases h
  | clusterStatus => cases h

/-- A write depends on the outcome. -/
theorem dispatch_of_write {command : WriteCommand} (h : request.write = some command)
    {handle handle' : Handle σ} (hpropose : handle.propose command = handle'.propose command) :
    dispatch handle request = dispatch handle' request := by
  cases request with
  | set key value =>
    obtain rfl := Option.some.inj h
    simp only [dispatch, hpropose]
  | del keys =>
    obtain rfl := Option.some.inj h
    simp only [dispatch, hpropose]
  | ping payload => cases h
  | get key => cases h
  | clusterStatus => cases h
  | clusterMembers => cases h
  | command => cases h

theorem write_eq_none_of_asks {k : κ} (h : request.asks k = none) : request.write = none := by
  cases request <;> first | rfl | cases h

/-- What the driver is asked for: a write, or the status. -/
theorem asks_cases {k : κ} {msg : DriverMsg κ} (h : request.asks k = some msg) :
    (∃ command, request.write = some command ∧ msg = .propose command k) ∨
      request = .clusterStatus ∧ msg = .status := by
  cases request with
  | set key value => exact Or.inl ⟨_, rfl, (Option.some.inj h).symm⟩
  | del keys => exact Or.inl ⟨_, rfl, (Option.some.inj h).symm⟩
  | clusterStatus => exact Or.inr ⟨rfl, (Option.some.inj h).symm⟩
  | ping payload => cases h
  | get key => cases h
  | clusterMembers => cases h
  | command => cases h

variable {frame : Frame}

theorem reply_of_ok (h : Command.fromFrame cfg.format frame = .ok request) (handle : Handle σ) :
    reply cfg.format handle frame = dispatch handle request := by
  simp only [reply, h]

theorem writeOf_of_ok (h : Command.fromFrame cfg.format frame = .ok request) :
    cfg.writeOf frame = request.write := by
  simp only [ServiceConfig.writeOf, h]

end Dispatch

/-! ### The driver without peers -/

/-- A tick lets a node without peers alone, or makes it the leader of the next term. -/
theorem RaftNode.tick_of_peers_eq_nil {n : RaftNode} (h : n.peers = []) :
    (n.tick.role = n.role ∧ n.tick.currentTerm = n.currentTerm ∧ n.tick.leaderId = n.leaderId) ∨
      (n.role ≠ .leader ∧ n.tick.role = .leader ∧ n.tick.currentTerm = n.currentTerm + 1 ∧
        n.tick.leaderId = some n.id) := by
  rcases n.tick_cases with ⟨-, heq⟩ | ⟨-, -, heq⟩ | ⟨-, heq⟩ | ⟨hrole, heq⟩
  · exact Or.inl (by rw [heq]; exact ⟨rfl, rfl, rfl⟩)
  · exact Or.inl (by rw [heq, broadcastAppend_eq]; exact ⟨rfl, rfl, rfl⟩)
  · exact Or.inl (by rw [heq]; exact ⟨rfl, rfl, rfl⟩)
  · -- its own vote is a majority
    have hmajority : { n with electionElapsed := n.electionElapsed + 1 }.standForElection.majority ≤
        { n with electionElapsed := n.electionElapsed + 1 }.standForElection.votes.count :=
      (majority_of_peers_eq_nil h).le
    obtain ⟨hoffice, hleader⟩ := becomeLeader_office
      { n with electionElapsed := n.electionElapsed + 1 }.standForElection
    rw [heq]
    unfold becomeCandidate
    dsimp only
    rw [if_pos hmajority]
    exact Or.inr ⟨hrole, hoffice, currentTerm_becomeLeader _, hleader⟩

theorem RaftNode.propose_of_leader_office {n : RaftNode} (h : n.role = .leader)
    (command : List UInt8) :
    (n.propose command).2.role = .leader ∧ (n.propose command).2.currentTerm = n.currentTerm ∧
      (n.propose command).2.leaderId = n.leaderId := by
  unfold propose
  rw [if_neg (not_not.mpr h)]
  dsimp only
  rw [advanceCommit_eq, broadcastAppend_eq]
  exact ⟨h, rfl, rfl⟩

namespace Driver

variable {id : NodeId} {d d' : Driver σ κ} {leader : Bool}

/-- The node is called `id`, and is the leader of the first term, or waits to become it. -/
structure InOffice (id : NodeId) (leader : Bool) (d : Driver σ κ) : Prop where
  id_eq : d.node.id = id
  role_eq : d.node.role = if leader then .leader else .follower
  term_eq : d.node.currentTerm = if leader then 1 else 0
  leader_eq : d.node.leaderId = if leader then some id else none

theorem InOffice.role_iff (h : d.InOffice id leader) :
    d.node.role = .leader ↔ leader = true := by
  rw [h.role_eq]
  cases leader <;> simp

/-- The office depends on these four only. -/
theorem InOffice.of_eq (h : d.InOffice id leader) (hid : d'.node.id = d.node.id)
    (hrole : d'.node.role = d.node.role) (hterm : d'.node.currentTerm = d.node.currentTerm)
    (hleader : d'.node.leaderId = d.node.leaderId) : d'.InOffice id leader where
  id_eq := hid.trans h.id_eq
  role_eq := hrole.trans h.role_eq
  term_eq := hterm.trans h.term_eq
  leader_eq := hleader.trans h.leader_eq

variable [StorageEngine σ] {codec : Codec} {engine : σ} {acked : List WriteCommand}

omit [StorageEngine σ] in
/-- The status is that of the sequential store. -/
theorem InOffice.status_eq (h : d.InOffice id leader) {a : SeqStore σ κ}
    (hleader : a.leader = leader) (hpeers : d.node.peers = [])
    (hcommit : d.node.commitIndex = a.writes) :
    d.status = a.status id := by
  unfold status SeqStore.status
  rw [h.id_eq, h.role_eq, h.term_eq, h.leader_eq, hleader, hcommit, RaftNode.clusterSize, hpeers]
  cases leader <;> rfl

/-- The office after a tick: the same, or the node is elected. -/
theorem InOffice.tick (h : d.InOffice id leader) (codec : Codec) (hpeers : d.node.peers = []) :
    (d.next codec .tick).InOffice id leader ∨
      leader = false ∧ (d.next codec .tick).InOffice id true := by
  have hnode : (d.next codec .tick).node = d.node.tick.takeReady := node_next codec d .tick
  have hid : d.node.tick.id = d.node.id :=
    (RaftNode.electionStep_tick d.node).sameIdentity.id_eq
  rw [RaftNode.takeReady_eq] at hnode
  rcases RaftNode.tick_of_peers_eq_nil hpeers with
    ⟨hrole, hterm, hleader⟩ | ⟨hrole, hrole', hterm, hleader⟩
  · left
    refine h.of_eq ?_ ?_ ?_ ?_ <;> rw [hnode]
    · exact hid
    · exact hrole
    · exact hterm
    · exact hleader
  · right
    obtain rfl : leader = false := by
      rw [← Bool.not_eq_true, ← h.role_iff]
      exact hrole
    refine ⟨rfl, ⟨?_, ?_, ?_, ?_⟩⟩ <;> rw [hnode]
    · exact hid.trans h.id_eq
    · exact hrole'
    · exact hterm.trans (congrArg (· + 1) h.term_eq)
    · exact hleader.trans (congrArg some h.id_eq)

/-- A request does not change the office. -/
theorem InOffice.request (h : d.InOffice id leader) (codec : Codec) {msg : DriverMsg κ}
    (hmsg : (∃ command k, msg = .propose command k) ∨ msg = .status) :
    (d.next codec (.request msg)).InOffice id leader := by
  have hnode := node_next codec d (.request msg)
  rw [RaftNode.takeReady_eq] at hnode
  rcases hmsg with ⟨command, k, rfl⟩ | rfl
  · rw [node_handle_propose] at hnode
    have hid := (RaftNode.electionStep_propose d.node (codec.encode command)).sameIdentity.id_eq
    by_cases hrole : d.node.role = .leader
    · obtain ⟨hrole', hterm, hleader⟩ :=
        RaftNode.propose_of_leader_office hrole (codec.encode command)
      refine h.of_eq ?_ ?_ ?_ ?_ <;> rw [hnode]
      · exact hid
      · exact hrole'.trans hrole.symm
      · exact hterm
      · exact hleader
    · rw [RaftNode.propose_of_ne_leader _ _ hrole] at hnode
      refine h.of_eq ?_ ?_ ?_ ?_ <;> rw [hnode]
  · refine h.of_eq ?_ ?_ ?_ ?_ <;> rw [hnode] <;> rfl

/-- A request for the status changes nothing. -/
theorem Alone.status (h : d.Alone engine acked) (codec : Codec) :
    (d.next codec (.request .status)).Alone engine acked ∧
      d.roundJobs codec (.request .status) = [] := by
  have hready : (d.handle codec (.request .status)).1.node.ready.committed = [] :=
    RaftNode.committed_ready_of_applied h.drained (h.applied.trans h.node.commitIndex_eq.symm)
  obtain ⟨hstate, hanswers⟩ := processReady_of_nil codec hready h.nobody
  constructor
  · show ((d.handle codec (.request .status)).1.processReady codec).1.Alone engine acked
    rw [hstate]
    exact ⟨h.node.takeReady.1, h.node.takeReady.2, rfl, h.nobody, h.storage⟩
  · exact (roundJobs_of_nil hready).trans (congrArg notices hanswers)

theorem Alone.roundJobs_tick (h : d.Alone engine acked) : d.roundJobs codec .tick = [] := by
  obtain ⟨-, hanswers, hhanded⟩ := h.tick codec
  exact (roundJobs_of_nil hhanded).trans (congrArg notices hanswers)

/-- A proposal that is refused. -/
theorem Alone.roundJobs_refuse (h : d.Alone engine acked) (hrole : d.node.role ≠ .leader)
    (command : WriteCommand) (k : κ) :
    d.roundJobs codec (.request (.propose command k)) =
      [.notify k (.outcome (.notLeader none))] := by
  obtain ⟨-, hanswers, hhanded⟩ := h.refuse codec hrole command k
  exact (roundJobs_of_nil hhanded).trans (congrArg notices hanswers)

/-- A proposal that is accepted is applied, and then answered. -/
theorem Alone.roundJobs_accept (h : d.Alone engine acked) (hcodec : codec.NonEmpty)
    (hrole : d.node.role = .leader) (command : WriteCommand) (k : κ) :
    d.roundJobs codec (.request (.propose command k)) =
      command.calls.map .call ++ [.notify k (.outcome .committed)] := by
  obtain ⟨-, hanswers, hhanded⟩ := h.accept codec hcodec hrole command k
  have hnow : (d.handle codec (.request (.propose command k))).2 = [] := by
    rw [List.eq_nil_iff_forall_not_mem]
    intro ans hans
    obtain ⟨_, -, hne, -⟩ := mem_answers_handle hans
    exact hne hrole
  have hcalls : Committed.calls codec (.command (acked.length + 1) (codec.encode command)) =
      command.calls := by
    rw [Committed.calls, codec.decode_encode]
    rfl
  refine (roundJobs_of_singleton hhanded hnow).trans ?_
  rw [hcalls]
  exact congrArg _ (congrArg notices hanswers)

end Driver

/-! ### The simulation -/

/-- The connection that a job is for. -/
def Job.addressee : Job κ → Option κ
  | .call _ => none
  | .notify k _ => some k

/-- The call to the engine that a job is. -/
def Job.engineCall : Job κ → Option EngineCall
  | .call made => some made
  | .notify _ _ => none

namespace Service

/-- Who is going to be answered by the driver, in this order. -/
def turns (self : Service σ κ) : List κ :=
  self.jobs.filterMap Job.addressee ++ self.channel.map Prod.fst

/-- The connection waits for the driver. -/
def Waits (self : Service σ κ) (k : κ) : Prop :=
  ∃ frame request, (self.conns k).phase = .waiting frame request

/-- What is left of the round of the driver, as the sequential store sees it: nothing, or an answer
to somebody who waits, possibly with calls to the engine before it. -/
inductive Agenda (id : NodeId) (conns : κ → ClientConn) (a : SeqStore σ κ) : List (Job κ) → Prop
  | idle (idle : a.current = none) : Agenda id conns a []
  | refusal {k : κ} {frame : Frame} {request : Command} {command : WriteCommand}
      (idle : a.current = none) (not_leader : a.leader = false)
      (waits : (conns k).phase = .waiting frame request) (asked : request.write = some command) :
    Agenda id conns a [.notify k (.outcome (.notLeader none))]
  | status {k : κ} {frame : Frame} (idle : a.current = none)
      (waits : (conns k).phase = .waiting frame .clusterStatus) :
    Agenda id conns a [.notify k (.status (a.status id))]
  | writing {k : κ} {frame : Frame} {request : Command} {command : WriteCommand}
      {calls : List EngineCall} (busy : a.current = some (k, command, calls))
      (leader : a.leader = true) (waits : (conns k).phase = .waiting frame request)
      (asked : request.write = some command) :
    Agenda id conns a (calls.map .call ++ [.notify k (.outcome .committed)])

/-- The tasks do what the sequential store does. -/
structure Sim [StorageEngine σ] (cfg : ServiceConfig) (id : NodeId) (engine : σ)
    (s : Service σ κ) (a : SeqStore σ κ) : Prop where
  alone : ∃ acked, s.driver.Alone engine acked ∧ acked.length = a.writes
  office : s.driver.InOffice id a.leader
  store_eq : s.store = a.store
  /-- When the round is over, the store is that of the driver. -/
  settles : (s.jobs.filterMap Job.engineCall).foldl EngineCall.apply s.store = s.driver.storage
  agenda : Agenda id s.conns a s.jobs
  /-- The requests in the channel are those that the connections wait for. -/
  asked : ∀ entry ∈ s.channel, ∃ frame request,
    (s.conns entry.1).phase = .waiting frame request ∧ request.asks entry.1 = some entry.2
  parsed : ∀ k frame request, (s.conns k).phase = .waiting frame request →
    Command.fromFrame cfg.format frame = .ok request
  /-- Nobody is going to be answered twice. -/
  nodup : s.turns.Nodup
  /-- Who waits is going to be answered, and nobody else. -/
  waits : ∀ k, k ∈ s.turns ↔ s.Waits k

variable {cfg : ServiceConfig} {id : NodeId} {engine : σ} {s s' : Service σ κ} {a a' : SeqStore σ κ}
variable {conns conns' : κ → ClientConn} {jobs : List (Job κ)}

/-- Only connections that wait matter to the driver. -/
theorem Agenda.congr (h : Agenda id conns a jobs)
    (hconns : ∀ k frame request, (conns k).phase = .waiting frame request →
      (conns' k).phase = .waiting frame request) : Agenda id conns' a jobs := by
  cases h with
  | idle idle => exact .idle idle
  | refusal idle not_leader waits asked =>
    exact .refusal idle not_leader (hconns _ _ _ waits) asked
  | status idle waits => exact .status idle (hconns _ _ _ waits)
  | writing busy leader waits asked => exact .writing busy leader (hconns _ _ _ waits) asked

theorem Agenda.current_of_nil (h : Agenda id conns a []) : a.current = none := by
  generalize hjobs : ([] : List (Job κ)) = jobs at h
  cases h with
  | idle idle => exact idle
  | refusal => cases hjobs
  | status => cases hjobs
  | writing => exact absurd hjobs.symm (List.append_ne_nil_of_right_ne_nil _ (List.cons_ne_nil _ _))

section Conns

variable [StorageEngine σ] [DecidableEq κ] {k : κ} {conn : ClientConn}

/-- A connection that does not wait takes a step and does not wait afterwards. -/
theorem Sim.setConn (h : Sim cfg id engine s a) (hold : ¬s.Waits k)
    (hnew : ∀ frame request, conn.phase ≠ .waiting frame request) :
    Sim cfg id engine (s.setConn k conn) a := by
  have hsame : ∀ j frame request, ((s.setConn k conn).conns j).phase = .waiting frame request ↔
      (s.conns j).phase = .waiting frame request := by
    intro j frame request
    rw [conns_setConn]
    split
    · next heq =>
      subst heq
      exact ⟨fun hw => absurd hw (hnew frame request), fun hw => absurd ⟨frame, request, hw⟩ hold⟩
    · rfl
  refine
    { alone := h.alone
      office := h.office
      store_eq := h.store_eq
      settles := h.settles
      agenda := h.agenda.congr fun j frame request => (hsame j frame request).mpr
      asked := fun entry hentry => ?_
      parsed := fun j frame request hw => h.parsed j frame request ((hsame j frame request).mp hw)
      nodup := h.nodup
      waits := fun j => (h.waits j).trans ?_ }
  · obtain ⟨frame, request, hw, hasks⟩ := h.asked entry hentry
    exact ⟨frame, request, (hsame _ _ _).mpr hw, hasks⟩
  · exact exists_congr fun frame => exists_congr fun request => (hsame j frame request).symm

/-- A connection asks the driver. -/
theorem Sim.ask (h : Sim cfg id engine s a) (hold : ¬s.Waits k) {frame : Frame} {request : Command}
    {msg : DriverMsg κ} (hframe : Command.fromFrame cfg.format frame = .ok request)
    (hasks : request.asks k = some msg) (hphase : conn.phase = .waiting frame request) :
    Sim cfg id engine ({ s with channel := s.channel ++ [(k, msg)] }.setConn k conn) a := by
  have hfresh : k ∉ s.turns := fun hmem => hold ((h.waits k).mp hmem)
  have hself : ((s.setConn k conn).conns k).phase = .waiting frame request := by
    rw [conns_setConn, if_pos rfl, hphase]
  have hother : ∀ j, j ≠ k → (s.setConn k conn).conns j = s.conns j := fun j hne => by
    rw [conns_setConn, if_neg hne]
  have hkept : ∀ j frame request, (s.conns j).phase = .waiting frame request →
      ((s.setConn k conn).conns j).phase = .waiting frame request := by
    intro j frame' request' hw
    rw [hother j fun heq => hold (heq ▸ ⟨frame', request', hw⟩)]
    exact hw
  have hturns : ({ s with channel := s.channel ++ [(k, msg)] }.setConn k conn).turns =
      s.turns ++ [k] := by
    simp [turns, Service.setConn]
  refine
    { alone := h.alone
      office := h.office
      store_eq := h.store_eq
      settles := h.settles
      agenda := h.agenda.congr hkept
      asked := fun entry hentry => ?_
      parsed := fun j frame' request' hw => ?_
      nodup := ?_
      waits := fun j => ?_ }
  · rcases List.mem_append.mp hentry with hin | hlast
    · obtain ⟨frame', request', hw, hasks'⟩ := h.asked entry hin
      exact ⟨frame', request', hkept _ _ _ hw, hasks'⟩
    · obtain rfl := List.mem_singleton.mp hlast
      exact ⟨frame, request, hself, hasks⟩
  · replace hw : ((s.setConn k conn).conns j).phase = .waiting frame' request' := hw
    rcases eq_or_ne j k with rfl | hne
    · rw [hself] at hw
      obtain ⟨rfl, rfl⟩ := Phase.waiting.inj hw
      exact hframe
    · rw [hother j hne] at hw
      exact h.parsed j frame' request' hw
  · rw [hturns, List.nodup_append]
    exact ⟨h.nodup, List.nodup_singleton k, fun j hj j' hj' heq =>
      hfresh (List.mem_singleton.mp hj' ▸ heq ▸ hj)⟩
  · rw [hturns, List.mem_append, List.mem_singleton]
    show _ ↔ ∃ frame request, ((s.setConn k conn).conns j).phase = .waiting frame request
    rcases eq_or_ne j k with rfl | hne
    · exact ⟨fun _ => ⟨frame, request, hself⟩, fun _ => Or.inr rfl⟩
    · rw [hother j hne]
      exact ⟨fun hj => (h.waits j).mp (hj.resolve_right hne), fun hw => Or.inl ((h.waits j).mpr hw)⟩

/-- The driver gives its last answer of a round. -/
theorem Sim.notified (h : Sim cfg id engine s a) {notice : Notice}
    (hjobs : s.jobs = [.notify k notice]) (hleader : a'.leader = a.leader)
    (hstore : a'.store = a.store) (hwrites : a'.writes = a.writes) (hidle : a'.current = none)
    (hnew : ∀ frame request, conn.phase ≠ .waiting frame request) :
    Sim cfg id engine ({ s with jobs := [] }.setConn k conn) a' := by
  have hturns : s.turns = k :: s.channel.map Prod.fst := by
    simp [turns, hjobs, Job.addressee]
  have hnodup := h.nodup
  rw [hturns, List.nodup_cons] at hnodup
  have hother : ∀ j, j ≠ k → (s.setConn k conn).conns j = s.conns j := fun j hne => by
    rw [conns_setConn, if_neg hne]
  have hself : ∀ frame request, ((s.setConn k conn).conns k).phase ≠ .waiting frame request := by
    intro frame request
    rw [conns_setConn, if_pos rfl]
    exact hnew frame request
  refine
    { alone := hwrites ▸ h.alone
      office := hleader ▸ h.office
      store_eq := h.store_eq.trans hstore.symm
      settles := ?_
      agenda := .idle hidle
      asked := fun entry hentry => ?_
      parsed := fun j frame request hw => ?_
      nodup := hnodup.2
      waits := fun j => ?_ }
  · have hsettles := h.settles
    rw [hjobs] at hsettles
    exact hsettles
  · -- the channel has no second request of the connection
    obtain ⟨frame, request, hw, hasks⟩ := h.asked entry hentry
    have hne : entry.1 ≠ k := fun heq => hnodup.1 (heq ▸ List.mem_map_of_mem hentry)
    exact ⟨frame, request, (congrArg ClientConn.phase (hother entry.1 hne)).trans hw, hasks⟩
  · replace hw : ((s.setConn k conn).conns j).phase = .waiting frame request := hw
    rcases eq_or_ne j k with rfl | hne
    · exact absurd hw (hself frame request)
    · rw [hother j hne] at hw
      exact h.parsed j frame request hw
  · show j ∈ s.channel.map Prod.fst ↔
      ∃ frame request, ((s.setConn k conn).conns j).phase = .waiting frame request
    rcases eq_or_ne j k with rfl | hne
    · exact ⟨fun hmem => absurd hmem hnodup.1, fun ⟨frame, request, hw⟩ =>
        absurd hw (hself frame request)⟩
    · rw [hother j hne]
      refine Iff.trans ?_ (h.waits j)
      rw [hturns, List.mem_cons]
      exact ⟨Or.inr, fun hmem => hmem.resolve_left hne⟩

end Conns

section Rounds

variable [StorageEngine σ] {d : Driver σ κ} {channel : List (κ × DriverMsg κ)}

/-- The driver starts a round, which answers nobody else than was to be answered. -/
theorem Sim.round (h : Sim cfg id engine s a) (hstore : a'.store = a.store)
    (halone : ∃ acked, d.Alone engine acked ∧ acked.length = a'.writes)
    (hoffice : d.InOffice id a'.leader)
    (hsettles : (jobs.filterMap Job.engineCall).foldl EngineCall.apply s.store = d.storage)
    (hagenda : Agenda id s.conns a' jobs)
    (hchannel : channel ⊆ s.channel)
    (hturns : jobs.filterMap Job.addressee ++ channel.map Prod.fst = s.turns) :
    Sim cfg id engine { s with driver := d, jobs, channel } a' where
  alone := halone
  office := hoffice
  store_eq := h.store_eq.trans hstore.symm
  settles := hsettles
  agenda := hagenda
  asked entry hentry := h.asked entry (hchannel hentry)
  parsed := h.parsed
  nodup := by
    show (jobs.filterMap Job.addressee ++ channel.map Prod.fst).Nodup
    rw [hturns]
    exact h.nodup
  waits k := by
    show k ∈ jobs.filterMap Job.addressee ++ channel.map Prod.fst ↔ _
    rw [hturns]
    exact h.waits k

omit [StorageEngine σ] in
theorem filterMap_addressee_calls (calls : List EngineCall) (k : κ) (notice : Notice) :
    (calls.map Job.call ++ [Job.notify k notice]).filterMap Job.addressee = [k] := by
  induction calls with
  | nil => rfl
  | cons call calls ih => exact ih

omit [StorageEngine σ] in
theorem filterMap_engineCall_calls (calls : List EngineCall) (k : κ) (notice : Notice) :
    (calls.map Job.call ++ [Job.notify k notice]).filterMap Job.engineCall = calls := by
  induction calls with
  | nil => rfl
  | cons call calls ih => exact congrArg (call :: ·) ih

/-- Between two rounds the store is that of the driver. -/
theorem Sim.store_of_nil (h : Sim cfg id engine s a) (hjobs : s.jobs = []) :
    s.store = s.driver.storage := by
  have hsettles := h.settles
  rw [hjobs] at hsettles
  exact hsettles

variable [DecidableEq κ]

/-- Time passes. -/
theorem Sim.tick (h : Sim cfg id engine s a) :
    ∃ a', Run.Path (SeqStore.Step cfg id) a (s.effects cfg .tick) a' ∧
      Sim cfg id engine (s.step cfg .tick) a' := by
  by_cases hjobs : s.jobs = []
  swap
  · -- the driver is busy
    have hbusy : s.jobs.isEmpty = false := by simpa using hjobs
    refine ⟨a, ?_, ?_⟩
    · rw [effects, if_neg (by simp [hbusy])]
      rfl
    · rw [step, if_neg (by simp [hbusy])]
      exact h
  have hempty : s.jobs.isEmpty = true := by rw [hjobs]; rfl
  obtain ⟨acked, halone, hlength⟩ := h.alone
  have hidle := Agenda.current_of_nil (hjobs ▸ h.agenda)
  have hnext : (s.driver.next cfg.codec .tick).Alone engine acked := (halone.tick cfg.codec).1
  have hstep : s.step cfg .tick =
      { s with driver := s.driver.next cfg.codec .tick, jobs := [], channel := s.channel } := by
    rw [step, if_pos hempty, startRound, halone.roundJobs_tick]
  have hturns : ([] : List (Job κ)).filterMap Job.addressee ++ s.channel.map Prod.fst =
      s.turns := by
    rw [turns, hjobs]
  have hrole := h.office.role_iff
  have hsettles : s.store = (s.driver.next cfg.codec .tick).storage := by
    rw [h.store_of_nil hjobs, halone.storage, hnext.storage]
  rw [hstep]
  rcases h.office.tick cfg.codec halone.node.peers_eq with hsame | ⟨hnot, helected⟩
  · refine ⟨a, ?_, h.round rfl ⟨acked, hnext, hlength⟩ hsame hsettles (.idle hidle)
      (List.Subset.refl _) hturns⟩
    rw [effects, if_neg fun hall => hall.2.1 (hrole.mpr (hsame.role_iff.mp hall.2.2))]
    rfl
  · have hleader : (s.driver.next cfg.codec .tick).node.role = .leader :=
      helected.role_iff.mpr rfl
    refine ⟨{ a with leader := true }, ?_,
      h.round rfl ⟨acked, hnext, hlength⟩ helected hsettles (.idle hidle) (List.Subset.refl _)
        hturns⟩
    have hnew : s.driver.node.role ≠ .leader := fun hold => by
      rw [hrole, hnot] at hold
      cases hold
    rw [effects, if_pos ⟨hempty, hnew, hleader⟩]
    exact ⟨_, .elected hnot, rfl⟩

/-- The driver takes a request. -/
theorem Sim.request (hcodec : cfg.codec.NonEmpty) (h : Sim cfg id engine s a) :
    ∃ a', Run.Path (SeqStore.Step cfg id) a (s.effects cfg .request) a' ∧
      Sim cfg id engine (s.step cfg .request) a' := by
  by_cases hjobs : s.jobs = []
  swap
  · have hbusy : s.jobs.isEmpty = false := by simpa using hjobs
    refine ⟨a, ?_, ?_⟩
    · have heffects : s.effects cfg .request = [] := by
        simp only [effects]
        split
        · next hnil _ => exact absurd hnil hjobs
        · rfl
      rw [heffects]
      rfl
    · rw [step, if_neg (by simp [hbusy])]
      exact h
  have hempty : s.jobs.isEmpty = true := by rw [hjobs]; rfl
  obtain ⟨acked, halone, hlength⟩ := h.alone
  have hidle := Agenda.current_of_nil (hjobs ▸ h.agenda)
  cases hchannel : s.channel with
  | nil =>
    refine ⟨a, ?_, ?_⟩
    · simp only [effects, hjobs, hchannel]
      rfl
    · simp only [step, hempty, if_true, takeRequest, hchannel]
      exact h
  | cons entry channel =>
    obtain ⟨k, msg⟩ := entry
    have hmem : (k, msg) ∈ s.channel := hchannel ▸ List.mem_cons_self
    have hsubset : channel ⊆ s.channel := hchannel ▸ List.subset_cons_self _ _
    have hturns : [k] ++ channel.map Prod.fst = s.turns := by
      rw [turns, hjobs, hchannel]
      rfl
    obtain ⟨frame, request, hphase, hasks⟩ : ∃ frame request,
        (s.conns k).phase = .waiting frame request ∧ request.asks k = some msg := h.asked _ hmem
    rcases asks_cases hasks with ⟨command, hwrite, rfl⟩ | ⟨rfl, rfl⟩
    · have hoffice := h.office.request cfg.codec (Or.inl ⟨command, k, rfl⟩)
      by_cases hrole : s.driver.node.role = .leader
      · -- the write starts
        have hleader := h.office.role_iff.mp hrole
        refine ⟨{ a with writes := a.writes + 1, current := some (k, command, command.calls) },
          ?_, ?_⟩
        · simp only [effects, hjobs, hchannel, if_pos hrole]
          exact ⟨_, .accepted hleader hidle, rfl⟩
        · simp only [step, hempty, if_true, takeRequest, hchannel, startRound,
            halone.roundJobs_accept hcodec hrole command k]
          have hnext := (halone.accept cfg.codec hcodec hrole command k).1
          refine h.round rfl ⟨_, hnext, ?_⟩ hoffice ?_ (.writing rfl hleader hphase hwrite) hsubset
            ?_
          · rw [List.length_append, hlength]
            rfl
          · rw [filterMap_engineCall_calls, WriteCommand.foldl_calls, h.store_of_nil hjobs,
              halone.storage]
            refine Eq.trans ?_ hnext.storage.symm
            rw [WriteCommand.applyList, WriteCommand.applyList, List.foldl_append]
            rfl
          · rw [filterMap_addressee_calls]
            exact hturns
      · have hleader : a.leader = false := by
          rw [← Bool.not_eq_true, ← h.office.role_iff]
          exact hrole
        refine ⟨a, ?_, ?_⟩
        · simp only [effects, hjobs, hchannel, if_neg hrole]
          rfl
        · simp only [step, hempty, if_true, takeRequest, hchannel, startRound,
            halone.roundJobs_refuse hrole command k]
          have hnext := (halone.refuse cfg.codec hrole command k).1
          exact h.round rfl ⟨_, hnext, hlength⟩ hoffice
            ((h.store_of_nil hjobs).trans (halone.storage.trans hnext.storage.symm))
            (.refusal hidle hleader hphase hwrite) hsubset hturns
    · have hoffice := h.office.request cfg.codec (Or.inr rfl)
      have hstatus : s.driver.status = a.status id :=
        h.office.status_eq rfl halone.node.peers_eq (halone.node.commitIndex_eq.trans hlength)
      refine ⟨a, ?_, ?_⟩
      · simp only [effects, hjobs, hchannel]
        rfl
      · simp only [step, hempty, if_true, takeRequest, hchannel, startRound,
          (halone.status cfg.codec).2, hstatus]
        have hnext := (halone.status cfg.codec).1
        exact h.round rfl ⟨_, hnext, hlength⟩ hoffice
          ((h.store_of_nil hjobs).trans (halone.storage.trans hnext.storage.symm))
          (.status hidle hphase) hsubset hturns

/-- The driver gives its last answer of a round, which is that of the sequential store. -/
theorem Sim.work_notify (h : Sim cfg id engine s a) {k : κ} {notice : Notice} {frame : Frame}
    {request : Command} (hjobs : s.jobs = [.notify k notice])
    (hwaits : (s.conns k).phase = .waiting frame request)
    (hreply : dispatch (cfg.notifiedHandle s.store notice) request =
      dispatch (a.handle cfg.members id) request)
    (hstep : SeqStore.Step cfg id a
      (.replied k frame (reply cfg.format (a.handle cfg.members id) frame))
      { a with current := none }) :
    ∃ a', Run.Path (SeqStore.Step cfg id) a (s.effects cfg .work) a' ∧
      Sim cfg id engine (s.step cfg .work) a' := by
  refine ⟨{ a with current := none }, ?_, ?_⟩
  · simp only [effects, hjobs, hwaits, hreply]
    rw [reply_of_ok (h.parsed k frame request hwaits)] at hstep
    exact ⟨_, hstep, rfl⟩
  · simp only [step, workOn, hjobs, Service.notified, hwaits]
    refine h.notified hjobs rfl rfl rfl rfl fun _ _ hphase => ?_
    cases hphase

/-- The driver goes on with its round. -/
theorem Sim.work (h : Sim cfg id engine s a) :
    ∃ a', Run.Path (SeqStore.Step cfg id) a (s.effects cfg .work) a' ∧
      Sim cfg id engine (s.step cfg .work) a' := by
  have hagenda := h.agenda
  generalize hjobs : s.jobs = jobs at hagenda
  cases hagenda with
  | idle idle =>
    refine ⟨a, ?_, ?_⟩
    · simp only [effects, hjobs]
      rfl
    · simp only [step, workOn, hjobs]
      exact h
  | @refusal k frame request command idle not_leader waits asked =>
    have hwrite := writeOf_of_ok (h.parsed k frame request waits)
    have hsame : { a with current := none } = a := by rw [← idle]
    refine h.work_notify hjobs waits (dispatch_of_write asked ?_) ?_
    · simp [ServiceConfig.notifiedHandle, SeqStore.handle, not_leader]
    · rw [hsame]
      exact .refused not_leader (hwrite.trans asked)
  | @status k frame idle waits =>
    have hwrite := writeOf_of_ok (h.parsed k frame _ waits)
    have hsame : { a with current := none } = a := by rw [← idle]
    refine h.work_notify hjobs waits rfl ?_
    rw [hsame]
    exact .answered hwrite
  | @writing k frame request command calls busy leader waits asked =>
    cases calls with
    | nil =>
      have hwrite := writeOf_of_ok (h.parsed k frame request waits)
      refine h.work_notify hjobs waits (dispatch_of_write asked ?_)
        (.finished busy (hwrite.trans asked))
      simp [ServiceConfig.notifiedHandle, SeqStore.handle, leader]
    | cons call calls =>
      -- the next call to the engine
      rw [List.map_cons, List.cons_append] at hjobs
      have hturns : (calls.map Job.call ++ [Job.notify k (.outcome .committed)]).filterMap
          Job.addressee ++ s.channel.map Prod.fst = s.turns := by
        rw [turns, hjobs]
        rfl
      refine ⟨{ a with store := call.apply a.store, current := some (k, command, calls) }, ?_, ?_⟩
      · simp only [effects, hjobs]
        exact ⟨_, .call busy, rfl⟩
      · simp only [step, workOn, hjobs]
        exact
          { alone := h.alone
            office := h.office
            store_eq := congrArg (EngineCall.apply · call) h.store_eq
            settles := by
              have hsettles := h.settles
              rw [hjobs] at hsettles
              exact hsettles
            agenda := .writing rfl leader waits asked
            asked := h.asked
            parsed := h.parsed
            nodup := (hturns ▸ h.nodup :)
            waits := fun j => (hturns ▸ h.waits j :) }

omit [StorageEngine σ] [DecidableEq κ] in
/-- A connection that does not wait. -/
theorem not_waits_of_phase {k : κ} {phase : Phase} (hphase : (s.conns k).phase = phase)
    (hnot : ∀ frame request, phase ≠ .waiting frame request) : ¬s.Waits k := by
  rintro ⟨frame, request, hw⟩
  exact hnot frame request (hphase.symm.trans hw)

/-- A connection takes a frame out of its buffer. -/
theorem Sim.serve (h : Sim cfg id engine s a) {k : κ} {frame : Frame} {rest : List UInt8}
    (hphase : (s.conns k).phase = .reading)
    (hdone : Frame.decode cfg.frameSize (s.conns k).buffer = .done frame rest) :
    ∃ a', Run.Path (SeqStore.Step cfg id) a (s.effects cfg (.serve k)) a' ∧
      Sim cfg id engine (s.step cfg (.serve k)) a' := by
  have hold : ¬s.Waits k := not_waits_of_phase hphase fun _ _ heq => by cases heq
  refine ⟨a, ?_⟩
  simp only [effects, step, hphase, hdone, dispatched]
  cases hframe : Command.fromFrame cfg.format frame with
  | error error =>
    have hreply : reply cfg.format (a.handle cfg.members id) frame =
        .error ("ERR " ++ error.clientMessage) := by
      simp only [reply, hframe]
    have hwrite : cfg.writeOf frame = none := by simp only [ServiceConfig.writeOf, hframe]
    refine ⟨⟨a, ?_, rfl⟩, h.setConn hold fun _ _ heq => by cases heq⟩
    rw [← hreply]
    exact .answered hwrite
  | ok request =>
    dsimp only
    cases hasks : request.asks k with
    | some msg => exact ⟨rfl, h.ask hold hframe hasks rfl⟩
    | none =>
      have hreply : reply cfg.format (a.handle cfg.members id) frame =
          dispatch (cfg.plainHandle s.store) request :=
        (reply_of_ok hframe _).trans (dispatch_of_asks_none hasks h.store_eq.symm rfl)
      have hwrite := (writeOf_of_ok hframe).trans (write_eq_none_of_asks hasks)
      refine ⟨⟨a, ?_, rfl⟩, h.setConn hold fun _ _ heq => by cases heq⟩
      rw [← hreply]
      exact .answered hwrite

/-- **A step of one of the tasks** is a path of the sequential store. -/
theorem Sim.step (hcodec : cfg.codec.NonEmpty) (h : Sim cfg id engine s a) (e : ServiceEvent κ) :
    ∃ a', Run.Path (SeqStore.Step cfg id) a (s.effects cfg e) a' ∧
      Sim cfg id engine (s.step cfg e) a' := by
  cases e with
  | tick => exact h.tick
  | request => exact h.request hcodec
  | work => exact h.work
  | read k chunk =>
    refine ⟨a, rfl, ?_⟩
    cases hphase : (s.conns k).phase with
    | reading =>
      have hold : ¬s.Waits k := not_waits_of_phase hphase fun _ _ heq => by cases heq
      cases hdecode : Frame.decode cfg.frameSize (s.conns k).buffer with
      | more =>
        simp only [Service.step, hphase, hdecode]
        split
        · exact h.setConn hold fun _ _ heq => by cases heq
        · exact h.setConn hold fun _ _ heq => by cases heq
      | _ =>
        simp only [Service.step, hphase, hdecode]
        exact h
    | _ =>
      simp only [Service.step, hphase]
      exact h
  | serve k =>
    cases hphase : (s.conns k).phase with
    | reading =>
      have hold : ¬s.Waits k := not_waits_of_phase hphase fun _ _ heq => by cases heq
      cases hdecode : Frame.decode cfg.frameSize (s.conns k).buffer with
      | done frame rest => exact h.serve hphase hdecode
      | more =>
        simp only [effects, Service.step, hphase, hdecode]
        exact ⟨a, rfl, h⟩
      | fail error =>
        simp only [effects, Service.step, hphase, hdecode]
        exact ⟨a, rfl, h.setConn hold fun _ _ heq => by cases heq⟩
    | _ =>
      simp only [effects, Service.step, hphase]
      exact ⟨a, rfl, h⟩
  | reply k broken =>
    refine ⟨a, rfl, ?_⟩
    cases hphase : (s.conns k).phase with
    | replying reply =>
      have hold : ¬s.Waits k := not_waits_of_phase hphase fun _ _ heq => by cases heq
      cases broken with
      | none =>
        simp only [Service.step, hphase]
        exact h.setConn hold fun _ _ heq => by cases heq
      | some n =>
        simp only [Service.step, hphase]
        exact h.setConn hold fun _ _ heq => by cases heq
    | _ =>
      simp only [Service.step, hphase]
      exact h

/-- A run is a path of the sequential store. -/
theorem Sim.run (hcodec : cfg.codec.NonEmpty) (h : Sim cfg id engine s a)
    (events : List (ServiceEvent κ)) :
    ∃ a', Run.Path (SeqStore.Step cfg id) a (s.history cfg events) a' ∧
      Sim cfg id engine (s.after cfg events) a' :=
  Run.path_outputs (Sim cfg id engine) (effects cfg) (fun _ e _ hs => hs.step hcodec e) events h

/-! ### Everybody can be answered -/

theorem work_pops (cfg : ServiceConfig) (s : Service σ κ) :
    (s.step cfg .work).jobs = s.jobs.tail ∧ (s.step cfg .work).channel = s.channel := by
  simp only [Service.step, workOn]
  split
  · next hjobs => exact ⟨by rw [hjobs]; rfl, rfl⟩
  · next hjobs => exact ⟨by rw [hjobs]; rfl, rfl⟩
  · next hjobs =>
    rw [hjobs]
    unfold Service.notified
    split <;> exact ⟨rfl, rfl⟩

theorem request_pops (cfg : ServiceConfig) (hjobs : s.jobs = []) :
    (s.step cfg .request).channel = s.channel.tail := by
  have hempty : s.jobs.isEmpty = true := by rw [hjobs]; rfl
  rw [Service.step, if_pos hempty, takeRequest]
  split
  · next hchannel => rw [hchannel]; rfl
  · next hchannel =>
    rw [hchannel]
    dsimp only
    split <;> rfl

/-- A step of the driver that does not depend on time. -/
def ofDriver : ServiceEvent κ → Prop
  | .request | .work => True
  | .tick | .read _ _ | .serve _ | .reply _ _ => False

/-- The driver can finish its round. -/
theorem exists_jobs_eq_nil (cfg : ServiceConfig) (s : Service σ κ) :
    ∃ events : List (ServiceEvent κ), (∀ e ∈ events, ofDriver e) ∧
      (s.after cfg events).jobs = [] ∧ (s.after cfg events).channel = s.channel := by
  generalize hjobs : s.jobs = jobs
  induction jobs generalizing s with
  | nil => exact ⟨[], fun e he => absurd he List.not_mem_nil, hjobs, rfl⟩
  | cons job jobs ih =>
    obtain ⟨htail, hchannel⟩ := s.work_pops cfg
    rw [hjobs] at htail
    obtain ⟨events, hevents, hend, hsame⟩ := ih (s.step cfg .work) htail
    exact ⟨.work :: events, List.forall_mem_cons.mpr ⟨trivial, hevents⟩, hend,
      hsame.trans hchannel⟩

/-- The driver can work off its channel. -/
theorem exists_turns_eq_nil (cfg : ServiceConfig) (s : Service σ κ) :
    ∃ events : List (ServiceEvent κ), (∀ e ∈ events, ofDriver e) ∧
      (s.after cfg events).turns = [] := by
  generalize hchannel : s.channel = channel
  induction channel generalizing s with
  | nil =>
    obtain ⟨events, hevents, hjobs, hsame⟩ := s.exists_jobs_eq_nil cfg
    refine ⟨events, hevents, ?_⟩
    rw [turns, hjobs, hsame, hchannel]
    rfl
  | cons entry channel ih =>
    -- finish the round, take the next request, and go on
    obtain ⟨events, hevents, hjobs, hsame⟩ := s.exists_jobs_eq_nil cfg
    have htail := request_pops cfg hjobs
    rw [hsame, hchannel] at htail
    obtain ⟨later, hlater, hend⟩ := ih ((s.after cfg events).step cfg .request) htail
    refine ⟨events ++ .request :: later, fun e he => ?_, ?_⟩
    · rcases List.mem_append.mp he with hfirst | hrest
      · exact hevents e hfirst
      · rcases List.mem_cons.mp hrest with rfl | hlast
        · trivial
        · exact hlater e hlast
    · unfold after at hend ⊢
      rw [Run.exec_append]
      exact hend

/-! ### Whole runs -/

/-- What clients have got from the tasks until now. -/
structure Linearized (cfg : ServiceConfig) (id : NodeId) (engine : σ) (history : List (Effect κ))
    (s : Service σ κ) : Prop where
  /-- What has happened is what the sequential store does, and it is now in this state. -/
  sequential : ∃ a, Run.Path (SeqStore.Step cfg id) (SeqStore.init engine) history a ∧
    a.store = s.store
  /-- Every connection is answered in the order of its requests. -/
  follows : ∀ k, (s.conns k).Follows cfg (repliesTo k history)
  /-- Who waits is going to be answered, once. -/
  waits : ∀ k, s.Waits k → k ∈ s.turns
  nodup : s.turns.Nodup
  /-- Between two rounds, clients see the store of the driver. -/
  settled : s.jobs = [] → s.store = s.driver.storage
  /-- The driver can answer everybody. -/
  answerable : ∃ events : List (ServiceEvent κ), (∀ e ∈ events, ofDriver e) ∧
    ∀ k, ¬(s.after cfg events).Waits k

omit [DecidableEq κ] in
theorem sim_init (cfg : ServiceConfig) (id : NodeId) (config : RaftConfig) (rng : StdRng)
    (engine : σ) :
    Sim cfg id engine (init (.new (.new id [] config rng) engine) : Service σ κ)
      (SeqStore.init engine) where
  alone := ⟨[], Driver.alone_new id config rng engine, rfl⟩
  office := ⟨rfl, rfl, rfl, rfl⟩
  store_eq := rfl
  settles := rfl
  agenda := .idle rfl
  asked entry hentry := absurd hentry List.not_mem_nil
  parsed k frame request hphase := by cases hphase
  nodup := List.nodup_nil
  waits k := ⟨fun hmem => absurd hmem List.not_mem_nil, fun ⟨_, _, hphase⟩ => by cases hphase⟩

/-- **A node without peers is linearizable**, whatever its clients send, however the bytes arrive,
and however the tasks are scheduled. -/
theorem linearizable (hcodec : cfg.codec.NonEmpty) (id : NodeId) (config : RaftConfig)
    (rng : StdRng) (engine : σ) (events : List (ServiceEvent κ)) :
    Linearized cfg id engine
      ((init (.new (.new id [] config rng) engine) : Service σ κ).history cfg events)
      ((init (.new (.new id [] config rng) engine) : Service σ κ).after cfg events) := by
  obtain ⟨a, hpath, hsim⟩ := (sim_init cfg id config rng engine).run hcodec events
  refine ⟨⟨a, hpath, hsim.store_eq.symm⟩, follows_run cfg _ events,
    fun k => (hsim.waits k).mpr, hsim.nodup, hsim.store_of_nil, ?_⟩
  obtain ⟨later, hlater, hturns⟩ := exists_turns_eq_nil cfg
    ((init (.new (.new id [] config rng) engine) : Service σ κ).after cfg events)
  refine ⟨later, hlater, fun k hwaits => ?_⟩
  obtain ⟨a', -, hend⟩ := hsim.run hcodec later
  have hmem := (hend.waits k).mpr hwaits
  rw [hturns] at hmem
  cases hmem

end Rounds

/-- A node without peers and without members to tell of. -/
def onlyNode : ServiceConfig where
  codec := Codec.tagged
  frameSize := 40
  format := shortFormat
  members := []

/-- The first client sets two keys, once the node is elected, and deletes both. The second one asks
for them while the deletion is under way. -/
def betweenDeletions : List (ServiceEvent Bool) :=
  List.replicate 6 .tick ++
    [.read true (asBytes "SET a 1\r\nSET b 2\r"), .serve true, .request, .work, .work,
      .reply true none, .read true (asBytes "\nDEL a b\r\n"), .serve true, .request, .work, .work,
      .reply true none, .serve true, .request, .work,
      .read false (asBytes "GET a\r\nGET b\r\n"), .serve false, .reply false none, .serve false,
      .reply false none, .work, .work, .reply true none]

/-- The tasks of a node called `n1`, before anything has happened. -/
def started : Service MemoryEngine Bool :=
  init (.new (.new "n1" [] raftCfg ⟨fun _ => 0⟩) MemoryEngine.new)

/-- The second client finds one of the keys deleted and not the other. -/
theorem linearizable_betweenDeletions :
    onlyNode.codec.NonEmpty ∧
      ((started.after onlyNode betweenDeletions).conns true).output =
        asBytes "+OK\r\n+OK\r\n:1\r\n" ∧
      ((started.after onlyNode betweenDeletions).conns false).output =
        asBytes "$-1\r\n$1\r\n2\r\n" ∧
      Linearized onlyNode "n1" MemoryEngine.new (started.history onlyNode betweenDeletions)
        (started.after onlyNode betweenDeletions) :=
  ⟨Codec.nonEmpty_tagged, by decide +kernel, by decide +kernel,
    linearizable Codec.nonEmpty_tagged _ _ _ _ _⟩

end Service

end Ferrium
