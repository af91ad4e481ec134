import Ferrium.Net.Client
import Ferrium.Server.Driver

/-!
# Clients, connections and the driver

The tasks of a node that serve clients, as `run` in `src/server.rs` starts them: the driver, and one
task for every connection (`handle_connection` in `src/net/client.rs`). They run side by side. A
connection reads the store whenever it dispatches a GET, and sends everything else that concerns the
log through the request channel of the driver; it then waits for the answer, and it writes a reply
before it takes the next request out of its buffer.

A round of the driver decides at its start what is going to be done in it, since nothing else
touches the node. What the others see of the round comes piece by piece: the calls to the storage
engine, one for each key of a DEL, and the answers (`Driver.roundJobs`). Every `ServiceEvent` is one
step of one of the tasks, so a list of events is one way in which they may be scheduled. An event
whose task has nothing of the kind to do changes nothing.

There are no peers here: the only events of the driver are ticks and requests.

## Main results

* `Service.follows_run`: every connection is answered request by request, however the bytes arrive
  and whatever the other tasks do.
-/

namespace Ferrium

open StorageEngine Incremental

variable {σ κ : Type*}

/-! ### Calls to the storage engine -/

/-- A call that changes the storage engine. -/
inductive EngineCall
  | set (key : String) (value : List UInt8)
  | del (key : String)
  | restore (entries : List KeyValue)
  deriving DecidableEq, Repr

/-- The engine after a call. -/
def EngineCall.apply [StorageEngine σ] (engine : σ) : EngineCall → σ
  | .set key value => StorageEngine.set engine key value
  | .del key => (StorageEngine.del engine key).2
  | .restore entries => StorageEngine.restore engine entries

/-- The calls by which a command is applied. -/
def WriteCommand.calls : WriteCommand → List EngineCall
  | .set key value => [.set key value]
  | .del keys => keys.map .del

/-- The calls by which what was handed out is applied. -/
def Committed.calls (codec : Codec) : Committed → List EngineCall
  | .command _ bytes => ((codec.decode bytes).map WriteCommand.calls).getD []
  | .snapshot data => [.restore data]

theorem WriteCommand.foldl_calls [StorageEngine σ] (command : WriteCommand) (engine : σ) :
    command.calls.foldl EngineCall.apply engine = (command.apply engine).2 := by
  cases command with
  | set key value => rfl
  | del keys =>
    -- the count that goes along does not matter to the engine
    suffices h : ∀ count : ℕ, (keys.map EngineCall.del).foldl EngineCall.apply engine =
        (keys.foldl delKey (count, engine)).2 from h 0
    induction keys generalizing engine with
    | nil => exact fun _ => rfl
    | cons key keys ih => exact fun count => ih _ _

/-! ### What a round of the driver does -/

/-- What the driver has to say to a connection. -/
inductive Notice
  | outcome (outcome : ProposeOutcome)
  | status (status : ClusterStatus)

/-- What the other tasks see of a round of the driver. -/
inductive Job (κ : Type*)
  | call (call : EngineCall)
  | notify (k : κ) (notice : Notice)

def Role.text : Role → String
  | .leader => "leader"
  | .candidate => "candidate"
  | .follower => "follower"

namespace Driver

/-- The answer to a request for the status. -/
def status (self : Driver σ κ) : ClusterStatus where
  id := self.node.id
  role := self.node.role.text
  term := self.node.currentTerm
  leader := self.node.leaderId
  commitIndex := self.node.commitIndex
  clusterSize := self.node.clusterSize

/-- Answers are sent to the connections that have asked. -/
def notices (answers : List (Answer κ)) : List (Job κ) :=
  answers.map fun ans => .notify ans.done (.outcome ans.outcome)

variable [StorageEngine σ] (codec : Codec)

/-- The loop over what is committed: each item is applied, and then those who wait for it are
answered. -/
def applyJobs : Driver σ κ → List Committed → List (Job κ)
  | _, [] => []
  | self, item :: items =>
    (item.calls codec).map .call ++ notices (self.applyOne codec item).2 ++
      applyJobs (self.applyOne codec item).1 items

/-- A round, in the order in which things happen. -/
def roundJobs (self : Driver σ κ) (event : DriverEvent κ) : List (Job κ) :=
  let handled := self.handle codec event
  let drained := { handled.1 with node := handled.1.node.takeReady }
  let committed := handled.1.node.ready.committed
  notices handled.2 ++ applyJobs codec drained committed ++
    notices (applyAll codec drained committed).1.failWaiters.2

variable {codec} {d : Driver σ κ} {event : DriverEvent κ}

/-- A round in which nothing is committed. -/
theorem roundJobs_of_nil (h : (d.handle codec event).1.node.ready.committed = []) :
    d.roundJobs codec event = notices (d.step codec event).2.answers := by
  simp only [roundJobs, step, processReady, h, applyJobs, applyAll, List.append_nil,
    List.nil_append, notices, List.map_append]

/-- A round in which one thing is committed and nobody is answered before. -/
theorem roundJobs_of_singleton {item : Committed}
    (h : (d.handle codec event).1.node.ready.committed = [item])
    (hnow : (d.handle codec event).2 = []) :
    d.roundJobs codec event =
      (item.calls codec).map .call ++ notices (d.step codec event).2.answers := by
  simp only [roundJobs, step, processReady, h, hnow, applyJobs, applyAll, List.append_nil,
    List.nil_append, notices, List.map_append, List.map_nil, List.append_assoc]

end Driver

/-! ### Connections -/

/-- Where the task of a connection is. -/
inductive Phase
  /-- It looks for a request in its buffer, or reads. -/
  | reading
  /-- It waits for the driver. -/
  | waiting (frame : Frame) (request : Command)
  /-- It has a reply to write. -/
  | replying (reply : Frame)
  /-- It has ended, with these bytes of a reply left. -/
  | closed (unwritten : List UInt8)

/-- The request that the driver has not answered yet. -/
def Phase.pending : Phase → List Frame
  | .waiting frame _ => [frame]
  | .reading | .replying _ | .closed _ => []

/-- What is left of a reply that is there already. -/
def Phase.unwritten : Phase → List UInt8
  | .replying reply => reply.encode
  | .closed unwritten => unwritten
  | .reading | .waiting _ _ => []

/-- A connection, with all the bytes that it has read and written. -/
structure ClientConn where
  buffer : List UInt8
  phase : Phase
  input : List UInt8
  output : List UInt8

/-- A connection that has just been accepted. -/
def ClientConn.new : ClientConn where
  buffer := []
  phase := .reading
  input := []
  output := []

/-- What the driver is asked for a request, if it is. -/
def Command.asks (k : κ) : Command → Option (DriverMsg κ)
  | .set key value => some (.propose (.set key value) k)
  | .del keys => some (.propose (.del keys) k)
  | .clusterStatus => some .status
  | .ping _ | .get _ | .clusterMembers | .command => none

/-- What all tasks have in common. -/
structure ServiceConfig where
  codec : Codec
  frameSize : ℕ
  format : DebugFormat
  members : List (String × String)

/-- What a connection that has not asked the driver finds. -/
def ServiceConfig.plainHandle (cfg : ServiceConfig) (store : σ) : Handle σ where
  storage := store
  members := cfg.members
  propose _ := .notLeader none
  status := none

/-- What a connection that has been notified finds. -/
def ServiceConfig.notifiedHandle (cfg : ServiceConfig) (store : σ) : Notice → Handle σ
  | .outcome outcome => { cfg.plainHandle store with propose := fun _ => outcome }
  | .status status => { cfg.plainHandle store with status := some status }

/-! ### All tasks together -/

/-- The tasks of a node and what they share. -/
structure Service (σ κ : Type*) where
  /-- The driver as it is when its round is over. -/
  driver : Driver σ κ
  /-- The store as it is now. -/
  store : σ
  /-- What is left to be done of the round. -/
  jobs : List (Job κ)
  /-- The request channel, with the connection that each request is from. -/
  channel : List (κ × DriverMsg κ)
  conns : κ → ClientConn

/-- A step of one of the tasks. -/
inductive ServiceEvent (κ : Type*)
  /-- The driver starts a round because of its ticker. -/
  | tick
  /-- The driver starts a round with the next request. -/
  | request
  /-- The driver goes on with its round. -/
  | work
  /-- A connection reads. -/
  | read (k : κ) (chunk : List UInt8)
  /-- A connection takes a request out of its buffer. -/
  | serve (k : κ)
  /-- A connection writes a reply, or, if the connection breaks, only so many bytes of it. -/
  | reply (k : κ) (broken : Option ℕ)
  deriving DecidableEq, Repr

/-- What happens to the node and to what clients can see, in the order in which it happens. -/
inductive Effect (κ : Type*)
  /-- The node is elected. -/
  | elected
  /-- The command of a connection is appended to the log. -/
  | accepted (k : κ) (command : WriteCommand)
  | call (call : EngineCall)
  /-- The reply of a connection to a request is decided. -/
  | replied (k : κ) (frame reply : Frame)

/-- The requests of a connection with their replies. -/
def repliesTo [DecidableEq κ] (k : κ) (effects : List (Effect κ)) : List (Frame × Frame) :=
  effects.filterMap fun effect =>
    match effect with
    | .replied k' frame reply => if k' = k then some (frame, reply) else none
    | .elected | .accepted _ _ | .call _ => none

namespace Service

/-- The start: nobody has said anything. -/
def init (driver : Driver σ κ) : Service σ κ where
  driver
  store := driver.storage
  jobs := []
  channel := []
  conns _ := .new

variable [StorageEngine σ] [DecidableEq κ] (cfg : ServiceConfig)

omit [StorageEngine σ] in
/-- Replace a connection. -/
def setConn (self : Service σ κ) (k : κ) (conn : ClientConn) : Service σ κ :=
  { self with conns := Function.update self.conns k conn }

omit [DecidableEq κ] in
/-- The driver starts a round. -/
def startRound (self : Service σ κ) (event : DriverEvent κ) : Service σ κ :=
  { self with
    driver := self.driver.next cfg.codec event
    jobs := self.driver.roundJobs cfg.codec event }

omit [DecidableEq κ] in
/-- The driver takes the request out of the channel and starts a round with it. The status is sent
at once. -/
def takeRequest (self : Service σ κ) : Service σ κ :=
  match self.channel with
  | [] => self
  | (k, msg) :: channel =>
    let started := { self with channel }.startRound cfg (.request msg)
    match msg with
    | .status => { started with jobs := .notify k (.status self.driver.status) :: started.jobs }
    | .propose _ _ | .peer _ _ => started

/-- A connection is notified. -/
def notified (self : Service σ κ) (k : κ) (notice : Notice) : Service σ κ :=
  match (self.conns k).phase with
  | .waiting _ request =>
    self.setConn k { self.conns k with
      phase := .replying (dispatch (cfg.notifiedHandle self.store notice) request) }
  | .reading | .replying _ | .closed _ => self

/-- The next thing in the round of the driver. -/
def workOn (self : Service σ κ) : Service σ κ :=
  match self.jobs with
  | [] => self
  | .call call :: jobs => { self with store := call.apply self.store, jobs }
  | .notify k notice :: jobs => { self with jobs }.notified cfg k notice

/-- A frame is dispatched: a request that needs the driver goes to it, others are replied to. -/
def dispatched (self : Service σ κ) (k : κ) (frame : Frame) (rest : List UInt8) : Service σ κ :=
  match Command.fromFrame cfg.format frame with
  | .ok request =>
    match request.asks k with
    | some msg =>
      { self with channel := self.channel ++ [(k, msg)] }.setConn k
        { self.conns k with buffer := rest, phase := .waiting frame request }
    | none =>
      self.setConn k { self.conns k with
        buffer := rest
        phase := .replying (dispatch (cfg.plainHandle self.store) request) }
  | .error error =>
    self.setConn k { self.conns k with
      buffer := rest
      phase := .replying (.error ("ERR " ++ error.clientMessage)) }

/-- A step of one of the tasks. -/
def step (self : Service σ κ) : ServiceEvent κ → Service σ κ
  | .tick => if self.jobs.isEmpty then self.startRound cfg .tick else self
  | .request => if self.jobs.isEmpty then self.takeRequest cfg else self
  | .work => self.workOn cfg
  | .read k chunk =>
    match (self.conns k).phase, Frame.decode cfg.frameSize (self.conns k).buffer with
    | .reading, .more =>
      if chunk = [] then self.setConn k { self.conns k with phase := .closed [] }
      else self.setConn k { self.conns k with
        buffer := (self.conns k).buffer ++ chunk
        input := (self.conns k).input ++ chunk }
    | _, _ => self
  | .serve k =>
    match (self.conns k).phase, Frame.decode cfg.frameSize (self.conns k).buffer with
    | .reading, .done frame rest => self.dispatched cfg k frame rest
    | .reading, .fail _ => self.setConn k { self.conns k with phase := .closed [] }
    | _, _ => self
  | .reply k broken =>
    match (self.conns k).phase, broken with
    | .replying reply, none =>
      self.setConn k { self.conns k with
        phase := .reading
        output := (self.conns k).output ++ reply.encode }
    | .replying reply, some n =>
      self.setConn k { self.conns k with
        phase := .closed (reply.encode.drop n)
        output := (self.conns k).output ++ reply.encode.take n }
    | _, _ => self

/-- What a step brings about. -/
def effects (self : Service σ κ) : ServiceEvent κ → List (Effect κ)
  | .tick =>
    if self.jobs.isEmpty ∧ self.driver.node.role ≠ .leader ∧
        (self.driver.next cfg.codec .tick).node.role = .leader then [.elected] else []
  | .request =>
    match self.jobs, self.channel with
    | [], (k, .propose command _) :: _ =>
      if self.driver.node.role = .leader then [.accepted k command] else []
    | _, _ => []
  | .work =>
    match self.jobs with
    | [] => []
    | .call call :: _ => [.call call]
    | .notify k notice :: _ =>
      match (self.conns k).phase with
      | .waiting frame request =>
        [.replied k frame (dispatch (cfg.notifiedHandle self.store notice) request)]
      | .reading | .replying _ | .closed _ => []
  | .serve k =>
    match (self.conns k).phase, Frame.decode cfg.frameSize (self.conns k).buffer with
    | .reading, .done frame _ =>
      match Command.fromFrame cfg.format frame with
      | .ok request =>
        if (request.asks k).isSome then []
        else [.replied k frame (dispatch (cfg.plainHandle self.store) request)]
      | .error error => [.replied k frame (.error ("ERR " ++ error.clientMessage))]
    | _, _ => []
  | .read _ _ | .reply _ _ => []

/-- The tasks after the events. -/
def after (self : Service σ κ) (events : List (ServiceEvent κ)) : Service σ κ :=
  Run.exec (step cfg) self events

/-- What the events bring about. -/
def history (self : Service σ κ) (events : List (ServiceEvent κ)) : List (Effect κ) :=
  Run.outputs (step cfg) (effects cfg) self events

end Service

/-! ### What a connection has read, and what it has written -/

namespace ClientConn

variable {cfg : ServiceConfig} {replies : List (Frame × Frame)} {conn : ClientConn} {frame : Frame}
variable {rest : List UInt8}

/-- The connection has answered to the requests in `replies`, one after the other: these are the
first requests in what it has read, the one that it is busy with and those in the buffer come behind
them, and what it has written is made of the replies. -/
structure Follows (cfg : ServiceConfig) (replies : List (Frame × Frame)) (conn : ClientConn) :
    Prop where
  requests : session cfg.frameSize conn.input [] =
    (replies.map Prod.fst ++ conn.phase.pending ++ (session cfg.frameSize conn.buffer []).1,
      (session cfg.frameSize conn.buffer []).2)
  written : conn.output ++ conn.phase.unwritten = replies.flatMap fun answer => answer.2.encode

theorem follows_new : Follows cfg [] new where
  requests := rfl
  written := rfl

/-- More arrives. -/
theorem Follows.read (h : Follows cfg replies conn) (hphase : conn.phase = .reading)
    (hmore : Frame.decode cfg.frameSize conn.buffer = .more) (chunk : List UInt8) :
    Follows cfg replies
      { conn with buffer := conn.buffer ++ chunk, input := conn.input ++ chunk } where
  requests := by
    have hrequests := h.requests
    have hempty : session cfg.frameSize conn.buffer [] = ([], .hungUp conn.buffer) :=
      Decoder.serve_of_more hmore
    rw [hphase, hempty] at hrequests
    simp only [Phase.pending, List.append_nil] at hrequests
    -- the loop goes on where it has stopped
    simp only [hphase, Phase.pending, List.append_nil]
    exact Decoder.serve_append hrequests chunk
  written := h.written

/-- The connection ends between two requests. -/
theorem Follows.close (h : Follows cfg replies conn) (hphase : conn.phase = .reading) :
    Follows cfg replies { conn with phase := .closed [] } where
  requests := by
    have hrequests := h.requests
    rw [hphase] at hrequests
    exact hrequests
  written := by
    have hwritten := h.written
    rw [hphase] at hwritten
    exact hwritten

/-- A request goes to the driver. -/
theorem Follows.ask (h : Follows cfg replies conn) (hphase : conn.phase = .reading)
    (hdone : Frame.decode cfg.frameSize conn.buffer = .done frame rest) (request : Command) :
    Follows cfg replies { conn with buffer := rest, phase := .waiting frame request } where
  requests := by
    have hrequests := h.requests
    have hfirst : session cfg.frameSize conn.buffer [] =
        (frame :: (session cfg.frameSize rest []).1, (session cfg.frameSize rest []).2) :=
      Decoder.serve_of_done hdone []
    rw [hphase, hfirst] at hrequests
    simpa [Phase.pending] using hrequests
  written := by
    have hwritten := h.written
    rw [hphase] at hwritten
    exact hwritten

/-- The driver has answered. -/
theorem Follows.notified {request : Command} (h : Follows cfg replies conn)
    (hphase : conn.phase = .waiting frame request) (reply : Frame) :
    Follows cfg (replies ++ [(frame, reply)]) { conn with phase := .replying reply } where
  requests := by
    have hrequests := h.requests
    rw [hphase] at hrequests
    simpa [Phase.pending] using hrequests
  written := by
    have hwritten := h.written
    rw [hphase] at hwritten
    simp only [Phase.unwritten, List.append_nil] at hwritten
    simp [Phase.unwritten, hwritten]

/-- A request that the driver is not asked about: as if it had been. -/
theorem Follows.answer (h : Follows cfg replies conn) (hphase : conn.phase = .reading)
    (hdone : Frame.decode cfg.frameSize conn.buffer = .done frame rest) (reply : Frame) :
    Follows cfg (replies ++ [(frame, reply)])
      { conn with buffer := rest, phase := .replying reply } :=
  (h.ask hphase hdone .command).notified rfl reply

/-- A reply is written, or a part of it. -/
theorem Follows.reply {reply : Frame} (h : Follows cfg replies conn)
    (hphase : conn.phase = .replying reply) {phase : Phase} {bytes : List UInt8}
    (hpending : phase.pending = []) (hbytes : bytes ++ phase.unwritten = reply.encode) :
    Follows cfg replies { conn with phase, output := conn.output ++ bytes } where
  requests := by
    have hrequests := h.requests
    rw [hphase] at hrequests
    simp only [hpending]
    exact hrequests
  written := by
    have hwritten := h.written
    rw [hphase] at hwritten
    rw [List.append_assoc, hbytes]
    exact hwritten

end ClientConn

namespace Service

variable [StorageEngine σ] [DecidableEq κ] {cfg : ServiceConfig} {s : Service σ κ} {k : κ}
variable {replies : List (Frame × Frame)}

omit [StorageEngine σ] in
theorem repliesTo_append (k : κ) (effects effects' : List (Effect κ)) :
    repliesTo k (effects ++ effects') = repliesTo k effects ++ repliesTo k effects' :=
  List.filterMap_append

omit [StorageEngine σ] in
theorem repliesTo_replied (k j : κ) (frame reply : Frame) :
    repliesTo k [.replied j frame reply] = if j = k then [(frame, reply)] else [] := by
  unfold repliesTo
  split <;> next h => simp [h]

omit [StorageEngine σ] in
theorem conns_setConn (s : Service σ κ) (k j : κ) (conn : ClientConn) :
    (s.setConn j conn).conns k = if k = j then conn else s.conns k :=
  Function.update_apply s.conns j conn k

omit [StorageEngine σ] in
/-- A connection takes a step, and the others do not. -/
theorem follows_setConn (h : (s.conns k).Follows cfg replies) {j : κ} {conn : ClientConn}
    (hself : k = j → conn.Follows cfg replies) :
    ((s.setConn j conn).conns k).Follows cfg replies := by
  rw [conns_setConn]
  split
  · next heq => exact hself heq
  · exact h

omit [StorageEngine σ] in
/-- A connection decides on a reply, and the others do not. -/
theorem follows_replied (h : (s.conns k).Follows cfg replies) {j : κ} {conn : ClientConn}
    {frame reply : Frame} (hself : k = j → conn.Follows cfg (replies ++ [(frame, reply)])) :
    ((s.setConn j conn).conns k).Follows cfg
      (replies ++ repliesTo k [.replied j frame reply]) := by
  rw [conns_setConn, repliesTo_replied]
  rcases eq_or_ne k j with heq | hne
  · rw [if_pos heq, if_pos heq.symm]
    exact hself heq
  · rw [if_neg hne, if_neg hne.symm, List.append_nil]
    exact h

omit [DecidableEq κ] in
theorem conns_takeRequest (s : Service σ κ) : (s.takeRequest cfg).conns = s.conns := by
  unfold takeRequest
  split
  · rfl
  · dsimp only
    split <;> rfl

/-- The driver starts a round. -/
theorem repliesTo_effects_of_start (s : Service σ κ) (k : κ) :
    repliesTo k (s.effects cfg .tick) = [] ∧ repliesTo k (s.effects cfg .request) = [] := by
  constructor
  · simp only [effects]
    split <;> rfl
  · simp only [effects]
    split
    · split <;> rfl
    · rfl

/-- The driver goes on. -/
theorem follows_work (h : (s.conns k).Follows cfg replies) :
    ((s.step cfg .work).conns k).Follows cfg (replies ++ repliesTo k (s.effects cfg .work)) := by
  have hquiet : (s.conns k).Follows cfg (replies ++ repliesTo k []) :=
    (List.append_nil replies).symm ▸ h
  cases hjobs : s.jobs with
  | nil =>
    simp only [step, workOn, effects, hjobs]
    exact hquiet
  | cons job jobs =>
    cases job with
    | call call =>
      simp only [step, workOn, effects, hjobs]
      exact hquiet
    | notify j notice =>
      cases hphase : (s.conns j).phase with
      | waiting frame request =>
        simp only [step, workOn, effects, hjobs, notified, hphase]
        refine follows_replied h fun heq => ?_
        subst heq
        exact h.notified hphase _
      | _ =>
        simp only [step, workOn, effects, hjobs, notified, hphase]
        exact hquiet

/-- A connection takes a frame out of its buffer. -/
theorem follows_dispatched (h : (s.conns k).Follows cfg replies) {j : κ} {frame : Frame}
    {rest : List UInt8} (hphase : (s.conns j).phase = .reading)
    (hdone : Frame.decode cfg.frameSize (s.conns j).buffer = .done frame rest) :
    ((s.step cfg (.serve j)).conns k).Follows cfg
      (replies ++ repliesTo k (s.effects cfg (.serve j))) := by
  simp only [step, effects, hphase, hdone, dispatched]
  cases Command.fromFrame cfg.format frame with
  | error error =>
    refine follows_replied h fun heq => ?_
    subst heq
    exact h.answer hphase hdone _
  | ok request =>
    dsimp only
    cases request.asks j with
    | none =>
      refine follows_replied h fun heq => ?_
      subst heq
      exact h.answer hphase hdone _
    | some msg =>
      -- the driver is asked, and nothing is decided yet
      refine ((List.append_nil replies).symm ▸ follows_setConn h fun heq => ?_ :)
      subst heq
      exact h.ask hphase hdone request

/-- **What a step of a task keeps.** -/
theorem follows_step (h : (s.conns k).Follows cfg replies) (e : ServiceEvent κ) :
    ((s.step cfg e).conns k).Follows cfg (replies ++ repliesTo k (s.effects cfg e)) := by
  have hquiet : replies ++ repliesTo k ([] : List (Effect κ)) = replies := List.append_nil replies
  cases e with
  | tick =>
    rw [(s.repliesTo_effects_of_start k).1, List.append_nil, step]
    split <;> exact h
  | request =>
    rw [(s.repliesTo_effects_of_start k).2, List.append_nil, step]
    split
    · rw [conns_takeRequest]
      exact h
    · exact h
  | work => exact follows_work h
  | read j chunk =>
    rw [effects, hquiet, step]
    split
    · next hphase hmore =>
      split
      · refine follows_setConn h fun heq => ?_
        subst heq
        exact h.close hphase
      · refine follows_setConn h fun heq => ?_
        subst heq
        exact h.read hphase hmore chunk
    · exact h
  | serve j =>
    cases hphase : (s.conns j).phase with
    | reading =>
      cases hdecode : Frame.decode cfg.frameSize (s.conns j).buffer with
      | done frame rest => exact follows_dispatched h hphase hdecode
      | more =>
        simp only [step, effects, hphase, hdecode, hquiet]
        exact h
      | fail error =>
        simp only [step, effects, hphase, hdecode, hquiet]
        refine follows_setConn h fun heq => ?_
        subst heq
        exact h.close hphase
    | _ =>
      simp only [step, effects, hphase, hquiet]
      exact h
  | reply j broken =>
    cases hphase : (s.conns j).phase with
    | replying reply =>
      cases broken with
      | none =>
        simp only [step, effects, hphase, hquiet]
        refine follows_setConn h fun heq => ?_
        subst heq
        exact h.reply hphase rfl (List.append_nil _)
      | some n =>
        simp only [step, effects, hphase, hquiet]
        refine follows_setConn h fun heq => ?_
        subst heq
        exact h.reply hphase rfl (List.take_append_drop n _)
    | _ =>
      simp only [step, effects, hphase, hquiet]
      exact h

/-- **Every connection is answered request by request**, in every run. -/
theorem follows_run (cfg : ServiceConfig) (driver : Driver σ κ) (events : List (ServiceEvent κ))
    (k : κ) :
    (((init driver).after cfg events).conns k).Follows cfg
      (repliesTo k ((init driver).history cfg events)) := by
  suffices hrun : ∀ (s : Service σ κ) replies, (s.conns k).Follows cfg replies →
      ((s.after cfg events).conns k).Follows cfg
        (replies ++ repliesTo k (s.history cfg events)) by
    exact hrun (init driver) [] ClientConn.follows_new
  induction events with
  | nil =>
    intro s replies h
    exact (List.append_nil replies).symm ▸ h
  | cons e events ih =>
    intro s replies h
    have hrest := ih (s.step cfg e) _ (follows_step h e)
    rw [List.append_assoc, ← repliesTo_append] at hrest
    exact hrest

end Service

end Ferrium
