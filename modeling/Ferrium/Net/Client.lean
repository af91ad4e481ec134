import Ferrium.Protocol.Command
import Ferrium.Server.Driver

/-!
# Client connections

Embedding of `src/net/client.rs`. A connection takes frames out of its buffer, reads on when the
buffer ends too early, and answers every frame with one frame (`reply`). What the other tasks do in
the meantime enters through the `Handle`: the store, and what the driver says.

A reply that is a simple string or an error ends with its line. An unknown command is named in the
error that it is answered with, and its name may be any bytes.

## Main results

* `session_eq`: how a stream arrives does not matter;
* `reply_decodes_iff`: a reply is read back as the one frame that it is, unless the request names an
  unknown command, or subcommand, with an end of a line in it;
* `not_decodes_brokenName`: then it is not.
-/

namespace Ferrium

open StorageEngine Incremental

/-! ### The loop of a connection -/

/-- The frames that a connection takes out of its buffer, and how it ends, if these are the results
of its reads. -/
def session (frameSize : ℕ) (buffer : List UInt8) (reads : List (List UInt8)) :
    List Frame × Ending UInt8 Frame.Fault :=
  (Frame.decoder frameSize).serve buffer reads

/-- **Chunking does not matter**: a stream that arrives in chunks, each of which is not empty, gives
the same frames and ends in the same way as the stream as a whole. -/
theorem session_eq (frameSize : ℕ) (buffer : List UInt8) {reads : List (List UInt8)}
    (hreads : [] ∉ reads) :
    session frameSize buffer reads = session frameSize (buffer ++ reads.flatten) [] :=
  (Frame.decoder frameSize).serve_eq buffer reads hreads

theorem session_splitPing :
    [] ∉ [asBytes "*1\r\n$4", asBytes "\r", asBytes "\nPING\r\n+O"] ∧
      session 40 [] [asBytes "*1\r\n$4", asBytes "\r", asBytes "\nPING\r\n+O"] =
        session 40 (asBytes "*1\r\n$4" ++ (asBytes "\r" ++ (asBytes "\nPING\r\n+O" ++ []))) [] :=
  ⟨by decide +kernel, session_eq 40 [] (by decide +kernel)⟩

/-! ### Replies -/

variable {σ : Type*} [StorageEngine σ]

/-- Human-readable cluster state. -/
structure ClusterStatus where
  id : String
  role : String
  term : ℕ
  leader : Option String
  commitIndex : ℕ
  clusterSize : ℕ

/-- The reply to `CLUSTER STATUS`. -/
def ClusterStatus.text (self : ClusterStatus) : String :=
  "id=" ++ self.id ++ " role=" ++ self.role ++ " term=" ++ toString self.term ++
    " leader=" ++ self.leader.getD "none" ++ " commit=" ++ toString self.commitIndex ++
    " size=" ++ toString self.clusterSize

/-- What a connection finds through its handle when it answers a request. -/
structure Handle (σ : Type*) where
  storage : σ
  /-- The identifiers of the members with their addresses. -/
  members : List (String × String)
  /-- The outcome of a proposal. -/
  propose : WriteCommand → ProposeOutcome
  /-- The status, unless the driver has gone. -/
  status : Option ClusterStatus

def notLeaderFrame (leader : Option String) : Frame :=
  .error ("ERR " ++ (Error.notLeader leader).clientMessage)

/-- Turn a parsed command into a reply frame. -/
def dispatch (handle : Handle σ) : Command → Frame
  | .ping (some payload) => .bulk payload
  | .ping none => .simple "PONG"
  | .get key =>
    match get handle.storage key with
    | some value => .bulk value
    | none => .null
  | .set key value =>
    match handle.propose (.set key value) with
    | .committed => .simple "OK"
    | .notLeader leader => notLeaderFrame leader
  | .del keys =>
    match handle.propose (.del keys) with
    | .committed => .integer 1
    | .notLeader leader => notLeaderFrame leader
  | .clusterStatus =>
    match handle.status with
    | some status => .bulk (asBytes status.text)
    | none => .error "ERR driver unavailable"
  | .clusterMembers =>
    .array (handle.members.map fun member => .bulk (asBytes (member.1 ++ "@" ++ member.2)))
  | .command => .array []

/-- The frame for what is found under a key. -/
def valueFrame : Option (List UInt8) → Frame
  | some value => .bulk value
  | none => .null

theorem dispatch_get (handle : Handle σ) (key : String) :
    dispatch handle (.get key) = valueFrame (get handle.storage key) := by
  simp only [dispatch]
  cases get handle.storage key <;> rfl

/-- The reply of a connection to a frame. -/
def reply (format : DebugFormat) (handle : Handle σ) (frame : Frame) : Frame :=
  match Command.fromFrame format frame with
  | .ok request => dispatch handle request
  | .error error => .error ("ERR " ++ error.clientMessage)

/-! ### What a request is answered with -/

/-- The name, or the subcommand of `CLUSTER`, has the end of a line in it. -/
def BrokenName (name : List UInt8) (args : List (List UInt8)) : Prop :=
  HasCrlf name ∨ (Command.nameOf name = "CLUSTER" ∧ ∃ sub ∈ args.head?, HasCrlf sub)

/-- If the request can be read as a name with arguments, then the name is not broken. -/
def SafeRequest (format : DebugFormat) : Frame → Prop
  | .array (first :: rest) =>
    ∀ name args, bulkToBytes format first = .ok name →
      rest.mapM (bulkToBytes format) = .ok args → ¬BrokenName name args
  | _ => True

theorem hasCrlf_nameOf {name : List UInt8} :
    HasCrlf (asBytes (Command.nameOf name)) ↔ HasCrlf name :=
  hasCrlf_toAsciiUppercase name

/-- A name that is known is a single line. -/
theorem not_hasCrlf_of_nameOf_eq {name : List UInt8} {known : String} (hknown : NoReturn known)
    (h : Command.nameOf name = known) : ¬HasCrlf name := by
  rw [← hasCrlf_nameOf, h]
  exact hknown.not_hasCrlf

/-- An unknown command is named in the error. -/
theorem hasCrlf_unknownCommand (name : String) :
    HasCrlf (asBytes ("ERR " ++ (Error.unknownCommand name).clientMessage)) ↔
      HasCrlf (asBytes name) := by
  have htext : (Error.unknownCommand name).clientMessage = "unknown command '" ++ name ++ "'" := rfl
  have hfront : byte '\r' ∉ asBytes "ERR " := by decide +kernel
  have hmiddle : byte '\r' ∉ asBytes "unknown command '" := by decide +kernel
  have hback : byte '\n' ∉ asBytes "'" := by decide +kernel
  rw [htext, asBytes_append, asBytes_append, asBytes_append, hasCrlf_append_left hfront,
    hasCrlf_append_right hback, hasCrlf_append_left hmiddle]

theorem noReturn_bulkToBytes {format : DebugFormat} {frame : Frame} {error : Error}
    (h : bulkToBytes format frame = .error error) : NoReturn error.clientMessage := by
  have hother : ∀ frame : Frame, NoReturn (Error.protocol
      ("expected bulk string, got " ++ format.frame frame)).clientMessage := by
    intro frame
    refine NoReturn.append (by decide +kernel) (NoReturn.append (by decide +kernel) ?_)
    exact format.noReturn_frame frame
  cases frame with
  | bulk data => cases h
  | simple text => cases h
  | error text => exact Except.error.inj h ▸ hother _
  | integer n => exact Except.error.inj h ▸ hother _
  | null => exact Except.error.inj h ▸ hother _
  | array items => exact Except.error.inj h ▸ hother _

/-- What the whole list gives is what its elements give: all of them a value, or one the error. -/
theorem mapM_cases {α β ε : Type} (f : α → Except ε β) (l : List α) :
    (∃ bs, l.mapM f = .ok bs ∧ ∀ b ∈ bs, ∃ a ∈ l, f a = .ok b) ∨
      ∃ error, l.mapM f = .error error ∧ ∃ a ∈ l, f a = .error error := by
  induction l with
  | nil => exact Or.inl ⟨[], rfl, fun b hb => by cases hb⟩
  | cons a l ih =>
    rw [List.mapM_cons]
    cases hfirst : f a with
    | error error => exact Or.inr ⟨error, rfl, a, List.mem_cons_self, hfirst⟩
    | ok b =>
      rcases ih with ⟨bs, hrest, hmem⟩ | ⟨error, hrest, a', ha', herror⟩
      · rw [hrest]
        refine Or.inl ⟨b :: bs, rfl, fun b' hb' => ?_⟩
        rcases List.mem_cons.mp hb' with rfl | hb'
        · exact ⟨a, List.mem_cons_self, hfirst⟩
        · obtain ⟨a', ha', heq⟩ := hmem b' hb'
          exact ⟨a', List.mem_cons_of_mem a ha', heq⟩
      · rw [hrest]
        exact Or.inr ⟨error, rfl, a', List.mem_cons_of_mem a ha', herror⟩

/-- The error, if it is one, has the end of a line in what a client is told. -/
def Echoes (result : Except Error Command) : Prop :=
  ∃ error, result = .error error ∧ HasCrlf (asBytes ("ERR " ++ error.clientMessage))

theorem not_echoes_ok (request : Command) : ¬Echoes (.ok request) := by
  rintro ⟨error, h, -⟩
  cases h

theorem not_echoes_of_noReturn {error : Error} (h : NoReturn error.clientMessage) :
    ¬Echoes (.error error) := by
  rintro ⟨error', heq, hcrlf⟩
  obtain rfl := Except.error.inj heq
  exact (NoReturn.append (by decide +kernel) h).not_hasCrlf hcrlf

theorem not_echoes_wrongArity {text : String} (h : NoReturn text) :
    ¬Echoes (.error (.wrongArity text)) :=
  not_echoes_of_noReturn
    ((NoReturn.append (by decide +kernel) h).append (by decide +kernel))

theorem echoes_unknownCommand (name : String) :
    Echoes (.error (.unknownCommand name)) ↔ HasCrlf (asBytes name) := by
  rw [← hasCrlf_unknownCommand]
  constructor
  · rintro ⟨error, heq, hcrlf⟩
    obtain rfl := Except.error.inj heq
    exact hcrlf
  · exact fun hcrlf => ⟨_, rfl, hcrlf⟩

section Assemble

variable {name : List UInt8} {args : List (List UInt8)}

/-- A known name is a single line. -/
theorem not_brokenName_of_nameOf_eq {known : String} (h : Command.nameOf name = known)
    (hknown : NoReturn known) (hcluster : known ≠ "CLUSTER") : ¬BrokenName name args := by
  rintro (hcrlf | ⟨heq, -⟩)
  · exact not_hasCrlf_of_nameOf_eq hknown h hcrlf
  · exact hcluster (h.symm.trans heq)

/-- The subcommands of `CLUSTER`. -/
theorem echoes_assembleCluster_iff (args : List (List UInt8)) :
    Echoes (Command.assembleCluster args) ↔ ∃ sub ∈ args.head?, HasCrlf sub := by
  have hunknown : ∀ text : String, Echoes (.error (.unknownCommand ("CLUSTER " ++ text))) ↔
      HasCrlf (asBytes text) := by
    intro text
    rw [echoes_unknownCommand, asBytes_append, hasCrlf_append_left (by decide +kernel)]
  unfold Command.assembleCluster
  cases args.head? with
  | none =>
    show Echoes (.error (.unknownCommand ("CLUSTER " ++ ""))) ↔ _
    rw [hunknown]
    exact iff_of_false (by decide +kernel) (by simp)
  | some sub =>
    have hsub : (∃ sub' ∈ some sub, HasCrlf sub') ↔ HasCrlf sub := by simp
    rw [hsub, Option.map_some, Option.getD_some]
    generalize hname : Command.nameOf sub = text
    split
    iterate 4
      · refine iff_of_false (not_echoes_ok _) (not_hasCrlf_of_nameOf_eq (by decide +kernel) hname)
    rw [hunknown, ← hname, hasCrlf_nameOf]

/-- **What is echoed**: a broken name, and nothing else. -/
theorem echoes_assemble_iff (name : List UInt8) (args : List (List UInt8)) :
    Echoes (Command.assemble (Command.nameOf name) args) ↔ BrokenName name args := by
  generalize hname : Command.nameOf name = text
  unfold Command.assemble
  -- the error of a known command names the command as the source has it, whatever the client sent
  split
  · refine iff_of_false ?_ (not_brokenName_of_nameOf_eq hname (by decide +kernel) (by decide))
    split
    · exact not_echoes_ok _
    · exact not_echoes_ok _
    · exact not_echoes_wrongArity (by decide +kernel)
  · refine iff_of_false ?_ (not_brokenName_of_nameOf_eq hname (by decide +kernel) (by decide))
    split
    · exact not_echoes_ok _
    · exact not_echoes_wrongArity (by decide +kernel)
  · refine iff_of_false ?_ (not_brokenName_of_nameOf_eq hname (by decide +kernel) (by decide))
    split
    · exact not_echoes_ok _
    · exact not_echoes_wrongArity (by decide +kernel)
  · refine iff_of_false ?_ (not_brokenName_of_nameOf_eq hname (by decide +kernel) (by decide))
    split
    · exact not_echoes_wrongArity (by decide +kernel)
    · exact not_echoes_ok _
  · -- the name of a `CLUSTER` request is known, but that of its subcommand need not be
    rw [echoes_assembleCluster_iff]
    have hname' : ¬HasCrlf name := not_hasCrlf_of_nameOf_eq (by decide +kernel) hname
    exact ⟨fun hsub => Or.inr ⟨hname, hsub⟩, fun hbroken => (hbroken.resolve_left hname').2⟩
  · exact iff_of_false (not_echoes_ok _)
      (not_brokenName_of_nameOf_eq hname (by decide +kernel) (by decide))
  · next other hping hget hset hdel hcluster hcommand =>
    rw [echoes_unknownCommand, ← hname, hasCrlf_nameOf]
    exact ⟨Or.inl, fun hbroken => hbroken.resolve_right fun hsub => hcluster (hname ▸ hsub.1)⟩

end Assemble

/-- A request is an error, or has a name and arguments. -/
theorem fromFrame_cases (format : DebugFormat) (frame : Frame) :
    (∃ error, Command.fromFrame format frame = .error error ∧ NoReturn error.clientMessage ∧
      SafeRequest format frame) ∨
    ∃ first rest name args, frame = .array (first :: rest) ∧
      bulkToBytes format first = .ok name ∧ rest.mapM (bulkToBytes format) = .ok args ∧
      (∀ data ∈ args, ∃ item ∈ rest, bulkToBytes format item = .ok data) ∧
      Command.fromFrame format frame = Command.assemble (Command.nameOf name) args := by
  have hshape : NoReturn (Error.protocol "expected non-empty array").clientMessage := by
    decide +kernel
  cases frame with
  | array items =>
    cases items with
    | nil => exact Or.inl ⟨_, rfl, hshape, trivial⟩
    | cons first rest =>
      cases hfirst : bulkToBytes format first with
      | error error =>
        refine Or.inl ⟨error, ?_, noReturn_bulkToBytes hfirst, fun name args hname => ?_⟩
        · simp only [Command.fromFrame, hfirst]
          rfl
        · rw [hfirst] at hname
          cases hname
      | ok name =>
        rcases mapM_cases (bulkToBytes format) rest with
          ⟨args, hrest, hmem⟩ | ⟨error, hrest, item, -, hitem⟩
        · refine Or.inr ⟨first, rest, name, args, rfl, hfirst, hrest, hmem, ?_⟩
          simp only [Command.fromFrame, hfirst, hrest]
          rfl
        · refine Or.inl ⟨error, ?_, noReturn_bulkToBytes hitem, fun name args _ hargs => ?_⟩
          · simp only [Command.fromFrame, hfirst, hrest]
            rfl
          · rw [hrest] at hargs
            cases hargs
  | simple text => exact Or.inl ⟨_, rfl, hshape, trivial⟩
  | error text => exact Or.inl ⟨_, rfl, hshape, trivial⟩
  | integer n => exact Or.inl ⟨_, rfl, hshape, trivial⟩
  | bulk data => exact Or.inl ⟨_, rfl, hshape, trivial⟩
  | null => exact Or.inl ⟨_, rfl, hshape, trivial⟩

theorem echoes_fromFrame_iff (format : DebugFormat) (frame : Frame) :
    Echoes (Command.fromFrame format frame) ↔ ¬SafeRequest format frame := by
  rcases fromFrame_cases format frame with
    ⟨error, hfrom, hline, hsafe⟩ | ⟨first, rest, name, args, rfl, hname, hargs, -, hfrom⟩
  · rw [hfrom]
    exact iff_of_false (not_echoes_of_noReturn hline) (not_not.mpr hsafe)
  · rw [hfrom, echoes_assemble_iff]
    constructor
    · exact fun hbroken hsafe => hsafe name args hname hargs hbroken
    · intro hunsafe
      by_contra hbroken
      refine hunsafe fun name' args' hname' hargs' => ?_
      rw [hname] at hname'
      rw [hargs] at hargs'
      rwa [← Except.ok.inj hname', ← Except.ok.inj hargs']

/-! ### Replies are single frames -/

/-- What a connection can rely on: a leader's name is a single line, and nothing is larger than
memory permits. -/
structure Handle.Regular (frameSize : ℕ) (handle : Handle σ) : Prop where
  leader : ∀ command leader, handle.propose command = .notLeader (some leader) → NoReturn leader
  values : ∀ key value, get handle.storage key = some value → value.length ≤ Frame.isizeMax
  status : ∀ status ∈ handle.status, (asBytes status.text).length ≤ Frame.isizeMax
  members : handle.members.length ≤ Frame.isizeMax ∧
    handle.members.length * frameSize ≤ Frame.isizeMax
  member : ∀ m ∈ handle.members, (asBytes (m.1 ++ "@" ++ m.2)).length ≤ Frame.isizeMax

/-- No argument of the request is larger than memory permits. -/
def ArgumentsFit (format : DebugFormat) : Frame → Prop
  | .array items =>
    ∀ item ∈ items, ∀ data, bulkToBytes format item = .ok data → data.length ≤ Frame.isizeMax
  | _ => True

variable {frameSize : ℕ} {handle : Handle σ} {format : DebugFormat} {frame : Frame}

omit [StorageEngine σ] in
theorem singleLine_notLeaderFrame {leader : Option String}
    (h : ∀ name ∈ leader, NoReturn name) : (notLeaderFrame leader).SingleLine := by
  have hmessage : NoReturn (Error.notLeader leader).clientMessage := by
    cases leader with
    | none => exact (show NoReturn "CLUSTERDOWN no known leader" by decide +kernel)
    | some name => exact NoReturn.append (by decide +kernel) (h name rfl)
  exact (NoReturn.append (by decide +kernel) hmessage).not_hasCrlf

/-- Whatever the request, its command is answered with single lines. -/
theorem singleLine_dispatch (h : handle.Regular frameSize) (request : Command) :
    (dispatch handle request).SingleLine := by
  have hleader : ∀ command leader, handle.propose command = .notLeader leader →
      (notLeaderFrame leader).SingleLine := by
    rintro command leader heq
    refine singleLine_notLeaderFrame fun name hname => ?_
    obtain rfl : leader = some name := hname
    exact h.leader command name heq
  have htext : ∀ text, NoReturn text → (Frame.simple text).SingleLine :=
    fun text htext => htext.not_hasCrlf
  cases request with
  | ping payload =>
    cases payload with
    | none => exact htext "PONG" (by decide +kernel)
    | some payload => exact trivial
  | get key =>
    rw [dispatch]
    split <;> exact trivial
  | set key value =>
    rw [dispatch]
    split
    · exact htext "OK" (by decide +kernel)
    · next leader heq => exact hleader _ _ heq
  | del keys =>
    rw [dispatch]
    split
    · exact trivial
    · next leader heq => exact hleader _ _ heq
  | clusterStatus =>
    rw [dispatch]
    split
    · exact trivial
    · exact NoReturn.not_hasCrlf (show NoReturn "ERR driver unavailable" by decide +kernel)
  | clusterMembers =>
    refine Frame.singleLine_array.mpr fun item hitem => ?_
    obtain ⟨member, -, rfl⟩ := List.mem_map.mp hitem
    exact trivial
  | command => exact Frame.singleLine_array.mpr fun item hitem => by cases hitem

/-- A reply is as large as memory permits if the payload of a `PING` is. -/
theorem fits_dispatch (h : handle.Regular frameSize) (request : Command)
    (hpayload : ∀ payload, request = .ping (some payload) → payload.length ≤ Frame.isizeMax) :
    (dispatch handle request).Fits frameSize := by
  cases request with
  | ping payload =>
    cases payload with
    | none => exact trivial
    | some payload => exact hpayload payload rfl
  | get key =>
    rw [dispatch]
    split
    · next value heq => exact h.values key value heq
    · exact trivial
  | set key value =>
    rw [dispatch]
    split <;> exact trivial
  | del keys =>
    rw [dispatch]
    split <;> exact trivial
  | clusterStatus =>
    rw [dispatch]
    split
    · next status heq => exact h.status status heq
    · exact trivial
  | clusterMembers =>
    rw [dispatch, Frame.Fits, Frame.Everywhere, Frame.everywhereIn_iff]
    refine ⟨by simpa [Frame.HasSize] using h.members, fun item hitem => ?_⟩
    obtain ⟨member, hmember, rfl⟩ := List.mem_map.mp hitem
    exact h.member member hmember
  | command =>
    rw [dispatch, Frame.Fits, Frame.Everywhere, Frame.everywhereIn_iff]
    exact ⟨by simp [Frame.HasSize], fun item hitem => by cases hitem⟩

/-- The payload of a `PING` is one of its arguments. -/
theorem mem_of_assemble_ping {text : String} {args : List (List UInt8)} {payload : List UInt8}
    (h : Command.assemble text args = .ok (.ping (some payload))) : payload ∈ args := by
  unfold Command.assemble at h
  split at h
  · split at h
    · cases h
    · obtain rfl := Option.some.inj (Command.ping.inj (Except.ok.inj h))
      exact List.mem_singleton.mpr rfl
    · cases h
  · split at h <;> cases h
  · split at h <;> cases h
  · split at h <;> cases h
  · unfold Command.assembleCluster at h
    split at h <;> cases h
  · cases h
  · cases h

theorem fits_reply (h : handle.Regular frameSize) (hargs : ArgumentsFit format frame) :
    (reply format handle frame).Fits frameSize := by
  unfold reply
  split
  · next request hrequest =>
    refine fits_dispatch h request ?_
    rintro payload rfl
    rcases fromFrame_cases format frame with
      ⟨error, hfrom, -, -⟩ | ⟨first, rest, name, args, rfl, -, -, hmem, hfrom⟩
    · rw [hfrom] at hrequest
      cases hrequest
    · rw [hfrom] at hrequest
      obtain ⟨item, hitem, hdata⟩ := hmem payload (mem_of_assemble_ping hrequest)
      exact hargs item (List.mem_cons_of_mem first hitem) payload hdata
  · exact trivial

theorem singleLine_reply_iff (h : handle.Regular frameSize) :
    (reply format handle frame).SingleLine ↔ ¬Echoes (Command.fromFrame format frame) := by
  unfold reply
  split
  · next request hrequest =>
    rw [hrequest]
    exact iff_of_true (singleLine_dispatch h request) (not_echoes_ok request)
  · next error herror =>
    rw [herror]
    refine not_congr ⟨fun hcrlf => ⟨error, rfl, hcrlf⟩, ?_⟩
    rintro ⟨error', heq, hcrlf⟩
    obtain rfl := Except.error.inj heq
    exact hcrlf

/-- **One request, one reply frame**: a reply is read back as exactly the frame that it is, unless
the request names an unknown command, or an unknown subcommand of `CLUSTER`, with the end of a line
in its name. -/
theorem reply_decodes_iff (h : handle.Regular frameSize) (hargs : ArgumentsFit format frame) :
    Frame.decode frameSize (reply format handle frame).encode =
        .done (reply format handle frame) [] ↔ SafeRequest format frame := by
  rw [Frame.decode_encode_nil_iff (fits_reply h hargs), singleLine_reply_iff h,
    echoes_fromFrame_iff, not_not]

/-- A debug format that leaves the bytes out. -/
def shortFormat : DebugFormat where
  bytes _ := "b"
  noReturn_bytes _ := by decide +kernel
  unprintable _ := false

/-- The handle of a node that is alone and leads. -/
def idleHandle : Handle MemoryEngine where
  storage := MemoryEngine.new
  members := [("n1", "127.0.0.1:6379")]
  propose _ := .committed
  status := none

theorem regular_idleHandle : idleHandle.Regular 40 where
  leader _ _ h := by cases h
  values _ _ h := by cases h
  status _ h := by cases h
  members := by decide
  member m h := by
    obtain rfl := List.mem_singleton.mp h
    decide +kernel

/-- A request with one argument fits. -/
theorem argumentsFit_singleton {data : List UInt8} (h : data.length ≤ Frame.isizeMax) :
    ArgumentsFit shortFormat (.array [.bulk data]) := by
  intro item hitem data' hdata
  obtain rfl := List.mem_singleton.mp hitem
  rwa [← Except.ok.inj hdata]

theorem reply_decodes_unknownName :
    idleHandle.Regular 40 ∧ ArgumentsFit shortFormat (.array [.bulk (asBytes "HELLO")]) ∧
      (Frame.decode 40 (reply shortFormat idleHandle (.array [.bulk (asBytes "HELLO")])).encode =
          .done (reply shortFormat idleHandle (.array [.bulk (asBytes "HELLO")])) [] ↔
        SafeRequest shortFormat (.array [.bulk (asBytes "HELLO")])) := by
  have hargs : ArgumentsFit shortFormat (.array [.bulk (asBytes "HELLO")]) :=
    argumentsFit_singleton (by decide +kernel)
  exact ⟨regular_idleHandle, hargs, reply_decodes_iff regular_idleHandle hargs⟩

/-- A request whose name has the end of a line in it. -/
def brokenName : Frame :=
  .array [.bulk (asBytes "a\r\nb")]

theorem reply_brokenName :
    reply shortFormat idleHandle brokenName = .error "ERR unknown command 'A\r\nB'" := by
  have hrequest : Command.fromFrame shortFormat brokenName =
      .error (.unknownCommand "A\r\nB") := by decide +kernel
  have htext : "ERR " ++ (Error.unknownCommand "A\r\nB").clientMessage =
      "ERR unknown command 'A\r\nB'" := by decide +kernel
  rw [reply, hrequest, ← htext]

/-- The client gets a shorter error than it was sent, and the rest of it as another reply. -/
theorem not_decodes_brokenName :
    Frame.decode 40 (asBytes "*1\r\n$4\r\na\r\nb\r\n") = .done brokenName [] ∧
      idleHandle.Regular 40 ∧ ArgumentsFit shortFormat brokenName ∧
      reply shortFormat idleHandle brokenName = .error "ERR unknown command 'A\r\nB'" ∧
      Frame.decode 40 (reply shortFormat idleHandle brokenName).encode =
        .done (.error "ERR unknown command 'A") (asBytes "B'\r\n") ∧
      Frame.decode 40 (reply shortFormat idleHandle brokenName).encode ≠
        .done (reply shortFormat idleHandle brokenName) [] := by
  have hreply : Frame.decode 40 (reply shortFormat idleHandle brokenName).encode =
      .done (.error "ERR unknown command 'A") (asBytes "B'\r\n") := by
    have hencode : (reply shortFormat idleHandle brokenName).encode =
        byte '-' :: (asBytes "ERR unknown command 'A" ++ crlf ++ asBytes "B'\r\n") := by
      decide +kernel
    rw [hencode]
    exact Frame.decode_error (by decide +kernel) _
  refine ⟨rfl, regular_idleHandle, argumentsFit_singleton (by decide +kernel),
    reply_brokenName, hreply, ?_⟩
  rw [hreply]
  intro h
  exact absurd (Outcome.done.inj h).2 (by decide +kernel)

end Ferrium
