import Ferrium.Raft.State

/-!
# The Raft consensus state machine

Embedding of `src/raft/node.rs`. `RaftNode` consumes inputs (timer ticks, inbound messages, client
proposals) and accumulates outputs (outbound messages, committed entries) that the caller drains
with `takeReady`. Every method of the source is a function on the whole node state.

The generator of the `rand` crate is `StdRng`: the sequence of raw numbers it still has to give,
from which `genRange` draws inside the requested range. Since the sequence is arbitrary, so are
the election timeouts within their bounds; the optional seed that selects it is left out.
-/

namespace Ferrium

/-- Timing and behaviour knobs, in ticks. `gen_range` panics on an empty range, so a configuration
that a node was created with has a non-empty one. -/
structure RaftConfig where
  /-- Ticks between leader heartbeats. -/
  heartbeatTicks : ℕ
  /-- Lower bound of the randomized election timeout. -/
  electionTimeoutMin : ℕ
  /-- Upper bound of the randomized election timeout. -/
  electionTimeoutMax : ℕ
  /-- Compact the log once it grows beyond this many entries. -/
  snapshotThreshold : ℕ
  timeout_le : electionTimeoutMin ≤ electionTimeoutMax

/-- Elections and heartbeats at every tick: what examples are run with. -/
def RaftConfig.eager (snapshotThreshold : ℕ) : RaftConfig where
  heartbeatTicks := 1
  electionTimeoutMin := 1
  electionTimeoutMax := 1
  snapshotThreshold
  timeout_le := Nat.le.refl

/-- A random number generator, given by the raw numbers it is going to produce. -/
structure StdRng where
  draws : ℕ → ℕ

/-- Draw a number from the inclusive range `lo..=hi`, and advance the generator. -/
def StdRng.genRange (rng : StdRng) (lo hi : ℕ) : ℕ × StdRng :=
  (lo + rng.draws 0 % (hi - lo + 1), ⟨fun k => rng.draws (k + 1)⟩)

/-- Something that has been committed and must be applied to the state machine. -/
inductive Committed
  /-- A committed log entry carrying an application command. -/
  | command (index : ℕ) (command : List UInt8)
  /-- A snapshot installed from the leader. -/
  | snapshot (data : List KeyValue)
  deriving DecidableEq, Repr

/-- Outputs produced since the last drain. -/
structure Ready where
  messages : List Envelope
  committed : List Committed

/-- Returned by `propose` when this node isn't the leader. -/
structure NotLeader where
  leader : Option NodeId
  deriving DecidableEq, Repr

/-- A Raft peer's full consensus state. -/
structure RaftNode where
  id : NodeId
  peers : List NodeId
  config : RaftConfig
  rng : StdRng
  role : Role
  leaderId : Option NodeId
  currentTerm : ℕ
  votedFor : Option NodeId
  log : RaftLog
  commitIndex : ℕ
  lastApplied : ℕ
  progress : LeaderProgress
  votes : VoteTally
  electionElapsed : ℕ
  heartbeatElapsed : ℕ
  electionTimeout : ℕ
  outgoing : List Envelope
  committed : List Committed

namespace RaftNode

/-- Create a fresh follower. -/
def new (id : NodeId) (peers : List NodeId) (config : RaftConfig) (rng : StdRng) : RaftNode :=
  let draw := rng.genRange config.electionTimeoutMin config.electionTimeoutMax
  { id
    peers
    config
    rng := draw.2
    role := .follower
    leaderId := none
    currentTerm := 0
    votedFor := none
    log := RaftLog.new
    commitIndex := 0
    lastApplied := 0
    progress := LeaderProgress.default
    votes := VoteTally.empty
    electionElapsed := 0
    heartbeatElapsed := 0
    electionTimeout := draw.1
    outgoing := []
    committed := [] }

def isLeader (self : RaftNode) : Bool :=
  self.role == .leader

def clusterSize (self : RaftNode) : ℕ :=
  self.peers.length + 1

def majority (self : RaftNode) : ℕ :=
  self.clusterSize / 2 + 1

/-- Queue a message. -/
def send (self : RaftNode) (dst : NodeId) (message : Message) : RaftNode :=
  { self with outgoing := self.outgoing ++ [⟨dst, message⟩] }

def resetElectionTimer (self : RaftNode) : RaftNode :=
  let draw := self.rng.genRange self.config.electionTimeoutMin self.config.electionTimeoutMax
  { self with electionElapsed := 0, electionTimeout := draw.1, rng := draw.2 }

/-! ### Replication driving -/

/-- The message that `send_append` queues for `peer`: the entries from its next index on, or a
snapshot when these have been compacted away. The data of the snapshot is filled in by the
driver, which owns the state machine. -/
def appendFor (self : RaftNode) (peer : NodeId) : Message :=
  let next := self.progress.nextIndex peer
  if next ≤ self.log.snapshotIndex then
    .installSnapshot
      { term := self.currentTerm
        leaderId := self.id
        lastIncludedIndex := self.log.snapshotIndex
        -- the term of the last entry of the log, which need not be that of the snapshot
        lastIncludedTerm := self.log.lastTerm
        data := [] }
  else
    .appendEntries
      { term := self.currentTerm
        leaderId := self.id
        prevLogIndex := next - 1
        prevLogTerm := (self.log.termAt (next - 1)).getD 0
        entries := self.log.entriesFrom next
        leaderCommit := self.commitIndex }

def sendAppend (self : RaftNode) (peer : NodeId) : RaftNode :=
  self.send peer (self.appendFor peer)

def broadcastAppend (self : RaftNode) : RaftNode :=
  self.peers.foldl sendAppend self

/-- The number of replicas of entry `n` that the leader counts, itself included. -/
def replicas (self : RaftNode) (n : ℕ) : ℕ :=
  self.peers.foldl
    (fun count peer => if n ≤ self.progress.matchIndex peer then count + 1 else count) 1

/-- The loop of `advance_commit`, from `n` down to `commit_index + 1`: the commit index that it
leaves. -/
def commitFrom (self : RaftNode) : ℕ → ℕ
  | 0 => self.commitIndex
  | n + 1 =>
    if n + 1 ≤ self.commitIndex then self.commitIndex
    else if self.log.termAt (n + 1) ≠ some self.currentTerm then self.commitFrom n
    else if self.majority ≤ self.replicas (n + 1) then n + 1
    else self.commitFrom n

/-- Advance `commit_index` to the highest index replicated on a majority, but only for entries
from the current term. -/
def advanceCommit (self : RaftNode) : RaftNode :=
  if self.role ≠ .leader then self
  else { self with commitIndex := self.commitFrom self.log.lastIndex }

/-! ### Role transitions -/

def becomeFollower (self : RaftNode) (term : ℕ) (leader : Option NodeId) : RaftNode :=
  { self with
    currentTerm := term
    role := .follower
    -- the vote is given up also when the term stays the same
    votedFor := none
    leaderId := leader }.resetElectionTimer

/-- The first half of `become_leader`: the role, with nothing known yet about the peers. -/
def takeOffice (self : RaftNode) : RaftNode :=
  { self with
    role := .leader
    leaderId := some self.id
    progress := LeaderProgress.reset self.peers self.log.lastIndex
    heartbeatElapsed := 0 }

def becomeLeader (self : RaftNode) : RaftNode :=
  self.takeOffice.broadcastAppend.advanceCommit

/-- The first half of `become_candidate`: the new term with the node's own vote in it. -/
def standForElection (self : RaftNode) : RaftNode :=
  { self with
    role := .candidate
    currentTerm := self.currentTerm + 1
    votedFor := some self.id
    leaderId := none
    votes := VoteTally.empty.record self.id }.resetElectionTimer

/-- The second half of `become_candidate`: solicit the vote of every peer. -/
def requestVotes (self : RaftNode) : RaftNode :=
  let request : RequestVote :=
    { term := self.currentTerm
      candidateId := self.id
      lastLogIndex := self.log.lastIndex
      lastLogTerm := self.log.lastTerm }
  self.peers.foldl (fun node peer => node.send peer (.requestVote request)) self

/-- Start an election; a single-node cluster elects itself instantly. -/
def becomeCandidate (self : RaftNode) : RaftNode :=
  let node := self.standForElection
  if node.majority ≤ node.votes.count then node.becomeLeader else node.requestVotes

/-! ### RequestVote -/

/-- A candidate's log must be at least as up-to-date as ours. -/
def candidateIsUpToDate (self : RaftNode) (lastIndex lastTerm : ℕ) : Bool :=
  self.log.lastTerm < lastTerm ||
    (lastTerm == self.log.lastTerm && self.log.lastIndex ≤ lastIndex)

/-- The check of `handle_request_vote`: the request is not of an older term, no other candidate
has this node's vote, and the candidate's log is up to date. -/
def grantsVote (self : RaftNode) (m : RequestVote) : Bool :=
  self.currentTerm ≤ m.term &&
    (self.votedFor == none || self.votedFor == some m.candidateId) &&
    self.candidateIsUpToDate m.lastLogIndex m.lastLogTerm

def handleRequestVote (self : RaftNode) (m : RequestVote) : RaftNode :=
  let granted := self.grantsVote m
  let node :=
    if granted then { self with votedFor := some m.candidateId }.resetElectionTimer else self
  node.send m.candidateId
    (.requestVoteReply { term := node.currentTerm, voterId := node.id, voteGranted := granted })

def handleRequestVoteReply (self : RaftNode) (m : RequestVoteReply) : RaftNode :=
  if self.role ≠ .candidate ∨ m.term ≠ self.currentTerm then self
  else if m.voteGranted then
    let node := { self with votes := self.votes.record m.voterId }
    if node.majority ≤ node.votes.count then node.becomeLeader else node
  else self

/-! ### AppendEntries -/

/-- Point the leader at the start of the conflicting region. -/
def conflictHint (self : RaftNode) (prevLogIndex : ℕ) : ℕ :=
  if self.log.lastIndex < prevLogIndex then self.log.lastIndex + 1
  else max prevLogIndex self.log.firstIndex

def rejectAppend (self : RaftNode) (leaderId : NodeId) (conflictIndex : ℕ) : RaftNode :=
  self.send leaderId
    (.appendEntriesReply
      { term := self.currentTerm
        followerId := self.id
        success := false
        matchIndex := 0
        conflictIndex })

/-- The accepting branch of `handle_append_entries`: splice the entries into the log, follow the
leader's commit index up to the resulting last index, and report that last index. -/
def acceptAppend (self : RaftNode) (m : AppendEntries) : RaftNode :=
  let log := self.log.splice m.prevLogIndex m.entries
  -- this counts what the log had beyond the entries of the message, too
  let lastNewIndex := log.lastIndex
  { self with
    log
    commitIndex :=
      if self.commitIndex < m.leaderCommit then min m.leaderCommit lastNewIndex
      else self.commitIndex }.send m.leaderId
    (.appendEntriesReply
      { term := self.currentTerm
        followerId := self.id
        success := true
        matchIndex := lastNewIndex
        conflictIndex := 0 })

def handleAppendEntries (self : RaftNode) (m : AppendEntries) : RaftNode :=
  -- a stale leader is rejected and told our term
  if m.term < self.currentTerm then self.rejectAppend m.leaderId 0
  else
    -- a leader of this term, which the node follows whatever its own role is
    let node := self.becomeFollower m.term (some m.leaderId)
    if node.log.matches m.prevLogIndex m.prevLogTerm then node.acceptAppend m
    else node.rejectAppend m.leaderId (node.conflictHint m.prevLogIndex)

/-- `handle_append_entries_reply` after its guard, the reply being a success. -/
def recordMatch (self : RaftNode) (sender : NodeId) (index : ℕ) : RaftNode :=
  { self with
    progress := (self.progress.setMatchIndex sender index).setNextIndex sender (index + 1) }

def handleAppendEntriesReply (self : RaftNode) (sender : NodeId) (m : AppendEntriesReply) :
    RaftNode :=
  if self.role ≠ .leader ∨ m.term ≠ self.currentTerm then self
  else if m.success then (self.recordMatch sender m.matchIndex).advanceCommit
  else
    { self with
      progress := self.progress.setNextIndex sender (max m.conflictIndex 1) }.sendAppend sender

/-! ### InstallSnapshot -/

/-- The accepting branch of `handle_install_snapshot`. -/
def acceptSnapshot (self : RaftNode) (m : InstallSnapshot) : RaftNode :=
  { self with
    log := self.log.installSnapshot m.lastIncludedIndex m.lastIncludedTerm
    -- both indices go back if the snapshot is older than what the node has applied
    commitIndex := m.lastIncludedIndex
    lastApplied := m.lastIncludedIndex
    committed := self.committed ++ [Committed.snapshot m.data] }.send m.leaderId
    (.installSnapshotReply { term := self.currentTerm, followerId := self.id })

def handleInstallSnapshot (self : RaftNode) (m : InstallSnapshot) : RaftNode :=
  -- a stale leader gets no answer
  if m.term < self.currentTerm then self
  else (self.becomeFollower m.term (some m.leaderId)).acceptSnapshot m

def handleInstallSnapshotReply (self : RaftNode) (sender : NodeId) (m : InstallSnapshotReply) :
    RaftNode :=
  if self.role ≠ .leader ∨ m.term ≠ self.currentTerm then self
  -- the index is that of the leader's snapshot now, not of the one which the follower has installed
  else self.recordMatch sender self.log.snapshotIndex

/-! ### Applying -/

/-- One round of the loop of `apply_committed`; an entry that is not in the log is skipped. -/
def applyNext (self : RaftNode) : RaftNode :=
  let index := self.lastApplied + 1
  { self with
    lastApplied := index
    committed :=
      match self.log.get index with
      | some entry =>
        if entry.command = [] then self.committed
        else self.committed ++ [Committed.command index entry.command]
      | none => self.committed }

/-- `rounds` rounds of the loop of `apply_committed`. -/
def applyRounds : ℕ → RaftNode → RaftNode
  | 0, self => self
  | rounds + 1, self => applyRounds rounds self.applyNext

def maybeCompact (self : RaftNode) : RaftNode :=
  if self.config.snapshotThreshold ≤ self.lastApplied - self.log.snapshotIndex then
    { self with log := self.log.compact self.lastApplied }
  else self

/-- Apply everything up to the commit index, then compact the log if it has grown enough. -/
def applyCommitted (self : RaftNode) : RaftNode :=
  (applyRounds (self.commitIndex - self.lastApplied) self).maybeCompact

/-! ### The interface -/

/-- What `takeReady` hands out. -/
def ready (self : RaftNode) : Ready :=
  { messages := self.applyCommitted.outgoing, committed := self.applyCommitted.committed }

/-- The node after everything produced since the last call has been drained; what is drained is
`ready`. -/
def takeReady (self : RaftNode) : RaftNode :=
  { self.applyCommitted with outgoing := [], committed := [] }

/-- Advance logical time by one tick. -/
def tick (self : RaftNode) : RaftNode :=
  match self.role with
  | .leader =>
    let node := { self with heartbeatElapsed := self.heartbeatElapsed + 1 }
    if node.config.heartbeatTicks ≤ node.heartbeatElapsed then
      { node with heartbeatElapsed := 0 }.broadcastAppend
    else node
  | .follower | .candidate =>
    let node := { self with electionElapsed := self.electionElapsed + 1 }
    if node.electionTimeout ≤ node.electionElapsed then node.becomeCandidate else node

/-- The entry that a leader appends for a proposed command. -/
def newEntry (self : RaftNode) (command : List UInt8) : LogEntry :=
  { term := self.currentTerm, command }

/-- Propose a new command (leader only), with the assigned log index as the result. -/
def propose (self : RaftNode) (command : List UInt8) : Except NotLeader ℕ × RaftNode :=
  if self.role ≠ .leader then (.error { leader := self.leaderId }, self)
  else
    let node := { self with log := self.log.append [self.newEntry command] }
    (.ok node.log.lastIndex, node.broadcastAppend.advanceCommit)

/-- The universal rule: any message with a higher term forces us to step down. -/
def observeTerm (self : RaftNode) (term : ℕ) : RaftNode :=
  if self.currentTerm < term then self.becomeFollower term none else self

/-- Dispatch a message to its handler. -/
def handle (self : RaftNode) (sender : NodeId) : Message → RaftNode
  | .requestVote m => self.handleRequestVote m
  | .requestVoteReply m => self.handleRequestVoteReply m
  | .appendEntries m => self.handleAppendEntries m
  | .appendEntriesReply m => self.handleAppendEntriesReply sender m
  | .installSnapshot m => self.handleInstallSnapshot m
  | .installSnapshotReply m => self.handleInstallSnapshotReply sender m

/-- Handle an inbound message from a peer. -/
def step (self : RaftNode) (sender : NodeId) (message : Message) : RaftNode :=
  (self.observeTerm message.term).handle sender message

end RaftNode

end Ferrium
