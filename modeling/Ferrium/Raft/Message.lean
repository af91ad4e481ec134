import Ferrium.Raft.Log

/-!
# Raft RPC messages

Embedding of `src/raft/message.rs`, with the addressed `Envelope` of `src/raft/node.rs` and the
`KeyValue` pairs of `src/storage/engine.rs` that a snapshot carries.
-/

namespace Ferrium

/-- A node identifier. -/
abbrev NodeId := String

/-- One key/value pair, used when taking and restoring snapshots. -/
abbrev KeyValue := String × List UInt8

/-- A candidate solicits a vote. -/
structure RequestVote where
  term : ℕ
  candidateId : NodeId
  lastLogIndex : ℕ
  lastLogTerm : ℕ
  deriving DecidableEq, Repr

/-- A voter's answer to `RequestVote`. -/
structure RequestVoteReply where
  term : ℕ
  voterId : NodeId
  voteGranted : Bool
  deriving DecidableEq, Repr

/-- The leader replicates entries (no entries: a heartbeat). -/
structure AppendEntries where
  term : ℕ
  leaderId : NodeId
  prevLogIndex : ℕ
  prevLogTerm : ℕ
  entries : List LogEntry
  leaderCommit : ℕ
  deriving DecidableEq, Repr

/-- A follower's answer to `AppendEntries`. -/
structure AppendEntriesReply where
  term : ℕ
  followerId : NodeId
  success : Bool
  /-- On success, the highest index now stored by the follower. -/
  matchIndex : ℕ
  /-- On failure, a hint about where the follower's log diverges. -/
  conflictIndex : ℕ
  deriving DecidableEq, Repr

/-- The leader ships a snapshot to a follower whose needed entries were compacted away. -/
structure InstallSnapshot where
  term : ℕ
  leaderId : NodeId
  lastIncludedIndex : ℕ
  lastIncludedTerm : ℕ
  data : List KeyValue
  deriving DecidableEq, Repr

/-- A follower's answer to `InstallSnapshot`. -/
structure InstallSnapshotReply where
  term : ℕ
  followerId : NodeId
  deriving DecidableEq, Repr

/-- Any message that can travel over the Raft transport. -/
inductive Message
  | requestVote (m : RequestVote)
  | requestVoteReply (m : RequestVoteReply)
  | appendEntries (m : AppendEntries)
  | appendEntriesReply (m : AppendEntriesReply)
  | installSnapshot (m : InstallSnapshot)
  | installSnapshotReply (m : InstallSnapshotReply)
  deriving DecidableEq, Repr

/-- The sender's term, present on every message. -/
def Message.term : Message → ℕ
  | .requestVote m => m.term
  | .requestVoteReply m => m.term
  | .appendEntries m => m.term
  | .appendEntriesReply m => m.term
  | .installSnapshot m => m.term
  | .installSnapshotReply m => m.term

/-- The node that every message names as its sender. -/
def Message.author : Message → NodeId
  | .requestVote m => m.candidateId
  | .requestVoteReply m => m.voterId
  | .appendEntries m => m.leaderId
  | .appendEntriesReply m => m.followerId
  | .installSnapshot m => m.leaderId
  | .installSnapshotReply m => m.followerId

/-- Put the contents of the state machine into an `InstallSnapshot`, which the Raft core emits with
empty data; any other message stays as it is. This is `fill_snapshot` of the driver, which owns
the state machine. -/
def Message.fillSnapshot (data : List KeyValue) : Message → Message
  | .installSnapshot m => .installSnapshot { m with data }
  | message => message

/-- A message addressed to a specific peer. -/
structure Envelope where
  /-- The field `to` of the source. -/
  dst : NodeId
  message : Message
  deriving DecidableEq, Repr

/-- The vote that a message stands for, as a term and a candidate: a request is the candidate's
vote for itself, a granting reply the vote for its receiver. -/
def Envelope.ballot (env : Envelope) : Option (ℕ × NodeId) :=
  match env.message with
  | .requestVote m => some (m.term, m.candidateId)
  | .requestVoteReply m => if m.voteGranted then some (m.term, env.dst) else none
  | _ => none

@[simp]
theorem Message.author_fillSnapshot (data : List KeyValue) (message : Message) :
    (message.fillSnapshot data).author = message.author := by
  cases message <;> rfl

@[simp]
theorem Envelope.ballot_fillSnapshot (data : List KeyValue) (dst : NodeId) (message : Message) :
    (Envelope.mk dst (message.fillSnapshot data)).ballot = (Envelope.mk dst message).ballot := by
  cases message <;> rfl

end Ferrium
