import Ferrium.Lib.Checked
import Ferrium.Raft.FullLog
import Ferrium.Raft.Votes

/-!
# The arithmetic of a node on `u64`

The functions of `src/raft/log.rs`, `src/raft/state.rs` and `src/raft/node.rs` once more, with the
additions and subtractions as the source has them: on `u64`, in the places and in the order in which
they are executed. A function fails (`none`) if one of them leaves the range. Code without
arithmetic is that of `RaftNode`.

Each function is then compared with the one on natural numbers (`Checked.Exact`): when it fails, and
that it computes the same otherwise. A log whose last index fits into a `u64` can be read without a
fault.
-/

namespace Ferrium.U64

open Checked

/-- `u64::MAX`. -/
def maxValue : ℕ := 18446744073709551615

/-- Addition of two `u64`s. -/
def add (a b : ℕ) : Option ℕ :=
  Checked.add maxValue a b

/-! ### The log -/

def lastIndex (log : RaftLog) : Option ℕ :=
  add log.snapshotIndex log.entries.length

def firstIndex (log : RaftLog) : Option ℕ :=
  add log.snapshotIndex 1

/-- The position in `entries` that belongs to an index above the snapshot point. -/
def offset (log : RaftLog) (index : ℕ) : Option ℕ := do
  let above ← sub index log.snapshotIndex
  sub above 1

def get (log : RaftLog) (index : ℕ) : Option (Option LogEntry) :=
  if index ≤ log.snapshotIndex then some none
  else do
    let last ← lastIndex log
    if last < index then some none
    else do
      let position ← offset log index
      some log.entries[position]?

def termAt (log : RaftLog) (index : ℕ) : Option (Option ℕ) :=
  if index = log.snapshotIndex then some (some log.snapshotTerm)
  else do
    let entry ← get log index
    some (entry.map LogEntry.term)

/-- The new last index is the result. -/
def append (log : RaftLog) (newEntries : List LogEntry) : Option (ℕ × RaftLog) := do
  let last ← lastIndex (log.append newEntries)
  some (last, log.append newEntries)

def entriesFrom (log : RaftLog) (start : ℕ) : Option (List LogEntry) :=
  if start ≤ log.snapshotIndex then some log.entries
  else do
    let position ← offset log start
    some (log.entries.drop position)

def «matches» (log : RaftLog) (index term : ℕ) : Option Bool := do
  let known ← termAt log index
  some (match known with
    | some t => t == term
    | none => index == 0)

def truncateFrom (log : RaftLog) (index : ℕ) : Option RaftLog :=
  if index ≤ log.snapshotIndex then some { log with entries := [] }
  else do
    let position ← offset log index
    some { log with entries := log.entries.take position }

def spliceFrom (log : RaftLog) (next : ℕ) : List LogEntry → Option RaftLog
  | [] => some log
  | entry :: rest => do
    let term ← termAt log next
    if term = some entry.term then do
      -- the counter goes up after the last entry, too
      let following ← add next 1
      spliceFrom log following rest
    else do
      let truncated ← truncateFrom log next
      some { truncated with entries := truncated.entries ++ entry :: rest }

/-- The resulting last index is part of the result. -/
def splice (log : RaftLog) (prevIndex : ℕ) (incoming : List LogEntry) : Option (ℕ × RaftLog) := do
  let next ← add prevIndex 1
  let spliced ← spliceFrom log next incoming
  let last ← lastIndex spliced
  some (last, spliced)

def compact (log : RaftLog) (index : ℕ) : Option RaftLog :=
  if index ≤ log.snapshotIndex then some log
  else do
    let last ← lastIndex log
    if last < index then some log
    else do
      let term ← termAt log index
      let count ← sub index log.snapshotIndex
      some
        { entries := log.entries.drop count
          snapshotIndex := index
          snapshotTerm := term.getD log.snapshotTerm }

/-! ### The progress of the peers -/

/-- One round of the loop of `LeaderProgress::reset`. -/
def resetPeer (lastLogIndex : ℕ) (progress : LeaderProgress) (peer : NodeId) :
    Option LeaderProgress := do
  let next ← add lastLogIndex 1
  some ((progress.setNextIndex peer next).setMatchIndex peer 0)

def reset (peers : List NodeId) (lastLogIndex : ℕ) : Option LeaderProgress :=
  peers.foldlM (resetPeer lastLogIndex) LeaderProgress.default

/-! ### Replication driving -/

def sendAppend (self : RaftNode) (peer : NodeId) : Option RaftNode :=
  let next := self.progress.nextIndex peer
  -- a snapshot is sent without any arithmetic
  if next ≤ self.log.snapshotIndex then some (self.sendAppend peer)
  else do
    let prevIndex ← sub next 1
    let prevTerm ← termAt self.log prevIndex
    let entries ← entriesFrom self.log next
    some (self.send peer (.appendEntries
      { term := self.currentTerm
        leaderId := self.id
        prevLogIndex := prevIndex
        prevLogTerm := prevTerm.getD 0
        entries
        leaderCommit := self.commitIndex }))

def broadcastAppend (self : RaftNode) : Option RaftNode :=
  self.peers.foldlM sendAppend self

/-- The loop of `advance_commit`, from `n` down to `start`. -/
def commitFrom (self : RaftNode) (start : ℕ) : ℕ → Option ℕ
  | 0 => some self.commitIndex
  | n + 1 =>
    if n + 1 < start then some self.commitIndex
    else do
      let term ← termAt self.log (n + 1)
      if term ≠ some self.currentTerm then commitFrom self start n
      else if self.majority ≤ self.replicas (n + 1) then some (n + 1)
      else commitFrom self start n

def advanceCommit (self : RaftNode) : Option RaftNode :=
  if self.role ≠ .leader then some self
  else do
    let last ← lastIndex self.log
    -- the start of the range is computed even if the range is empty
    let start ← add self.commitIndex 1
    let commitIndex ← commitFrom self start last
    some { self with commitIndex }

/-! ### Role transitions -/

def becomeLeader (self : RaftNode) : Option RaftNode := do
  let last ← lastIndex self.log
  let progress ← reset self.peers last
  let node ← broadcastAppend
    { self with role := .leader, leaderId := some self.id, progress, heartbeatElapsed := 0 }
  advanceCommit node

def becomeCandidate (self : RaftNode) : Option RaftNode := do
  let currentTerm ← add self.currentTerm 1
  let node := { self with
    role := .candidate
    currentTerm
    votedFor := some self.id
    leaderId := none
    votes := VoteTally.empty.record self.id }.resetElectionTimer
  if node.majority ≤ node.votes.count then becomeLeader node
  else do
    let lastLogIndex ← lastIndex node.log
    let request : RequestVote :=
      { term := node.currentTerm
        candidateId := node.id
        lastLogIndex
        lastLogTerm := node.log.lastTerm }
    some (node.peers.foldl (fun node peer => node.send peer (.requestVote request)) node)

/-! ### RequestVote -/

def candidateIsUpToDate (self : RaftNode) (index term : ℕ) : Option Bool := do
  let last ← lastIndex self.log
  some (self.log.lastTerm < term || (term == self.log.lastTerm && last ≤ index))

def grantsVote (self : RaftNode) (m : RequestVote) : Option Bool :=
  -- the log is looked at only if the vote is free
  if self.currentTerm ≤ m.term ∧ (self.votedFor = none ∨ self.votedFor = some m.candidateId) then
    candidateIsUpToDate self m.lastLogIndex m.lastLogTerm
  else some false

def handleRequestVote (self : RaftNode) (m : RequestVote) : Option RaftNode := do
  let granted ← grantsVote self m
  let node :=
    if granted then { self with votedFor := some m.candidateId }.resetElectionTimer else self
  some (node.send m.candidateId
    (.requestVoteReply { term := node.currentTerm, voterId := node.id, voteGranted := granted }))

def handleRequestVoteReply (self : RaftNode) (m : RequestVoteReply) : Option RaftNode :=
  if self.role ≠ .candidate ∨ m.term ≠ self.currentTerm then some self
  else if m.voteGranted then
    let node := { self with votes := self.votes.record m.voterId }
    if node.majority ≤ node.votes.count then becomeLeader node else some node
  else some self

/-! ### AppendEntries -/

def conflictHint (self : RaftNode) (prevLogIndex : ℕ) : Option ℕ := do
  let last ← lastIndex self.log
  if last < prevLogIndex then add last 1
  else do
    let first ← firstIndex self.log
    some (max prevLogIndex first)

/-- The accepting branch of `handle_append_entries`. -/
def acceptAppend (self : RaftNode) (m : AppendEntries) : Option RaftNode := do
  let (lastNewIndex, log) ← splice self.log m.prevLogIndex m.entries
  some ({ self with
    log
    commitIndex :=
      if self.commitIndex < m.leaderCommit then min m.leaderCommit lastNewIndex
      else self.commitIndex }.send m.leaderId
    (.appendEntriesReply
      { term := self.currentTerm
        followerId := self.id
        success := true
        matchIndex := lastNewIndex
        conflictIndex := 0 }))

def handleAppendEntries (self : RaftNode) (m : AppendEntries) : Option RaftNode :=
  if m.term < self.currentTerm then some (self.rejectAppend m.leaderId 0)
  else do
    let node := self.becomeFollower m.term (some m.leaderId)
    let matching ← «matches» node.log m.prevLogIndex m.prevLogTerm
    if matching then acceptAppend node m
    else do
      let conflict ← conflictHint node m.prevLogIndex
      some (node.rejectAppend m.leaderId conflict)

def recordMatch (self : RaftNode) (sender : NodeId) (index : ℕ) : Option RaftNode := do
  let next ← add index 1
  some { self with
    progress := (self.progress.setMatchIndex sender index).setNextIndex sender next }

def handleAppendEntriesReply (self : RaftNode) (sender : NodeId) (m : AppendEntriesReply) :
    Option RaftNode :=
  if self.role ≠ .leader ∨ m.term ≠ self.currentTerm then some self
  else if m.success then do
    let node ← recordMatch self sender m.matchIndex
    advanceCommit node
  else
    sendAppend
      { self with progress := self.progress.setNextIndex sender (max m.conflictIndex 1) } sender

/-! ### InstallSnapshot -/

def handleInstallSnapshotReply (self : RaftNode) (sender : NodeId) (m : InstallSnapshotReply) :
    Option RaftNode :=
  if self.role ≠ .leader ∨ m.term ≠ self.currentTerm then some self
  else recordMatch self sender self.log.snapshotIndex

/-! ### Applying -/

def applyNext (self : RaftNode) : Option RaftNode := do
  let index ← add self.lastApplied 1
  let entry ← get self.log index
  some { self with
    lastApplied := index
    committed :=
      match entry with
      | some entry =>
        if entry.command = [] then self.committed
        else self.committed ++ [Committed.command index entry.command]
      | none => self.committed }

def applyRounds : ℕ → RaftNode → Option RaftNode
  | 0, self => some self
  | rounds + 1, self => do
    let node ← applyNext self
    applyRounds rounds node

/-- The subtraction of `maybe_compact` saturates, as that of natural numbers does. -/
def maybeCompact (self : RaftNode) : Option RaftNode :=
  if self.config.snapshotThreshold ≤ self.lastApplied - self.log.snapshotIndex then do
    let log ← compact self.log self.lastApplied
    some { self with log }
  else some self

/-- The loop goes on while `last_applied < commit_index`. -/
def applyCommitted (self : RaftNode) : Option RaftNode := do
  let node ← applyRounds (self.commitIndex - self.lastApplied) self
  maybeCompact node

/-! ### The interface -/

def takeReady (self : RaftNode) : Option RaftNode := do
  let node ← applyCommitted self
  some { node with outgoing := [], committed := [] }

def tick (self : RaftNode) : Option RaftNode :=
  match self.role with
  | .leader => do
    let heartbeatElapsed ← add self.heartbeatElapsed 1
    if self.config.heartbeatTicks ≤ heartbeatElapsed then
      broadcastAppend { self with heartbeatElapsed := 0 }
    else some { self with heartbeatElapsed }
  | .follower | .candidate => do
    let electionElapsed ← add self.electionElapsed 1
    if self.electionTimeout ≤ electionElapsed then becomeCandidate { self with electionElapsed }
    else some { self with electionElapsed }

def propose (self : RaftNode) (command : List UInt8) : Option (Except NotLeader ℕ × RaftNode) :=
  if self.role ≠ .leader then some (.error { leader := self.leaderId }, self)
  else do
    let (index, log) ← append self.log [self.newEntry command]
    let node ← broadcastAppend { self with log }
    let node ← advanceCommit node
    some (.ok index, node)

def handle (self : RaftNode) (sender : NodeId) : Message → Option RaftNode
  | .requestVote m => handleRequestVote self m
  | .requestVoteReply m => handleRequestVoteReply self m
  | .appendEntries m => handleAppendEntries self m
  | .appendEntriesReply m => handleAppendEntriesReply self sender m
  | .installSnapshot m => some (self.handleInstallSnapshot m)
  | .installSnapshotReply m => handleInstallSnapshotReply self sender m

def step (self : RaftNode) (sender : NodeId) (message : Message) : Option RaftNode :=
  handle (self.observeTerm message.term) sender message

/-- The node after a call. -/
def input (self : RaftNode) : Input → Option RaftNode
  | .tick => tick self
  | .propose command => (propose self command).map Prod.snd
  | .takeReady => takeReady self
  | .step sender message => step self sender message

/-- The node after a sequence of calls. -/
def after (self : RaftNode) (inputs : List Input) : Option RaftNode :=
  inputs.foldlM input self

/-! ### Reading and changing a log -/

section Log

variable {log : RaftLog}

theorem lastIndex_eq (h : log.lastIndex ≤ maxValue) : lastIndex log = some log.lastIndex :=
  add_eq h

theorem exact_lastIndex (log : RaftLog) :
    Exact (lastIndex log) (maxValue < log.lastIndex) log.lastIndex :=
  exact_add _ _ _

theorem offset_eq {index : ℕ} (h : log.snapshotIndex < index) :
    offset log index = some (index - log.snapshotIndex - 1) := by
  unfold offset
  rw [sub_eq h.le]
  exact sub_eq (by omega)

theorem get_eq (h : log.lastIndex ≤ maxValue) (index : ℕ) :
    get log index = some (log.get index) := by
  unfold get RaftLog.get
  by_cases hle : index ≤ log.snapshotIndex
  · rw [if_pos hle, if_pos (Or.inl hle)]
  · rw [if_neg hle, lastIndex_eq h]
    by_cases hlt : log.lastIndex < index
    · rw [if_pos (Or.inr hlt)]
      exact if_pos hlt
    · rw [if_neg (not_or.mpr ⟨hle, hlt⟩)]
      refine (if_neg hlt).trans ?_
      rw [offset_eq (not_le.mp hle)]
      rfl

theorem termAt_eq (h : log.lastIndex ≤ maxValue) (index : ℕ) :
    termAt log index = some (log.termAt index) := by
  unfold termAt RaftLog.termAt
  split
  · rfl
  · rw [get_eq h]
    rfl

theorem entriesFrom_eq (log : RaftLog) (start : ℕ) :
    entriesFrom log start = some (log.entriesFrom start) := by
  unfold entriesFrom RaftLog.entriesFrom
  split
  · rfl
  · next hlt =>
    rw [offset_eq (not_le.mp hlt)]
    rfl

theorem matches_eq (h : log.lastIndex ≤ maxValue) (index term : ℕ) :
    «matches» log index term = some (log.matches index term) := by
  unfold «matches» RaftLog.matches
  rw [termAt_eq h]
  rfl

theorem truncateFrom_eq (log : RaftLog) (index : ℕ) :
    truncateFrom log index = some (log.truncateFrom index) := by
  unfold truncateFrom RaftLog.truncateFrom
  split
  · rfl
  · next hlt =>
    rw [offset_eq (not_le.mp hlt)]
    rfl

theorem compact_eq (h : log.lastIndex ≤ maxValue) (index : ℕ) :
    compact log index = some (log.compact index) := by
  unfold compact RaftLog.compact
  by_cases hle : index ≤ log.snapshotIndex
  · rw [if_pos hle, if_pos (Or.inl hle)]
  · rw [if_neg hle, lastIndex_eq h]
    by_cases hlt : log.lastIndex < index
    · rw [if_pos (Or.inr hlt)]
      exact if_pos hlt
    · rw [if_neg (not_or.mpr ⟨hle, hlt⟩)]
      refine (if_neg hlt).trans ?_
      rw [termAt_eq h, sub_eq (not_le.mp hle).le]
      rfl

theorem exact_append (log : RaftLog) (newEntries : List LogEntry) :
    Exact (append log newEntries) (maxValue < (log.append newEntries).lastIndex)
      ((log.append newEntries).lastIndex, log.append newEntries) :=
  (exact_lastIndex _).bind_some

/-- So many of the incoming entries agree with the log that the loop of `splice` counts beyond the
range. -/
def CountsBeyond (log : RaftLog) (next : ℕ) (incoming : List LogEntry) : Prop :=
  ∃ k ≤ incoming.length, maxValue < next + k ∧ log.agreesFrom next (incoming.take k)

theorem countsBeyond_cons {next : ℕ} (hnext : next ≤ maxValue) (entry : LogEntry)
    (rest : List LogEntry) :
    CountsBeyond log next (entry :: rest) ↔
      log.termAt next = some entry.term ∧ CountsBeyond log (next + 1) rest := by
  constructor
  · rintro ⟨k, hk, hlt, hagree⟩
    cases k with
    | zero => omega
    | succ k =>
      refine ⟨hagree.1, k, Nat.le_of_succ_le_succ hk, ?_, hagree.2⟩
      omega
  · rintro ⟨hterm, k, hk, hlt, hagree⟩
    exact ⟨k + 1, Nat.succ_le_succ hk, by omega, hterm, hagree⟩

theorem exact_spliceFrom (h : log.lastIndex ≤ maxValue) {next : ℕ} (hnext : next ≤ maxValue)
    (incoming : List LogEntry) :
    Exact (spliceFrom log next incoming) (CountsBeyond log next incoming)
      (log.spliceFrom next incoming) := by
  induction incoming generalizing next with
  | nil =>
    refine (exact_of_eq rfl).congr (iff_of_false id ?_)
    rintro ⟨k, hk, hlt, -⟩
    have : k = 0 := Nat.le_zero.mp hk
    omega
  | cons entry rest ih =>
    rw [spliceFrom, termAt_eq h, RaftLog.spliceFrom, countsBeyond_cons hnext]
    by_cases hagree : log.termAt next = some entry.term
    · -- the entry is skipped, and the counter goes up
      rw [if_pos hagree]
      show Exact (if log.termAt next = some entry.term then _ else _) _ _
      rw [if_pos hagree]
      refine ((exact_add_one maxValue next).bind fun hlt => ih (not_le.mp hlt)).congr ?_
      constructor
      · rintro (hle | hbeyond)
        · exact ⟨hagree, 0, Nat.zero_le _, by omega, trivial⟩
        · exact ⟨hagree, hbeyond⟩
      · exact fun hbeyond => Or.inr hbeyond.2
    · rw [if_neg hagree]
      show Exact (if log.termAt next = some entry.term then _ else _) _ _
      rw [if_neg hagree, truncateFrom_eq]
      exact (exact_of_eq rfl).congr (iff_of_false id fun hbeyond => hagree hbeyond.1)

/-- A splice fails if its counter or the last index that it leads to are out of the range. -/
theorem exact_splice (h : log.lastIndex ≤ maxValue) (prev : ℕ) (incoming : List LogEntry) :
    Exact (splice log prev incoming)
      (CountsBeyond log (prev + 1) incoming ∨ maxValue < (log.splice prev incoming).lastIndex)
      ((log.splice prev incoming).lastIndex, log.splice prev incoming) := by
  unfold splice
  refine Exact.congr (Exact.bind (exact_add_one maxValue prev) fun hlt =>
    Exact.bind (exact_spliceFrom h (not_le.mp hlt) incoming) fun _ =>
      (exact_lastIndex (log.splice prev incoming)).bind_some) ?_
  constructor
  · rintro (hle | hrest)
    · exact Or.inl ⟨0, Nat.zero_le _, by omega, trivial⟩
    · exact hrest
  · exact Or.inr

end Log

end Ferrium.U64
