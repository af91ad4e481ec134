import Ferrium.Raft.Checked
import Ferrium.Raft.Inputs
import Ferrium.Raft.Terms

/-!
# When the arithmetic of a node overflows

The messages that a node receives carry any `u64`s, which it takes over as terms and indices and
later counts on from. `Overflows` lists the calls in which one of its additions is then out of the
range; no subtraction ever is. In all other calls the node on `u64` does what the node on natural
numbers does, which the rest of this development is about.

## Main results

* `U64.exact_input`: a call fails if and only if it is one of those that overflow;
* `U64.after_new`: the same for whole runs, whatever calls a new node gets;
* `U64.guarded_of_room`: nothing overflows in a run whose numbers stay below `u64::MAX`;
* `U64.after_fresh_overflows`: messages that make a node overflow.
-/

namespace Ferrium.U64

open Checked RaftNode

variable {n : RaftNode}

/-! ### Sending -/

theorem sendAppend_eq (h : n.log.lastIndex ≤ maxValue) (peer : NodeId) :
    sendAppend n peer = some (n.sendAppend peer) := by
  unfold sendAppend
  dsimp only
  split
  · rfl
  · next hlt =>
    rw [sub_eq (by omega), entriesFrom_eq]
    simp only [Option.bind_eq_bind, Option.bind_some, termAt_eq h]
    rw [RaftNode.sendAppend, appendFor, if_neg hlt]

theorem broadcastAppend_eq (h : n.log.lastIndex ≤ maxValue) :
    broadcastAppend n = some n.broadcastAppend :=
  foldlM_eq_some (fun node => node.log.lastIndex ≤ maxValue)
    (fun _ peer hnode => ⟨sendAppend_eq hnode peer, hnode⟩) h n.peers

/-! ### The commit rule -/

theorem commitFrom_eq (h : n.log.lastIndex ≤ maxValue) (k : ℕ) :
    commitFrom n (n.commitIndex + 1) k = some (n.commitFrom k) := by
  induction k with
  | zero => rfl
  | succ k ih =>
    rw [commitFrom, RaftNode.commitFrom, termAt_eq h]
    simp only [Nat.lt_succ_iff, Option.bind_eq_bind, Option.bind_some, ih]
    split
    · rfl
    · split
      · rfl
      · split <;> rfl

theorem exact_advanceCommit (h : n.log.lastIndex ≤ maxValue) :
    Exact (advanceCommit n) (n.role = .leader ∧ maxValue ≤ n.commitIndex) n.advanceCommit := by
  unfold advanceCommit RaftNode.advanceCommit
  refine Exact.congr (Exact.some_ite fun _ => Exact.bind_of_eq (lastIndex_eq h)
    (Exact.bind (exact_add_one maxValue n.commitIndex) fun _ =>
      (exact_of_eq (commitFrom_eq h n.log.lastIndex)).bind_some)) ?_
  simp

/-! ### Role transitions -/

theorem foldl_resetPeer (peers : List NodeId) (last : ℕ) (progress : LeaderProgress) :
    peers.foldl
        (fun progress peer => (progress.setNextIndex peer (last + 1)).setMatchIndex peer 0)
        progress =
      { nextIndexMap := fun peer =>
          if peer ∈ peers then some (last + 1) else progress.nextIndexMap peer
        matchIndexMap := fun peer =>
          if peer ∈ peers then some 0 else progress.matchIndexMap peer } := by
  induction peers generalizing progress with
  | nil => simp
  | cons peer peers ih =>
    rw [List.foldl_cons, ih]
    congr 1
    all_goals
      funext p
      by_cases hp : p = peer <;>
        simp [hp, LeaderProgress.setNextIndex, LeaderProgress.setMatchIndex]

theorem exact_resetPeer (last : ℕ) (progress : LeaderProgress) (peer : NodeId) :
    Exact (resetPeer last progress peer) (maxValue ≤ last)
      ((progress.setNextIndex peer (last + 1)).setMatchIndex peer 0) :=
  (exact_add_one maxValue last).bind_some

/-- The next index of a peer is one more than the last index of the log, which needs a peer to be
out of the range. -/
theorem exact_reset (peers : List NodeId) (last : ℕ) :
    Exact (reset peers last) (peers ≠ [] ∧ maxValue ≤ last) (LeaderProgress.reset peers last) where
  fails := by
    rintro ⟨hne, hle⟩
    obtain ⟨peer, peers, rfl⟩ := List.exists_cons_of_ne_nil hne
    rw [reset, List.foldlM_cons, (exact_resetPeer last _ peer).fails hle]
    rfl
  result hfault := by
    by_cases hle : maxValue ≤ last
    · obtain rfl : peers = [] := by_contra fun hne => hfault ⟨hne, hle⟩
      rfl
    · have hrounds : reset peers last = _ :=
        foldlM_eq_some (fun _ => True)
          (fun progress peer _ => ⟨(exact_resetPeer last progress peer).result hle, trivial⟩)
          trivial peers
      rw [hrounds, foldl_resetPeer]
      rfl

/-- A new leader counts one beyond its log for its peers, and one beyond its commit index. -/
theorem exact_becomeLeader (h : n.log.lastIndex ≤ maxValue) :
    Exact (becomeLeader n)
      (n.peers ≠ [] ∧ maxValue ≤ n.log.lastIndex ∨ maxValue ≤ n.commitIndex) n.becomeLeader := by
  have hlog : n.takeOffice.broadcastAppend.log = n.log := by
    rw [RaftNode.broadcastAppend_eq]
    rfl
  have hcommit : n.takeOffice.broadcastAppend.commitIndex = n.commitIndex := by
    rw [RaftNode.broadcastAppend_eq]
    rfl
  have hrole : n.takeOffice.broadcastAppend.role = .leader := by
    rw [RaftNode.broadcastAppend_eq]
    rfl
  have hoffice : Exact (broadcastAppend n.takeOffice >>= advanceCommit)
      (maxValue ≤ n.commitIndex) n.becomeLeader := by
    have hlast : n.takeOffice.log.lastIndex ≤ maxValue := h
    refine Exact.bind_of_eq (broadcastAppend_eq hlast)
      ((exact_advanceCommit (hlog ▸ h)).congr ?_)
    rw [hcommit, hrole]
    exact and_iff_right rfl
  unfold becomeLeader
  exact Exact.bind_of_eq (lastIndex_eq h)
    (Exact.bind (exact_reset n.peers n.log.lastIndex) fun _ => hoffice)

/-- The candidate's own vote elects it if and only if it has no peers. -/
theorem majority_standForElection_iff :
    n.standForElection.majority ≤ n.standForElection.votes.count ↔ n.peers = [] := by
  constructor
  · exact peers_eq_nil_of_majority
  · intro hpeers
    have hpeers' : n.standForElection.peers = [] := hpeers
    rw [majority, clusterSize, hpeers']
    exact Nat.le_refl 1

theorem exact_becomeCandidate (h : n.log.lastIndex ≤ maxValue) :
    Exact (becomeCandidate n)
      (maxValue ≤ n.currentTerm ∨ n.peers = [] ∧ maxValue ≤ n.commitIndex)
      n.becomeCandidate := by
  have hstand : n.standForElection.log.lastIndex ≤ maxValue := h
  have hwin : Exact (becomeLeader n.standForElection)
      (n.peers ≠ [] ∧ maxValue ≤ n.log.lastIndex ∨ maxValue ≤ n.commitIndex)
      n.standForElection.becomeLeader := exact_becomeLeader hstand
  unfold becomeCandidate
  refine Exact.congr (Exact.bind (exact_add_one maxValue n.currentTerm) fun _ =>
    Exact.ite (p := n.standForElection.majority ≤ n.standForElection.votes.count)
      (fun _ => hwin) fun _ => (exact_of_eq (lastIndex_eq hstand)).bind_some) ?_
  -- there are peers to count for, or the vote is the only one
  rw [majority_standForElection_iff]
  grind

/-! ### The handlers -/

theorem grantsVote_eq (h : n.log.lastIndex ≤ maxValue) (m : RequestVote) :
    grantsVote n m = some (n.grantsVote m) := by
  unfold grantsVote candidateIsUpToDate
  rw [lastIndex_eq h]
  split
  · next hmay =>
    obtain ⟨hterm, hfree⟩ := hmay
    simp [RaftNode.grantsVote, RaftNode.candidateIsUpToDate, hterm, hfree]
  · next hmay =>
    have hrefused : n.grantsVote m = false := by
      simp only [RaftNode.grantsVote, Bool.and_eq_false_iff]
      refine Or.inl ?_
      rw [← Bool.and_eq_false_iff, ← Bool.not_eq_true]
      simpa using hmay
    rw [hrefused]

theorem handleRequestVote_eq (h : n.log.lastIndex ≤ maxValue) (m : RequestVote) :
    handleRequestVote n m = some (n.handleRequestVote m) := by
  unfold handleRequestVote
  rw [grantsVote_eq h]
  rfl

/-- The vote makes the node the leader. -/
structure Elects (n : RaftNode) (m : RequestVoteReply) : Prop where
  role : n.role = .candidate
  term : m.term = n.currentTerm
  granted : m.voteGranted = true
  majority : n.majority ≤ (n.votes.record m.voterId).count

theorem exact_handleRequestVoteReply (h : n.log.lastIndex ≤ maxValue) (m : RequestVoteReply) :
    Exact (handleRequestVoteReply n m)
      (Elects n m ∧ (n.peers ≠ [] ∧ maxValue ≤ n.log.lastIndex ∨ maxValue ≤ n.commitIndex))
      (n.handleRequestVoteReply m) := by
  have hwin : Exact (becomeLeader { n with votes := n.votes.record m.voterId })
      (n.peers ≠ [] ∧ maxValue ≤ n.log.lastIndex ∨ maxValue ≤ n.commitIndex)
      { n with votes := n.votes.record m.voterId }.becomeLeader := exact_becomeLeader h
  unfold handleRequestVoteReply RaftNode.handleRequestVoteReply
  refine Exact.congr (Exact.some_ite fun _ => Exact.ite_some fun _ =>
    Exact.ite_some (p := n.majority ≤ (n.votes.record m.voterId).count) fun _ => hwin) ?_
  simp only [not_or, not_not]
  constructor
  · rintro ⟨⟨hrole, hterm⟩, hgranted, hmajority, hfault⟩
    exact ⟨⟨hrole, hterm, hgranted, hmajority⟩, hfault⟩
  · rintro ⟨⟨hrole, hterm, hgranted, hmajority⟩, hfault⟩
    exact ⟨⟨hrole, hterm⟩, hgranted, hmajority, hfault⟩

/-- The first index is computed only when the leader's previous index is in the log. -/
theorem exact_conflictHint (h : n.log.lastIndex ≤ maxValue) {prev : ℕ} (hprev : prev ≤ maxValue) :
    Exact (conflictHint n prev) (prev ≤ n.log.lastIndex ∧ maxValue ≤ n.log.snapshotIndex)
      (n.conflictHint prev) := by
  unfold conflictHint RaftNode.conflictHint
  refine Exact.bind_of_eq (lastIndex_eq h) (Exact.congr
    (Exact.ite (fun _ => exact_add_one maxValue n.log.lastIndex) fun _ =>
      (exact_add_one maxValue n.log.snapshotIndex).bind_some) ?_)
  constructor
  · rintro (⟨hlt, hle⟩ | ⟨hge, hle⟩)
    · -- one more than the last index is still not beyond the index that the leader named
      exact absurd (hlt.trans_le hprev) (not_lt.mpr hle)
    · exact ⟨not_lt.mp hge, hle⟩
  · rintro ⟨hge, hle⟩
    exact Or.inr ⟨not_lt.mpr hge, hle⟩

/-- What goes wrong when an AppendEntries is received that is not of an older term. -/
def AppendFault (log : RaftLog) (m : AppendEntries) : Prop :=
  log.matches m.prevLogIndex m.prevLogTerm = true ∧
      (CountsBeyond log (m.prevLogIndex + 1) m.entries ∨
        maxValue < (log.splice m.prevLogIndex m.entries).lastIndex) ∨
    ¬log.matches m.prevLogIndex m.prevLogTerm = true ∧
      m.prevLogIndex ≤ log.lastIndex ∧ maxValue ≤ log.snapshotIndex

theorem exact_handleAppendEntries (h : n.log.lastIndex ≤ maxValue) {m : AppendEntries}
    (hprev : m.prevLogIndex ≤ maxValue) :
    Exact (handleAppendEntries n m) (n.currentTerm ≤ m.term ∧ AppendFault n.log m)
      (n.handleAppendEntries m) := by
  have hnode : (n.becomeFollower m.term (some m.leaderId)).log.lastIndex ≤ maxValue := h
  unfold handleAppendEntries RaftNode.handleAppendEntries
  refine Exact.congr (Exact.some_ite fun _ =>
    Exact.bind_of_eq (matches_eq hnode m.prevLogIndex m.prevLogTerm)
      (Exact.ite (fun _ => (exact_splice hnode m.prevLogIndex m.entries).bind_some) fun _ =>
        (exact_conflictHint hnode hprev).bind_some)) ?_
  exact and_congr_left' not_lt

theorem exact_recordMatch (n : RaftNode) (sender : NodeId) (index : ℕ) :
    Exact (recordMatch n sender index) (maxValue ≤ index) (n.recordMatch sender index) :=
  (exact_add_one maxValue index).bind_some

theorem exact_handleAppendEntriesReply (h : n.log.lastIndex ≤ maxValue) (sender : NodeId)
    (m : AppendEntriesReply) :
    Exact (handleAppendEntriesReply n sender m)
      ((n.role = .leader ∧ m.term = n.currentTerm) ∧ m.success = true ∧
        (maxValue ≤ m.matchIndex ∨ maxValue ≤ n.commitIndex))
      (n.handleAppendEntriesReply sender m) := by
  have hnode : (n.recordMatch sender m.matchIndex).log.lastIndex ≤ maxValue := h
  have hretry : { n with
      progress := n.progress.setNextIndex sender (max m.conflictIndex 1) }.log.lastIndex ≤
        maxValue := h
  unfold handleAppendEntriesReply RaftNode.handleAppendEntriesReply
  rw [sendAppend_eq hretry]
  refine Exact.congr (Exact.some_ite fun _ => Exact.ite_some fun _ =>
    Exact.bind (exact_recordMatch n sender m.matchIndex) fun _ => exact_advanceCommit hnode) ?_
  simp only [not_or, not_not]
  constructor
  · rintro ⟨hguard, hsuccess, hfault⟩
    exact ⟨hguard, hsuccess, hfault.imp_right And.right⟩
  · rintro ⟨hguard, hsuccess, hfault⟩
    exact ⟨hguard, hsuccess, hfault.imp_right fun hcommit => ⟨hguard.1, hcommit⟩⟩

theorem exact_handleInstallSnapshotReply (n : RaftNode) (sender : NodeId)
    (m : InstallSnapshotReply) :
    Exact (handleInstallSnapshotReply n sender m)
      ((n.role = .leader ∧ m.term = n.currentTerm) ∧ maxValue ≤ n.log.snapshotIndex)
      (n.handleInstallSnapshotReply sender m) := by
  unfold handleInstallSnapshotReply RaftNode.handleInstallSnapshotReply
  refine Exact.congr (Exact.some_ite fun _ =>
    exact_recordMatch n sender n.log.snapshotIndex) ?_
  simp only [not_or, not_not]

/-! ### Applying -/

theorem applyNext_eq (h : n.log.lastIndex ≤ maxValue) (hlt : n.lastApplied < maxValue) :
    applyNext n = some n.applyNext := by
  unfold applyNext
  rw [show add n.lastApplied 1 = some (n.lastApplied + 1) from add_eq hlt]
  simp only [Option.bind_eq_bind, Option.bind_some, get_eq h]
  rfl

theorem applyRounds_eq (rounds : ℕ) (h : n.log.lastIndex ≤ maxValue)
    (hrounds : 0 < rounds → n.lastApplied + rounds ≤ maxValue) :
    applyRounds rounds n = some (n.applyRounds rounds) := by
  induction rounds generalizing n with
  | zero => rfl
  | succ rounds ih =>
    have hle := hrounds rounds.succ_pos
    rw [applyRounds, applyNext_eq h (by omega)]
    refine ih (n := n.applyNext) h fun _ => ?_
    show n.lastApplied + 1 + rounds ≤ maxValue
    omega

/-- Draining the outputs never fails: nothing is applied beyond the commit index. -/
theorem takeReady_eq (h : n.log.lastIndex ≤ maxValue) (hcommit : n.commitIndex ≤ maxValue) :
    takeReady n = some n.takeReady := by
  have hrounds := applyRounds_eq (n.commitIndex - n.lastApplied) h (by omega)
  have hlog : (RaftNode.applyRounds (n.commitIndex - n.lastApplied) n).log = n.log := by
    rw [RaftNode.applyRounds_eq]
  unfold takeReady applyCommitted
  rw [hrounds]
  show maybeCompact _ >>= _ = _
  unfold maybeCompact
  rw [compact_eq (hlog ▸ h)]
  unfold RaftNode.takeReady RaftNode.applyCommitted RaftNode.maybeCompact
  split <;> rfl

/-! ### The interface -/

/-- A tick of a node that waits for a leader. -/
theorem exact_elapse (h : n.log.lastIndex ≤ maxValue) (helection : n.electionElapsed < maxValue) :
    Exact
      (add n.electionElapsed 1 >>= fun electionElapsed =>
        if n.electionTimeout ≤ electionElapsed then becomeCandidate { n with electionElapsed }
        else some { n with electionElapsed })
      (n.electionTimeout ≤ n.electionElapsed + 1 ∧
        (maxValue ≤ n.currentTerm ∨ n.peers = [] ∧ maxValue ≤ n.commitIndex))
      (if n.electionTimeout ≤ n.electionElapsed + 1 then
        { n with electionElapsed := n.electionElapsed + 1 }.becomeCandidate
      else { n with electionElapsed := n.electionElapsed + 1 }) := by
  have hstart : Exact (becomeCandidate { n with electionElapsed := n.electionElapsed + 1 })
      (maxValue ≤ n.currentTerm ∨ n.peers = [] ∧ maxValue ≤ n.commitIndex)
      { n with electionElapsed := n.electionElapsed + 1 }.becomeCandidate :=
    exact_becomeCandidate h
  exact Exact.bind_of_eq (add_eq helection) (Exact.ite_some fun _ => hstart)

theorem exact_tick (h : n.log.lastIndex ≤ maxValue) (hheartbeat : n.heartbeatElapsed < maxValue)
    (helection : n.electionElapsed < maxValue) :
    Exact (tick n)
      (n.role ≠ .leader ∧ n.electionTimeout ≤ n.electionElapsed + 1 ∧
        (maxValue ≤ n.currentTerm ∨ n.peers = [] ∧ maxValue ≤ n.commitIndex))
      n.tick := by
  unfold tick
  split
  · next hrole =>
    have hcount : add n.heartbeatElapsed 1 = some (n.heartbeatElapsed + 1) := add_eq hheartbeat
    have hsend : broadcastAppend { n with heartbeatElapsed := 0 } =
        some { n with heartbeatElapsed := 0 }.broadcastAppend := broadcastAppend_eq h
    refine (exact_of_eq ?_).congr (iff_of_false id fun hfault => hfault.1 hrole)
    rw [hcount, tick_of_leader hrole]
    simp only [Option.bind_eq_bind, Option.bind_some, hsend]
    split <;> rfl
  all_goals
    next hrole =>
    have hne : n.role ≠ .leader := by
      rw [hrole]
      decide
    rw [tick_of_ne_leader hne]
    exact (exact_elapse h helection).congr ⟨fun hfault => ⟨hne, hfault⟩, fun hfault => hfault.2⟩

theorem exact_propose (n : RaftNode) (command : List UInt8) :
    Exact (propose n command)
      (n.role = .leader ∧ (maxValue ≤ n.log.lastIndex ∨ maxValue ≤ n.commitIndex))
      (n.propose command) := by
  have hlast : (n.log.append [n.newEntry command]).lastIndex = n.log.lastIndex + 1 := by
    simp [RaftLog.lastIndex, RaftLog.append, Nat.add_assoc]
  unfold propose RaftNode.propose
  by_cases hrole : n.role = .leader
  · rw [if_neg (not_not.mpr hrole), if_neg (not_not.mpr hrole)]
    have happend := exact_append n.log [n.newEntry command]
    have hrest : ¬maxValue < (n.log.append [n.newEntry command]).lastIndex →
        Exact (broadcastAppend { n with log := n.log.append [n.newEntry command] } >>=
            fun node => advanceCommit node >>= fun node =>
              some (Except.ok (n.log.append [n.newEntry command]).lastIndex, node))
          (maxValue ≤ n.commitIndex)
          ((.ok (n.log.append [n.newEntry command]).lastIndex,
            { n with
              log := n.log.append [n.newEntry command] }.broadcastAppend.advanceCommit) :
            Except NotLeader ℕ × RaftNode) := by
      intro hfits
      have hnode : { n with log := n.log.append [n.newEntry command] }.log.lastIndex ≤ maxValue :=
        not_lt.mp hfits
      refine Exact.bind_of_eq (broadcastAppend_eq hnode)
        (Exact.bind_some (Exact.congr (exact_advanceCommit ?_) ?_))
      · rw [RaftNode.broadcastAppend_eq]
        exact hnode
      · rw [RaftNode.broadcastAppend_eq]
        exact and_iff_right hrole
    refine Exact.congr (Exact.bind happend hrest) ?_
    rw [hlast, Nat.lt_succ_iff]
    simp [hrole]
  · rw [if_pos hrole, if_pos hrole]
    exact (exact_of_eq rfl).congr (by simp [hrole])

/-- What goes wrong when a message is handled by a node that has taken note of its term. -/
def MessageFault (n : RaftNode) : Message → Prop
  | .requestVoteReply m =>
    Elects n m ∧ (n.peers ≠ [] ∧ maxValue ≤ n.log.lastIndex ∨ maxValue ≤ n.commitIndex)
  | .appendEntries m => n.currentTerm ≤ m.term ∧ AppendFault n.log m
  | .appendEntriesReply m =>
    (n.role = .leader ∧ m.term = n.currentTerm) ∧ m.success = true ∧
      (maxValue ≤ m.matchIndex ∨ maxValue ≤ n.commitIndex)
  | .installSnapshotReply m =>
    (n.role = .leader ∧ m.term = n.currentTerm) ∧ maxValue ≤ n.log.snapshotIndex
  | .requestVote _ | .installSnapshot _ => False

/-- **The calls in which an addition overflows**: an election in the last term; a proposal, an
acknowledgement or the start of a term of office at the last index; an acknowledgement of the last
index; and entries that reach beyond the last index. -/
def Overflows (n : RaftNode) : Input → Prop
  | .tick =>
    n.role ≠ .leader ∧ n.electionTimeout ≤ n.electionElapsed + 1 ∧
      (maxValue ≤ n.currentTerm ∨ n.peers = [] ∧ maxValue ≤ n.commitIndex)
  | .propose _ => n.role = .leader ∧ (maxValue ≤ n.log.lastIndex ∨ maxValue ≤ n.commitIndex)
  | .takeReady => False
  | .step _ message => MessageFault (n.observeTerm message.term) message

/-- The fields of type `u64` of a message are in the range, as in every message that can be
decoded. -/
def MessageFits : Message → Prop
  | .requestVote m => m.term ≤ maxValue ∧ m.lastLogIndex ≤ maxValue ∧ m.lastLogTerm ≤ maxValue
  | .requestVoteReply m => m.term ≤ maxValue
  | .appendEntries m =>
    m.term ≤ maxValue ∧ m.prevLogIndex ≤ maxValue ∧ m.prevLogTerm ≤ maxValue ∧
      m.leaderCommit ≤ maxValue ∧ ∀ entry ∈ m.entries, entry.term ≤ maxValue
  | .appendEntriesReply m =>
    m.term ≤ maxValue ∧ m.matchIndex ≤ maxValue ∧ m.conflictIndex ≤ maxValue
  | .installSnapshot m =>
    m.term ≤ maxValue ∧ m.lastIncludedIndex ≤ maxValue ∧ m.lastIncludedTerm ≤ maxValue
  | .installSnapshotReply m => m.term ≤ maxValue

def InputFits : Input → Prop
  | .step _ message => MessageFits message
  | _ => True

theorem exact_handle (h : n.log.lastIndex ≤ maxValue) (sender : NodeId) {message : Message}
    (hfits : MessageFits message) :
    Exact (handle n sender message) (MessageFault n message) (n.handle sender message) := by
  cases message with
  | requestVote m => exact exact_of_eq (handleRequestVote_eq h m)
  | requestVoteReply m => exact exact_handleRequestVoteReply h m
  | appendEntries m => exact exact_handleAppendEntries h hfits.2.1
  | appendEntriesReply m => exact exact_handleAppendEntriesReply h sender m
  | installSnapshot m => exact exact_of_eq rfl
  | installSnapshotReply m => exact exact_handleInstallSnapshotReply n sender m

/-! ### Runs -/

/-- What holds of the numbers of a node as long as nothing has overflowed. The timers stay behind
the limits that they are compared with. -/
structure InRange (n : RaftNode) : Prop where
  last : n.log.lastIndex ≤ maxValue
  commit : n.commitIndex ≤ maxValue
  heartbeatTicks : n.config.heartbeatTicks ≤ maxValue
  timeoutMax : n.config.electionTimeoutMax ≤ maxValue
  timeout : n.electionTimeout ≤ maxValue
  heartbeat : n.heartbeatElapsed < maxValue
  election : n.electionElapsed < maxValue

/-- **One call**: it fails exactly if it is one of those that overflow. -/
theorem exact_input (h : InRange n) {e : Input} (hfits : InputFits e) :
    Exact (input n e) (Overflows n e) (n.input e) := by
  cases e with
  | tick => exact exact_tick h.last h.heartbeat h.election
  | propose command =>
    have hpropose := exact_propose n command
    refine ⟨fun hfault => ?_, fun hfault => ?_⟩
    · rw [input, hpropose.fails hfault]
      rfl
    · rw [input, hpropose.result hfault]
      rfl
  | takeReady => exact exact_of_eq (takeReady_eq h.last h.commit)
  | step sender message =>
    refine exact_handle ?_ sender hfits
    rw [log_observeTerm]
    exact h.last

/-- A call leaves the timers, or sets them back. -/
structure KeepsTimers (n n' : RaftNode) : Prop where
  config : n'.config = n.config
  heartbeat : n'.heartbeatElapsed = n.heartbeatElapsed ∨ n'.heartbeatElapsed = 0
  election : n'.electionElapsed = n.electionElapsed ∧ n'.electionTimeout = n.electionTimeout ∨
    n'.electionElapsed = 0 ∧ n'.electionTimeout ≤ n.config.electionTimeoutMax

namespace KeepsTimers

variable {n' n'' : RaftNode}

theorem refl (n : RaftNode) : KeepsTimers n n :=
  ⟨rfl, Or.inl rfl, Or.inl ⟨rfl, rfl⟩⟩

theorem trans (h : KeepsTimers n n') (h' : KeepsTimers n' n'') : KeepsTimers n n'' where
  config := h'.config.trans h.config
  heartbeat := by
    rcases h'.heartbeat with heq | hzero
    · rw [heq]
      exact h.heartbeat
    · exact Or.inr hzero
  election := by
    rcases h'.election with ⟨heq, htimeout⟩ | ⟨hzero, hle⟩
    · rw [heq, htimeout]
      exact h.election
    · exact Or.inr ⟨hzero, h.config ▸ hle⟩

end KeepsTimers

/-- The timeout that is drawn is in the interval of the configuration. -/
theorem electionTimeout_resetElectionTimer_le (n : RaftNode) :
    n.resetElectionTimer.electionTimeout ≤ n.config.electionTimeoutMax := by
  have hle := n.config.timeout_le
  have hdraw : n.rng.draws 0 %
      (n.config.electionTimeoutMax - n.config.electionTimeoutMin + 1) <
        n.config.electionTimeoutMax - n.config.electionTimeoutMin + 1 :=
    Nat.mod_lt _ (Nat.succ_pos _)
  show n.config.electionTimeoutMin + _ ≤ _
  omega

theorem keepsTimers_resetElectionTimer (n : RaftNode) : KeepsTimers n n.resetElectionTimer :=
  ⟨rfl, Or.inl rfl, Or.inr ⟨rfl, electionTimeout_resetElectionTimer_le n⟩⟩

theorem keepsTimers_becomeFollower (n : RaftNode) (term : ℕ) (leader : Option NodeId) :
    KeepsTimers n (n.becomeFollower term leader) :=
  { keepsTimers_resetElectionTimer n with }

theorem keepsTimers_observeTerm (n : RaftNode) (term : ℕ) :
    KeepsTimers n (n.observeTerm term) := by
  unfold observeTerm
  split
  · exact keepsTimers_becomeFollower n term none
  · exact KeepsTimers.refl n

theorem keepsTimers_advanceCommit (n : RaftNode) : KeepsTimers n n.advanceCommit := by
  rw [advanceCommit_eq]
  exact { KeepsTimers.refl n with }

theorem keepsTimers_becomeLeader (n : RaftNode) : KeepsTimers n n.becomeLeader := by
  rw [RaftNode.becomeLeader, advanceCommit_eq, RaftNode.broadcastAppend_eq]
  exact ⟨rfl, Or.inr rfl, Or.inl ⟨rfl, rfl⟩⟩

/-- A new election sets the timer back, however far it has counted. -/
theorem keepsTimers_becomeCandidate (n : RaftNode) (electionElapsed : ℕ) :
    KeepsTimers n { n with electionElapsed }.becomeCandidate := by
  have hstand : KeepsTimers n { n with electionElapsed }.standForElection :=
    { keepsTimers_resetElectionTimer n with }
  unfold RaftNode.becomeCandidate
  dsimp only
  split
  · exact hstand.trans (keepsTimers_becomeLeader _)
  · rw [requestVotes_eq]
    exact { hstand with }

theorem keepsTimers_handle (n : RaftNode) (sender : NodeId) (message : Message) :
    KeepsTimers n (n.handle sender message) := by
  cases message with
  | requestVote m =>
    simp only [RaftNode.handle, RaftNode.handleRequestVote]
    split
    · exact { keepsTimers_resetElectionTimer n with }
    · exact { KeepsTimers.refl n with }
  | requestVoteReply m =>
    simp only [RaftNode.handle, RaftNode.handleRequestVoteReply]
    split
    · exact KeepsTimers.refl n
    · split
      · split
        · exact { keepsTimers_becomeLeader { n with votes := n.votes.record m.voterId } with }
        · exact { KeepsTimers.refl n with }
      · exact KeepsTimers.refl n
  | appendEntries m =>
    simp only [RaftNode.handle, RaftNode.handleAppendEntries]
    split
    · exact { KeepsTimers.refl n with }
    · split <;> exact { keepsTimers_becomeFollower n m.term (some m.leaderId) with }
  | appendEntriesReply m =>
    simp only [RaftNode.handle, RaftNode.handleAppendEntriesReply]
    split
    · exact KeepsTimers.refl n
    · split
      · exact { keepsTimers_advanceCommit (n.recordMatch sender m.matchIndex) with }
      · exact { KeepsTimers.refl n with }
  | installSnapshot m =>
    simp only [RaftNode.handle, handleInstallSnapshot]
    split
    · exact KeepsTimers.refl n
    · exact { keepsTimers_becomeFollower n m.term (some m.leaderId) with }
  | installSnapshotReply m =>
    simp only [RaftNode.handle, RaftNode.handleInstallSnapshotReply]
    split <;> exact { KeepsTimers.refl n with }

theorem keepsTimers_propose (n : RaftNode) (command : List UInt8) :
    KeepsTimers n (n.propose command).2 := by
  unfold RaftNode.propose
  split
  · exact KeepsTimers.refl n
  · dsimp only
    rw [advanceCommit_eq, RaftNode.broadcastAppend_eq]
    exact { KeepsTimers.refl n with }

theorem keepsTimers_takeReady (n : RaftNode) : KeepsTimers n n.takeReady := by
  rw [RaftNode.takeReady_eq]
  exact { KeepsTimers.refl n with }

namespace InRange

variable {n' : RaftNode}

theorem of_keepsTimers (h : InRange n) (hkeeps : KeepsTimers n n')
    (hlast : n'.log.lastIndex ≤ maxValue) (hcommit : n'.commitIndex ≤ maxValue) : InRange n' where
  last := hlast
  commit := hcommit
  heartbeatTicks := hkeeps.config ▸ h.heartbeatTicks
  timeoutMax := hkeeps.config ▸ h.timeoutMax
  timeout := by
    rcases hkeeps.election with ⟨-, heq⟩ | ⟨-, hle⟩
    · exact heq ▸ h.timeout
    · exact hle.trans h.timeoutMax
  heartbeat := by
    rcases hkeeps.heartbeat with heq | hzero
    · exact heq ▸ h.heartbeat
    · exact hzero ▸ (show 0 < maxValue by decide)
  election := by
    rcases hkeeps.election with ⟨heq, -⟩ | ⟨hzero, -⟩
    · exact heq ▸ h.election
    · exact hzero ▸ (show 0 < maxValue by decide)

/-- The log stays, and nothing beyond its end is committed. -/
theorem of_keepsLog (h : InRange n) (hkeeps : KeepsTimers n n') (hlog : KeepsLog n n') :
    InRange n' := by
  refine h.of_keepsTimers hkeeps (hlog.log ▸ h.last) ?_
  rcases hlog.commit with heq | ⟨-, hle⟩
  · exact heq ▸ h.commit
  · exact hle.trans h.last

theorem tick (h : InRange n) : InRange n.tick := by
  by_cases hrole : n.role = .leader
  · rw [tick_of_leader hrole]
    split
    · refine h.of_keepsLog ?_ ?_
      · rw [RaftNode.broadcastAppend_eq]
        exact ⟨rfl, Or.inr rfl, Or.inl ⟨rfl, rfl⟩⟩
      · exact { keepsLog_broadcastAppend { n with heartbeatElapsed := 0 } with }
    · next hdue =>
      -- the counter stays below the limit
      exact { h with heartbeat := (not_le.mp hdue).trans_le h.heartbeatTicks }
  · rw [tick_of_ne_leader hrole]
    split
    · exact h.of_keepsLog (keepsTimers_becomeCandidate n (n.electionElapsed + 1))
        { keepsLog_becomeCandidate { n with electionElapsed := n.electionElapsed + 1 } with }
    · next hdue => exact { h with election := (not_le.mp hdue).trans_le h.timeout }

theorem propose (h : InRange n) {command : List UInt8} (hfault : ¬Overflows n (.propose command)) :
    InRange (n.propose command).2 := by
  by_cases hrole : n.role = .leader
  · have hlog := n.keepsLog_propose command hrole
    have hlast : (n.propose command).2.log.lastIndex = n.log.lastIndex + 1 := by
      rw [hlog.log]
      simp [RaftLog.lastIndex, RaftLog.append, Nat.add_assoc]
    have hroom : n.log.lastIndex < maxValue :=
      not_le.mp fun hle => hfault ⟨hrole, Or.inl hle⟩
    refine h.of_keepsTimers (keepsTimers_propose n command) (hlast ▸ hroom) ?_
    rcases hlog.commit with heq | ⟨-, hle⟩
    · exact heq ▸ h.commit
    · rw [← hlog.log, hlast] at hle
      exact hle.trans hroom
  · rw [n.propose_of_ne_leader command hrole]
    exact h

theorem takeReady (h : InRange n) : InRange n.takeReady := by
  refine h.of_keepsTimers (keepsTimers_takeReady n) ?_ ?_
  · rw [RaftNode.takeReady_eq]
    exact (lastIndex_appliedLog n).le.trans h.last
  · rw [RaftNode.takeReady_eq]
    exact h.commit

theorem step (h : InRange n) {sender : NodeId} {message : Message} (hfits : MessageFits message)
    (hfault : ¬Overflows n (.step sender message)) : InRange (n.step sender message) := by
  have hkeeps : KeepsTimers n (n.step sender message) :=
    (keepsTimers_observeTerm n message.term).trans (keepsTimers_handle _ sender message)
  cases n.receives_step sender message with
  | keeps _ hlog => exact h.of_keepsLog hkeeps hlog
  | @splices m haccepted hsplices =>
    -- the splice has not failed, so the log that it leaves is in the range
    have hlast : (n.log.splice m.prevLogIndex m.entries).lastIndex ≤ maxValue := by
      refine not_lt.mp fun hlt => hfault ⟨?_, Or.inl ⟨?_, Or.inr ?_⟩⟩
      · rw [currentTerm_observeTerm]
        exact max_le haccepted.1 le_rfl
      · rw [log_observeTerm]
        exact haccepted.2
      · rw [log_observeTerm]
        exact hlt
    refine h.of_keepsTimers hkeeps (hsplices.log ▸ hlast) ?_
    rw [hsplices.commit, hsplices.log]
    split
    · exact (min_le_right _ _).trans hlast
    · exact h.commit
  | installs _ hinstalls =>
    refine h.of_keepsTimers hkeeps ?_ (hinstalls.commit ▸ hfits.2.1)
    rw [hinstalls.log]
    exact hfits.2.1

/-- **A call that does not overflow** leaves the numbers in the range. -/
theorem input (h : InRange n) {e : Input} (hfits : InputFits e) (hfault : ¬Overflows n e) :
    InRange (n.input e) := by
  cases e with
  | tick => exact h.tick
  | propose command => exact h.propose hfault
  | takeReady => exact h.takeReady
  | step sender message => exact h.step hfits hfault

end InRange

/-- A configuration whose numbers are `u64`s. -/
structure ConfigFits (config : RaftConfig) : Prop where
  heartbeatTicks : config.heartbeatTicks ≤ maxValue
  timeoutMax : config.electionTimeoutMax ≤ maxValue

theorem inRange_new (id : NodeId) (peers : List NodeId) {config : RaftConfig}
    (hconfig : ConfigFits config) (rng : StdRng) : InRange (new id peers config rng) where
  last := Nat.zero_le maxValue
  commit := Nat.zero_le maxValue
  heartbeatTicks := hconfig.heartbeatTicks
  timeoutMax := hconfig.timeoutMax
  timeout :=
    (electionTimeout_resetElectionTimer_le { new id peers config rng with rng }).trans
      hconfig.timeoutMax
  heartbeat := show 0 < maxValue by decide
  election := show 0 < maxValue by decide

/-- **When the arithmetic of a node overflows.** For every configuration and every sequence of calls
with any messages, the run on `u64` is the run on natural numbers if no call is one of those that
overflow in the state in which it is made, and fails otherwise. -/
theorem after_new (id : NodeId) (peers : List NodeId) {config : RaftConfig}
    (hconfig : ConfigFits config) (rng : StdRng) {inputs : List Input}
    (hfits : ∀ e ∈ inputs, InputFits e) :
    let n := new id peers config rng
    (Run.Guarded RaftNode.input (fun n e => ¬Overflows n e) n inputs →
        after n inputs = some (n.after inputs)) ∧
      (¬Run.Guarded RaftNode.input (fun n e => ¬Overflows n e) n inputs →
        after n inputs = none) := by
  intro n
  have hrun : Exact (after n inputs)
      (¬Run.Guarded RaftNode.input (fun n e => ¬Overflows n e) n inputs) (n.after inputs) :=
    exact_foldlM (fun _ (hs : InRange _) e he => exact_input hs (hfits e he))
      (fun _ hs e he hfault => hs.input (hfits e he) hfault) (inRange_new id peers hconfig rng)
  exact ⟨fun hguarded => hrun.result (not_not.mpr hguarded), hrun.fails⟩

/-! ### Runs with room

Nothing overflows as long as the numbers that come in, and what the calls can add to them, stay
below `u64::MAX`. -/

/-- What a call can add to the term or to an index. -/
def growth : Input → ℕ
  | .tick => 1
  | .propose _ => 1
  | .step _ (.appendEntries m) => m.entries.length
  | _ => 0

/-- What a sequence of calls can add. -/
def totalGrowth : List Input → ℕ
  | [] => 0
  | e :: inputs => growth e + totalGrowth inputs

/-- The numbers of a call that the node adopts are at most `b`. -/
def Adopts (b : ℕ) : Input → Prop
  | .step _ message => message.term ≤ b ∧
    match message with
    | .appendEntries m => m.prevLogIndex ≤ b
    | .appendEntriesReply m => m.matchIndex ≤ b
    | .installSnapshot m => m.lastIncludedIndex ≤ b
    | _ => True
  | _ => True

theorem Adopts.mono {b b' : ℕ} {e : Input} (h : Adopts b e) (hle : b ≤ b') : Adopts b' e := by
  cases e with
  | step sender message =>
    refine ⟨h.1.trans hle, ?_⟩
    cases message with
    | appendEntries m => exact h.2.trans hle
    | appendEntriesReply m => exact h.2.trans hle
    | installSnapshot m => exact h.2.trans hle
    | requestVote m => trivial
    | requestVoteReply m => trivial
    | installSnapshotReply m => trivial
  | tick => trivial
  | propose command => trivial
  | takeReady => trivial

/-- The term and the indices of a node are at most `b`. -/
structure Within (b : ℕ) (n : RaftNode) : Prop where
  term : n.currentTerm ≤ b
  last : n.log.lastIndex ≤ b
  commit : n.commitIndex ≤ b

/-- A splice extends the log by the incoming entries at most. -/
theorem lastIndex_splice_le (log : RaftLog) (prev : ℕ) (es : List LogEntry) :
    (log.splice prev es).lastIndex ≤ log.lastIndex + es.length := by
  rcases log.spliceFrom_cases (prev + 1) es with ⟨-, heq⟩ | ⟨es₁, e, es₂, rfl, -, -, heq⟩
  · rw [RaftLog.splice, heq]
    exact Nat.le_add_right _ _
  · rw [RaftLog.splice, heq]
    unfold RaftLog.lastIndex RaftLog.truncateFrom
    split
    · simp only [List.nil_append, List.length_cons, List.length_append]
      omega
    · simp only [List.length_cons, List.length_append, List.length_take]
      omega

namespace Within

variable {b : ℕ} {n' : RaftNode}

theorem mono {b' : ℕ} (h : Within b n) (hle : b ≤ b') : Within b' n :=
  ⟨h.term.trans hle, h.last.trans hle, h.commit.trans hle⟩

theorem of_keepsLog (h : Within b n) (hterm : n'.currentTerm ≤ b) (hlog : KeepsLog n n') :
    Within b n' := by
  refine ⟨hterm, hlog.log ▸ h.last, ?_⟩
  rcases hlog.commit with heq | ⟨-, hle⟩
  · exact heq ▸ h.commit
  · exact hle.trans h.last

theorem input (h : Within b n) {e : Input} (hadopts : Adopts b e) :
    Within (b + growth e) (n.input e) := by
  cases e with
  | tick =>
    refine (h.mono (Nat.le_add_right b 1)).of_keepsLog ?_ n.keepsLog_tick
    have hterm := h.term
    show n.tick.currentTerm ≤ b + 1
    rcases n.currentTerm_tick with heq | heq <;> omega
  | propose command =>
    have hterm : (n.propose command).2.currentTerm ≤ b + 1 :=
      (n.currentTerm_propose command).le.trans (h.term.trans (Nat.le_add_right b 1))
    by_cases hrole : n.role = .leader
    · have happended : Within (b + 1) { n with log := n.log.append [n.newEntry command] } := by
        refine ⟨h.term.trans (Nat.le_add_right b 1), ?_, h.commit.trans (Nat.le_add_right b 1)⟩
        have hlast := h.last
        simp only [RaftLog.lastIndex, RaftLog.append, List.length_append,
          List.length_singleton] at hlast ⊢
        omega
      exact happended.of_keepsLog hterm (n.keepsLog_propose command hrole)
    · rw [RaftNode.input, n.propose_of_ne_leader command hrole]
      exact h.mono (Nat.le_add_right b 1)
  | takeReady =>
    rw [RaftNode.input, RaftNode.takeReady_eq]
    exact ⟨h.term, (lastIndex_appliedLog n).le.trans h.last, h.commit⟩
  | step sender message =>
    have hterm : (n.step sender message).currentTerm ≤ b + growth (.step sender message) := by
      rw [n.currentTerm_step]
      exact (max_le h.term hadopts.1).trans (Nat.le_add_right _ _)
    have hcommit := h.commit.trans (Nat.le_add_right b (growth (.step sender message)))
    show Within _ (n.step sender message)
    cases n.receives_step sender message with
    | keeps _ hlog => exact (h.mono (Nat.le_add_right _ _)).of_keepsLog hterm hlog
    | @splices m _ hsplices =>
      have hlast : (n.step sender (.appendEntries m)).log.lastIndex ≤ b + m.entries.length := by
        rw [hsplices.log]
        exact (lastIndex_splice_le n.log m.prevLogIndex m.entries).trans
          (Nat.add_le_add_right h.last _)
      refine ⟨hterm, hlast, ?_⟩
      rw [hsplices.commit]
      split
      · exact (min_le_right _ _).trans hlast
      · exact hcommit
    | installs _ hinstalls =>
      refine ⟨hterm, ?_, hinstalls.commit ▸ hadopts.2⟩
      rw [hinstalls.log]
      exact hadopts.2

/-- A call overflows only if there is no room for what it can add. -/
theorem not_overflows (h : Within b n) {e : Input} (hadopts : Adopts b e)
    (hroom : b + growth e < maxValue) : ¬Overflows n e := by
  have hb : b < maxValue := (Nat.le_add_right _ _).trans_lt hroom
  have hlast : ¬maxValue ≤ n.log.lastIndex := not_le.mpr (h.last.trans_lt hb)
  have hcommit : ¬maxValue ≤ n.commitIndex := not_le.mpr (h.commit.trans_lt hb)
  have hterm : ¬maxValue ≤ n.currentTerm := not_le.mpr (h.term.trans_lt hb)
  have hsnap : ¬maxValue ≤ n.log.snapshotIndex := fun hle =>
    hlast (hle.trans (Nat.le_add_right _ _))
  cases e with
  | tick => exact fun hfault => hfault.2.2.elim hterm fun hf => hcommit hf.2
  | propose command => exact fun hfault => hfault.2.elim hlast hcommit
  | takeReady => exact id
  | step sender message =>
    have hobs : (n.observeTerm message.term).commitIndex = n.commitIndex := by
      unfold observeTerm
      split <;> rfl
    rw [Overflows]
    cases message with
    | requestVote m => exact id
    | requestVoteReply m =>
      rw [MessageFault, log_observeTerm, hobs]
      exact fun hfault => hfault.2.elim (fun hf => hlast hf.2) hcommit
    | appendEntries m =>
      rw [MessageFault, log_observeTerm]
      rintro ⟨-, ⟨-, ⟨k, hk, hlt, -⟩ | hlt⟩ | ⟨-, -, hle⟩⟩
      · have hprev : m.prevLogIndex ≤ b := hadopts.2
        have hlength : b + m.entries.length < maxValue := hroom
        omega
      · have hle := lastIndex_splice_le n.log m.prevLogIndex m.entries
        have hlength : b + m.entries.length < maxValue := hroom
        have := h.last
        omega
      · exact hsnap hle
    | appendEntriesReply m =>
      rw [MessageFault, hobs]
      exact fun hfault => hfault.2.2.elim (not_le.mpr (hadopts.2.trans_lt hb)) hcommit
    | installSnapshot m => exact id
    | installSnapshotReply m =>
      rw [MessageFault, log_observeTerm]
      exact fun hfault => hsnap hfault.2

end Within

/-- **A run with room does not overflow.** -/
theorem guarded_of_room {b : ℕ} {inputs : List Input} (h : Within b n)
    (hadopts : ∀ e ∈ inputs, Adopts b e) (hroom : b + totalGrowth inputs < maxValue) :
    Run.Guarded RaftNode.input (fun n e => ¬Overflows n e) n inputs := by
  -- the bound grows with every call by what the call can add
  induction inputs generalizing b n with
  | nil => trivial
  | cons e inputs ih =>
    rw [totalGrowth, ← Nat.add_assoc] at hroom
    have hfirst := hadopts e List.mem_cons_self
    refine ⟨h.not_overflows hfirst ((Nat.le_add_right _ _).trans_lt hroom), ?_⟩
    refine ih (h.input hfirst) (fun e' he' => ?_) hroom
    exact (hadopts e' (List.mem_cons_of_mem e he')).mono (Nat.le_add_right b (growth e))

/-! ### Runs that overflow -/

/-- One of two nodes, with elections at every tick. -/
def fresh : RaftNode :=
  new "a" ["b"] (RaftConfig.eager 100) ⟨fun _ => 0⟩

/-- A request of the last term, and then an election. -/
def lastTerm : List Input :=
  [.step "b" (.requestVote
    { term := 18446744073709551615, candidateId := "b", lastLogIndex := 0, lastLogTerm := 0 }),
    .tick]

/-- An election that the node wins. -/
def election (term : ℕ) : List Input :=
  [.tick, .step "b" (.requestVoteReply { term, voterId := "b", voteGranted := true })]

/-- The leader is told that its peer holds the log up to the last index. -/
def lastMatch : List Input :=
  election 1 ++ [.step "b" (.appendEntriesReply
    { term := 1, followerId := "b", success := true, matchIndex := 18446744073709551615,
      conflictIndex := 0 })]

/-- A snapshot up to the last index, and then an election. -/
def lastSnapshot : List Input :=
  .step "b" (.installSnapshot
    { term := 1, leaderId := "b", lastIncludedIndex := 18446744073709551615, lastIncludedTerm := 1,
      data := [] }) :: election 2

/-- A proposal that is replicated, committed and applied. -/
def roomyRun : List Input :=
  election 1 ++ [.propose [1],
    .step "b" (.appendEntriesReply
      { term := 1, followerId := "b", success := true, matchIndex := 1, conflictIndex := 0 }),
    .takeReady]

theorem after_new_roomyRun :
    (∀ e ∈ roomyRun, InputFits e) ∧ after fresh roomyRun = some (fresh.after roomyRun) := by
  have hfits : ∀ e ∈ roomyRun, InputFits e := by
    simp [roomyRun, election, InputFits, MessageFits, maxValue]
  have hwithin : Within 1 fresh := ⟨by decide, by decide, by decide⟩
  have hguarded : Run.Guarded RaftNode.input (fun n e => ¬Overflows n e) fresh roomyRun :=
    guarded_of_room hwithin (by simp [roomyRun, election, Adopts, Message.term]) (by decide)
  exact ⟨hfits, (after_new "a" ["b"] ⟨by decide, by decide⟩ ⟨fun _ => 0⟩ hfits).1 hguarded⟩

/-- **Messages can make a node overflow**: in the addition of the term, in that of the match index,
and in that of the last index. -/
theorem after_fresh_overflows :
    (∀ inputs ∈ [lastTerm, lastMatch, lastSnapshot], ∀ e ∈ inputs, InputFits e) ∧
      after fresh lastTerm = none ∧ after fresh lastMatch = none ∧
      after fresh lastSnapshot = none := by
  refine ⟨?_, ?_, ?_, ?_⟩
  · simp [lastTerm, lastMatch, lastSnapshot, election, InputFits, MessageFits, maxValue]
  · exact Option.isNone_iff_eq_none.mp (by decide +kernel)
  · exact Option.isNone_iff_eq_none.mp (by decide +kernel)
  · exact Option.isNone_iff_eq_none.mp (by decide +kernel)

end Ferrium.U64
