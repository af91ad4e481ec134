import Ferrium.Raft.Tenure

/-!
# Catching up

A leader and one of its followers: the leader sends what it believes the follower to need, the
follower answers, and the answer decides what is sent next (`Exchange.round`). Two questions are
asked about it.

While the follower refuses, the leader goes back in its log. It does not go back step by step: a
position that the follower has discarded makes it go forward again. But it ends, with entries that
are accepted or with a snapshot (`Exchange.settles`).

After a snapshot, the entries behind it are to be accepted, and the follower's log is to be like the
leader's. The snapshot is sent with the term of the leader's last entry in place of the term of the
snapshot point, so that this is the case only if the two are the same (`Exchange.catchesUp_iff`).
-/

namespace Ferrium

namespace RaftNode

variable {n : RaftNode} {m : AppendEntries} {peer : NodeId}

@[simp]
theorem id_observeTerm (n : RaftNode) (T : ℕ) : (n.observeTerm T).id = n.id := by
  unfold observeTerm
  split <;> rfl

/-- The snapshot that `send_append` sends. -/
def snapshotFor (n : RaftNode) (data : List KeyValue) : InstallSnapshot where
  term := n.currentTerm
  leaderId := n.id
  lastIncludedIndex := n.log.snapshotIndex
  lastIncludedTerm := n.log.lastTerm
  data := data

/-- The entries that `send_append` sends. -/
def entriesFor (n : RaftNode) (peer : NodeId) : AppendEntries where
  term := n.currentTerm
  leaderId := n.id
  prevLogIndex := n.progress.nextIndex peer - 1
  prevLogTerm := (n.log.termAt (n.progress.nextIndex peer - 1)).getD 0
  entries := n.log.entriesFrom (n.progress.nextIndex peer)
  leaderCommit := n.commitIndex

theorem appendFor_of_le (h : n.progress.nextIndex peer ≤ n.log.snapshotIndex) :
    n.appendFor peer = .installSnapshot (n.snapshotFor []) :=
  if_pos h

theorem appendFor_of_lt (h : n.log.snapshotIndex < n.progress.nextIndex peer) :
    n.appendFor peer = .appendEntries (n.entriesFor peer) :=
  if_neg (not_le.mpr h)

/-- Entries that are accepted are answered with a success. -/
theorem emitted_of_accepts (sender : NodeId) (h : n.Accepts (.appendEntries m)) :
    n.emitted (.step sender (.appendEntries m)) = [⟨m.leaderId, .appendEntriesReply
      { term := m.term
        followerId := n.id
        success := true
        matchIndex := (n.log.splice m.prevLogIndex m.entries).lastIndex
        conflictIndex := 0 }⟩] := by
  apply emitted_eq_of_outgoing
  show (n.step sender (.appendEntries m)).outgoing = _
  rw [step_appendEntries n sender h.1 h.2]
  simp only [acceptAppend, send, becomeFollower, resetElectionTimer, outgoing_observeTerm,
    log_observeTerm, id_observeTerm]

/-- What a node answers to entries that do not continue its log. -/
def refusal (n : RaftNode) (m : AppendEntries) : AppendEntriesReply where
  term := m.term
  followerId := n.id
  success := false
  matchIndex := 0
  conflictIndex := n.conflictHint m.prevLogIndex

/-- A node that is not ahead of the leader, but does not have its entry, refuses. -/
theorem step_of_refused (sender : NodeId) (hterm : n.currentTerm ≤ m.term)
    (hfail : ¬n.log.matches m.prevLogIndex m.prevLogTerm = true) :
    n.step sender (.appendEntries m) =
      ((n.observeTerm m.term).becomeFollower m.term (some m.leaderId)).send m.leaderId
        (.appendEntriesReply (n.refusal m)) := by
  have hcur : ¬m.term < (n.observeTerm m.term).currentTerm := by simp [hterm]
  have hlog : ((n.observeTerm m.term).becomeFollower m.term (some m.leaderId)).log = n.log :=
    log_observeTerm n m.term
  have hid : ((n.observeTerm m.term).becomeFollower m.term (some m.leaderId)).id = n.id :=
    id_observeTerm n m.term
  show (n.observeTerm m.term).handleAppendEntries m = _
  unfold handleAppendEntries
  dsimp only
  rw [if_neg hcur, hlog, if_neg hfail]
  unfold rejectAppend refusal conflictHint
  rw [hlog, hid]
  rfl

theorem emitted_of_refused (sender : NodeId) (hterm : n.currentTerm ≤ m.term)
    (hfail : ¬n.log.matches m.prevLogIndex m.prevLogTerm = true) :
    n.emitted (.step sender (.appendEntries m)) =
      [⟨m.leaderId, .appendEntriesReply (n.refusal m)⟩] := by
  apply emitted_eq_of_outgoing
  show (n.step sender (.appendEntries m)).outgoing = _
  rw [step_of_refused sender hterm hfail]
  simp only [send, becomeFollower, resetElectionTimer, outgoing_observeTerm]

/-- A success makes the leader send what comes behind the last index that the follower reports. -/
theorem step_success (sender : NodeId) {r : AppendEntriesReply} (hrole : n.role = .leader)
    (hterm : r.term = n.currentTerm) (hsucc : r.success = true) :
    n.step sender (.appendEntriesReply r) =
      (n.recordMatch sender r.matchIndex).advanceCommit := by
  have hle : (Message.appendEntriesReply r).term ≤ n.currentTerm := hterm.le
  rw [step_eq_handle sender hle]
  simp only [handle, handleAppendEntriesReply]
  rw [if_neg (by simp [hrole, hterm]), if_pos hsucc]

/-- A refusal makes the leader send from the position that the follower names. -/
theorem step_refusal (sender : NodeId) {r : AppendEntriesReply} (hrole : n.role = .leader)
    (hterm : r.term = n.currentTerm) (hfail : r.success = false) :
    n.step sender (.appendEntriesReply r) =
      { n with progress := n.progress.setNextIndex sender (max r.conflictIndex 1) }.sendAppend
        sender := by
  have hle : (Message.appendEntriesReply r).term ≤ n.currentTerm := hterm.le
  rw [step_eq_handle sender hle]
  simp only [handle, handleAppendEntriesReply]
  rw [if_neg (by simp [hrole, hterm]), hfail]
  rfl

/-- A snapshot that is installed is answered. -/
theorem emitted_of_installed (sender : NodeId) {m : InstallSnapshot}
    (hterm : n.currentTerm ≤ m.term) :
    n.emitted (.step sender (.installSnapshot m)) =
      [⟨m.leaderId, .installSnapshotReply { term := m.term, followerId := n.id }⟩] := by
  apply emitted_eq_of_outgoing
  show (n.step sender (.installSnapshot m)).outgoing = _
  rw [step_installSnapshot n sender hterm]
  simp only [acceptSnapshot, send, becomeFollower, resetElectionTimer, outgoing_observeTerm,
    id_observeTerm]

/-- The answer to a snapshot makes the leader send from behind its own snapshot point. -/
theorem step_installed (sender : NodeId) {r : InstallSnapshotReply} (hrole : n.role = .leader)
    (hterm : r.term = n.currentTerm) :
    n.step sender (.installSnapshotReply r) = n.recordMatch sender n.log.snapshotIndex := by
  have hle : (Message.installSnapshotReply r).term ≤ n.currentTerm := hterm.le
  rw [step_eq_handle sender hle]
  simp only [handle, handleInstallSnapshotReply]
  rw [if_neg (by simp [hrole, hterm])]

end RaftNode

/-- A leader and a follower, with a message on its way to the follower. -/
structure Exchange where
  leader : RaftNode
  follower : RaftNode
  message : Message

namespace Exchange

variable {x y : Exchange} {n : RaftNode} {data : List KeyValue}

/-- What the follower answers. -/
def answers (x : Exchange) : List Envelope :=
  x.follower.emitted (.step x.leader.id x.message)

/-- The leader after the answer. -/
def answered (x : Exchange) : RaftNode :=
  x.answers.foldl (fun n env => n.step x.follower.id env.message) x.leader

theorem answered_of_answers {env : Envelope} (h : x.answers = [env]) :
    x.answered = x.leader.step x.follower.id env.message := by
  rw [answered, h]
  rfl

/-- The message is delivered, and the answer; then the leader's `send_append` sends the next
message. -/
def round (x : Exchange) : Exchange where
  leader := x.answered
  follower := x.follower.step x.leader.id x.message
  message := x.answered.appendFor x.follower.id

/-- The message has entries, and the follower accepts them. -/
def Succeeds (x : Exchange) : Prop :=
  ∃ m r, x.message = .appendEntries m ∧ x.answers = [⟨x.leader.id, .appendEntriesReply r⟩] ∧
    r.success = true

/-- The message is a snapshot. -/
def Ships (x : Exchange) : Prop :=
  ∃ m, x.message = .installSnapshot m

/-! ### Going back -/

/-- The leader sends the follower, which is not ahead of it, what it believes it to need. -/
structure Probes (x : Exchange) : Prop where
  role : x.leader.role = .leader
  term_le : x.follower.currentTerm ≤ x.leader.currentTerm
  message_eq : x.message = x.leader.appendFor x.follower.id

/-- The position from which on the leader sends. -/
def next (x : Exchange) : ℕ :=
  x.leader.progress.nextIndex x.follower.id

/-- The follower's snapshot point lies on the leader's log, as far as that is still there. -/
structure OnLeaderLog (x : Exchange) : Prop where
  snapshot_le : x.follower.log.snapshotIndex ≤ x.leader.log.lastIndex
  termAt_eq : x.leader.log.snapshotIndex ≤ x.follower.log.snapshotIndex →
    x.leader.log.termAt x.follower.log.snapshotIndex = some x.follower.log.snapshotTerm

/-- The follower has the entry before those that are sent. -/
def Matches (x : Exchange) : Prop :=
  x.follower.log.matches (x.next - 1) ((x.leader.log.termAt (x.next - 1)).getD 0) = true

instance decidableMatches (x : Exchange) : Decidable x.Matches :=
  inferInstanceAs (Decidable (_ = true))

/-- The leader need not go back any further: it sends a snapshot, or entries that continue the
follower's log. -/
theorem Probes.settled (h : x.Probes)
    (hmatch : x.leader.log.snapshotIndex < x.next → x.Matches) : x.Succeeds ∨ x.Ships := by
  rcases Nat.lt_or_ge x.leader.log.snapshotIndex x.next with hlt | hle
  · have hmessage := h.message_eq.trans (RaftNode.appendFor_of_lt hlt)
    have hacc : x.follower.Accepts (.appendEntries (x.leader.entriesFor x.follower.id)) :=
      ⟨h.term_le, hmatch hlt⟩
    have hanswers := RaftNode.emitted_of_accepts x.leader.id hacc
    rw [← hmessage] at hanswers
    exact Or.inl ⟨_, _, hmessage, hanswers, rfl⟩
  · exact Or.inr ⟨_, h.message_eq.trans (RaftNode.appendFor_of_le hle)⟩

/-- A refusal leaves both logs, and the leader goes on from the position that the follower names. -/
theorem Probes.round (h : x.Probes) (hlt : x.leader.log.snapshotIndex < x.next)
    (hfail : ¬x.Matches) :
    x.round.Probes ∧ x.round.leader.log = x.leader.log ∧
      x.round.follower.log = x.follower.log ∧
      x.round.next = max (x.follower.conflictHint (x.next - 1)) 1 := by
  have hmessage := h.message_eq.trans (RaftNode.appendFor_of_lt hlt)
  have hterm : x.follower.currentTerm ≤ (x.leader.entriesFor x.follower.id).term := h.term_le
  have hfollower := RaftNode.step_of_refused x.leader.id hterm hfail
  have hanswers := RaftNode.emitted_of_refused x.leader.id hterm hfail
  rw [← hmessage] at hfollower hanswers
  have hanswered := (answered_of_answers hanswers).trans
    (RaftNode.step_refusal x.follower.id h.role rfl rfl)
  have hid : (x.follower.step x.leader.id x.message).id = x.follower.id := by
    rw [hfollower]
    exact RaftNode.id_observeTerm _ _
  refine ⟨⟨?_, ?_, ?_⟩, ?_, ?_, ?_⟩
  · show x.answered.role = .leader
    rw [hanswered]
    exact h.role
  · show (x.follower.step x.leader.id x.message).currentTerm ≤ x.answered.currentTerm
    rw [hfollower, hanswered]
    exact le_rfl
  · show x.answered.appendFor x.follower.id = x.answered.appendFor _
    rw [show x.round.follower.id = x.follower.id from hid]
  · show x.answered.log = x.leader.log
    rw [hanswered]
    rfl
  · show (x.follower.step x.leader.id x.message).log = x.follower.log
    rw [hfollower]
    exact RaftNode.log_observeTerm _ _
  · show x.answered.progress.nextIndex _ = _
    rw [show x.round.follower.id = x.follower.id from hid, hanswered]
    simp only [RaftNode.sendAppend, RaftNode.send, LeaderProgress.nextIndex_setNextIndex, if_true]
    rfl

/-- Where the follower's snapshot point lies on the leader's log, the leader does not go back behind
it. -/
theorem Probes.settled_of_next_eq (h : x.Probes) (hon : x.OnLeaderLog)
    (hnext : x.next = x.follower.log.snapshotIndex + 1) : x.Succeeds ∨ x.Ships := by
  refine h.settled fun hlt => ?_
  have hterm := hon.termAt_eq (by omega)
  rw [Matches, hnext, Nat.add_sub_cancel, hterm, RaftLog.matches, RaftLog.termAt_snapshotIndex]
  exact beq_self_eq_true _

theorem OnLeaderLog.of_log_eq (h : x.OnLeaderLog) (hleader : y.leader.log = x.leader.log)
    (hfollower : y.follower.log = x.follower.log) : y.OnLeaderLog := by
  constructor
  · rw [hleader, hfollower]
    exact h.snapshot_le
  · rw [hleader, hfollower]
    exact h.termAt_eq

/-- The position named in a refusal: the end of the follower's log, or the position that was tried,
but not one that the follower has discarded. -/
theorem conflictHint_eq (n : RaftNode) (prev : ℕ) :
    max (n.conflictHint prev) 1 =
      if n.log.lastIndex < prev then n.log.lastIndex + 1
      else max prev (n.log.snapshotIndex + 1) := by
  unfold RaftNode.conflictHint RaftLog.firstIndex
  split <;> omega

/-- Within the follower's log, the leader goes back one position in each round. -/
theorem Probes.settles_within (d : ℕ) (h : x.Probes) (hon : x.OnLeaderLog)
    (hnext : x.next = x.follower.log.snapshotIndex + 1 + d)
    (hle : x.next ≤ x.follower.log.lastIndex + 1) :
    ∃ k ≤ d, (Exchange.round^[k] x).Succeeds ∨ (Exchange.round^[k] x).Ships := by
  induction d generalizing x with
  | zero => exact ⟨0, le_rfl, h.settled_of_next_eq hon hnext⟩
  | succ d ih =>
    by_cases hsettled : x.leader.log.snapshotIndex < x.next → x.Matches
    · exact ⟨0, Nat.zero_le _, h.settled hsettled⟩
    · obtain ⟨hlt, hfail⟩ := Classical.not_imp.mp hsettled
      obtain ⟨hprobes, hleader, hfollower, hback⟩ := h.round hlt hfail
      rw [conflictHint_eq, if_neg (by omega)] at hback
      obtain ⟨k, hk, hend⟩ := ih hprobes (hon.of_log_eq hleader hfollower)
        (by rw [hback, hfollower]; omega) (by rw [hback, hfollower]; omega)
      exact ⟨k + 1, Nat.succ_le_succ hk, hend⟩

/-- **Going back ends.** Whatever the leader sends first, if the follower's snapshot point lies on
the leader's log, after a number of refusals it sends entries that are accepted or a snapshot. -/
theorem settles (h : x.Probes) (hon : x.OnLeaderLog) :
    ∃ k ≤ x.follower.log.entries.length + 1,
      (Exchange.round^[k] x).Succeeds ∨ (Exchange.round^[k] x).Ships := by
  by_cases hsettled : x.leader.log.snapshotIndex < x.next → x.Matches
  · exact ⟨0, Nat.zero_le _, h.settled hsettled⟩
  · -- the first refusal takes the leader into the follower's log
    obtain ⟨hlt, hfail⟩ := Classical.not_imp.mp hsettled
    obtain ⟨hprobes, hleader, hfollower, hback⟩ := h.round hlt hfail
    have hlast : x.follower.log.lastIndex =
        x.follower.log.snapshotIndex + x.follower.log.entries.length := rfl
    have hwithin : x.follower.log.snapshotIndex + 1 ≤ x.round.next ∧
        x.round.next ≤ x.follower.log.lastIndex + 1 := by
      rw [hback, conflictHint_eq]
      split <;> omega
    obtain ⟨k, hk, hend⟩ := hprobes.settles_within
      (x.round.next - (x.follower.log.snapshotIndex + 1)) (hon.of_log_eq hleader hfollower)
      (by rw [hfollower]; omega) (by rw [hfollower]; omega)
    exact ⟨k + 1, by omega, hend⟩

/-! ### After a snapshot -/

/-- From `n` to `n'` the leader has stayed in office, and its log has not changed. -/
structure SameOffice (n n' : RaftNode) : Prop where
  id_eq : n'.id = n.id
  role_eq : n'.role = n.role
  term_eq : n'.currentTerm = n.currentTerm
  log_eq : n'.log = n.log

/-- The message is the snapshot that the leader, when it was `n`, has sent because it has discarded
what the follower needs; the driver has filled in `data`. -/
structure Recovers (n : RaftNode) (data : List KeyValue) (x : Exchange) : Prop where
  role : n.role = .leader
  office : SameOffice n x.leader
  discarded : n.progress.nextIndex x.follower.id ≤ n.log.snapshotIndex
  term_le : x.follower.currentTerm ≤ n.currentTerm
  message_eq : x.message = (n.appendFor x.follower.id).fillSnapshot data

/-- The message of `x` and the answer have been delivered, and `y` is the next message to the
follower. Meanwhile the leader may have heard from others. -/
structure Resumes (x y : Exchange) : Prop where
  office : SameOffice x.answered y.leader
  next_eq : y.leader.progress.nextIndex x.follower.id =
    x.answered.progress.nextIndex x.follower.id
  follower_eq : y.follower = x.follower.step x.leader.id x.message
  message_eq : y.message = y.leader.appendFor x.follower.id

theorem resumes_round (x : Exchange) : Resumes x x.round :=
  ⟨⟨rfl, rfl, rfl, rfl⟩, rfl, rfl, rfl⟩

/-- The follower accepts the entries, and then its log ends as the leader's does and has the same
terms from the leader's snapshot point on. -/
structure CatchesUp (x : Exchange) : Prop where
  succeeds : x.Succeeds
  lastIndex_eq : x.round.follower.log.lastIndex = x.leader.log.lastIndex
  lastTerm_eq : x.round.follower.log.lastTerm = x.leader.log.lastTerm
  termAt_eq : ∀ i, x.leader.log.snapshotIndex ≤ i →
    x.round.follower.log.termAt i = x.leader.log.termAt i

/-- Entries are accepted where they continue the follower's log. -/
theorem succeeds_iff {m : AppendEntries} (hmessage : x.message = .appendEntries m)
    (hid : m.leaderId = x.leader.id) (hterm : x.follower.currentTerm ≤ m.term) :
    x.Succeeds ↔ x.follower.log.matches m.prevLogIndex m.prevLogTerm = true := by
  constructor
  · rintro ⟨-, r, -, hanswers, hsuccess⟩
    by_contra hfail
    have hrefused := RaftNode.emitted_of_refused x.leader.id hterm hfail
    rw [← hmessage] at hrefused
    have heq := hanswers.symm.trans hrefused
    simp only [List.cons.injEq, Envelope.mk.injEq, Message.appendEntriesReply.injEq,
      and_true] at heq
    obtain ⟨-, rfl⟩ := heq
    cases hsuccess
  · intro hmatch
    have hanswers := RaftNode.emitted_of_accepts x.leader.id ⟨hterm, hmatch⟩
    rw [← hmessage, hid] at hanswers
    exact ⟨m, _, hmessage, hanswers, rfl⟩

/-- Of the snapshot it is known what is sent. -/
theorem Recovers.message_snapshot (h : Recovers n data x) :
    x.message = .installSnapshot (n.snapshotFor data) := by
  rw [h.message_eq, RaftNode.appendFor_of_le h.discarded]
  rfl

/-- The follower has taken over the snapshot, with the term of the leader's last entry. -/
theorem Recovers.follower (h : Recovers n data x) (hy : Resumes x y) :
    y.follower.log = ⟨[], n.log.snapshotIndex, n.log.lastTerm⟩ ∧
      y.follower.currentTerm = n.currentTerm := by
  have hterm : x.follower.currentTerm ≤ (n.snapshotFor data).term := h.term_le
  rw [hy.follower_eq, h.message_snapshot, RaftNode.step_installSnapshot _ _ hterm]
  exact ⟨rfl, rfl⟩

/-- The leader goes on from its snapshot point. -/
theorem Recovers.leader (h : Recovers n data x) (hy : Resumes x y) :
    SameOffice n y.leader ∧
      y.leader.progress.nextIndex x.follower.id = n.log.snapshotIndex + 1 := by
  have hterm : x.follower.currentTerm ≤ (n.snapshotFor data).term := h.term_le
  have hanswers := RaftNode.emitted_of_installed x.leader.id hterm
  rw [← h.message_snapshot] at hanswers
  have hanswered := (answered_of_answers hanswers).trans
    (RaftNode.step_installed x.follower.id (h.office.role_eq.trans h.role) h.office.term_eq.symm)
  obtain ⟨hid, hrole, hterm, hlog⟩ := hy.office
  have hnext := hy.next_eq
  rw [hanswered] at hid hrole hterm hlog hnext
  refine ⟨⟨hid.trans h.office.id_eq, hrole.trans h.office.role_eq, hterm.trans h.office.term_eq,
    hlog.trans h.office.log_eq⟩, ?_⟩
  rw [hnext, RaftNode.recordMatch, LeaderProgress.nextIndex_setNextIndex, if_pos rfl,
    h.office.log_eq]

/-- Behind a log without entries everything is appended. -/
theorem splice_of_entries_nil (S t : ℕ) (es : List LogEntry) :
    (⟨[], S, t⟩ : RaftLog).splice S es = ⟨es, S, t⟩ := by
  cases es with
  | nil => rfl
  | cons e es =>
    have hnone : (⟨[], S, t⟩ : RaftLog).termAt (S + 1) = none := by
      rw [RaftLog.termAt_of_ne (Nat.succ_ne_self S), RaftLog.get_of_lt (Nat.lt_succ_self S)]
      rfl
    rw [RaftLog.splice, RaftLog.spliceFrom, hnone, if_neg (by simp), RaftLog.truncateFrom,
      if_neg (Nat.not_succ_le_self S)]
    simp

/-- **A follower catches up by a snapshot** if and only if the last entry of the leader has the
term of its snapshot point. -/
theorem catchesUp_iff (h : Recovers n data x) (hy : Resumes x y) :
    y.CatchesUp ↔ n.log.lastTerm = n.log.snapshotTerm := by
  obtain ⟨hlog, hterm⟩ := h.follower hy
  obtain ⟨hoffice, hnext⟩ := h.leader hy
  have hmessage : y.message = .appendEntries (y.leader.entriesFor x.follower.id) :=
    hy.message_eq.trans (RaftNode.appendFor_of_lt (by rw [hnext, hoffice.log_eq]; omega))
  have hle : y.follower.currentTerm ≤ (y.leader.entriesFor x.follower.id).term :=
    (hterm.trans hoffice.term_eq.symm).le
  -- the consistency check compares the two terms
  have hmatch : y.follower.log.matches (y.leader.entriesFor x.follower.id).prevLogIndex
      (y.leader.entriesFor x.follower.id).prevLogTerm = true ↔
        n.log.lastTerm = n.log.snapshotTerm := by
    simp only [RaftNode.entriesFor, hnext, hoffice.log_eq, Nat.add_sub_cancel,
      RaftLog.termAt_snapshotIndex, Option.getD_some, hlog]
    simp [RaftLog.matches, RaftLog.termAt]
  have hsucceeds := succeeds_iff hmessage rfl hle
  constructor
  · intro hcatches
    exact hmatch.mp (hsucceeds.mp hcatches.succeeds)
  · intro heq
    have hacc : y.follower.Accepts (.appendEntries (y.leader.entriesFor x.follower.id)) :=
      ⟨hle, hmatch.mpr heq⟩
    have hend : y.round.follower.log = y.leader.log := by
      show (y.follower.step y.leader.id y.message).log = _
      rw [hmessage, (RaftNode.splices_step _ _ hacc).log, hlog, hoffice.log_eq]
      simp only [RaftNode.entriesFor, hnext, hoffice.log_eq, Nat.add_sub_cancel]
      rw [splice_of_entries_nil, heq, RaftLog.entriesFrom, if_neg (by omega),
        Nat.add_sub_cancel_left, Nat.sub_self, List.drop_zero]
    exact ⟨hsucceeds.mpr (hmatch.mpr heq), by rw [hend], by rw [hend], fun i _ => by rw [hend]⟩

/-- A node that has nothing yet. -/
def newcomer : RaftNode :=
  RaftNode.new "n3" ["n1", "n2"] (.eager 2) ⟨fun _ => 0⟩

/-- A leader in office, all of whose entries are of its own term, sends `n3` a snapshot. -/
def sameTerm : Exchange where
  leader := RaftNode.electedLeader.after RaftNode.compactedInOffice
  follower := newcomer
  message := ((RaftNode.electedLeader.after RaftNode.compactedInOffice).appendFor
    "n3").fillSnapshot [("k", [65])]

theorem catchesUp_sameTerm :
    sameTerm.leader.log.entries ≠ [] ∧
      sameTerm.leader.log.lastTerm = sameTerm.leader.log.snapshotTerm ∧
      sameTerm.round.CatchesUp := by
  have hrecovers : Recovers sameTerm.leader [("k", [65])] sameTerm :=
    ⟨by decide, ⟨rfl, rfl, rfl, rfl⟩, by decide, by decide, rfl⟩
  exact ⟨by decide, by decide, (catchesUp_iff hrecovers (resumes_round _)).mpr (by decide)⟩

/-- A node that has discarded two entries of term 1, and then is elected in term 2 and appends
another one. -/
def laterLeader : RaftNode :=
  (RaftNode.new "n1" ["n2", "n3"] (.eager 2) ⟨fun _ => 0⟩).after
    [.step "n2" (.appendEntries ⟨1, "n2", 0, 0, [⟨1, [65]⟩, ⟨1, [66]⟩], 2⟩), .takeReady, .tick,
      .step "n2" (.requestVoteReply ⟨2, "n2", true⟩), .propose [67]]

/-- It sends `n3` its entry. -/
def laterTerm : Exchange where
  leader := laterLeader
  follower := newcomer
  message := laterLeader.appendFor "n3"

/-- After one refusal it sends a snapshot. -/
theorem settles_laterTerm :
    laterTerm.leader.log = ⟨[⟨2, [67]⟩], 2, 1⟩ ∧ ¬laterTerm.Matches ∧
      ∃ k ≤ laterTerm.follower.log.entries.length + 1,
        (Exchange.round^[k] laterTerm).Succeeds ∨ (Exchange.round^[k] laterTerm).Ships := by
  have hprobes : laterTerm.Probes := ⟨by decide, by decide, rfl⟩
  have hon : laterTerm.OnLeaderLog := ⟨by decide, by decide⟩
  exact ⟨by decide, by decide, settles hprobes hon⟩

/-- The snapshot is labelled with term 2, and the entry behind it is refused. -/
theorem not_catchesUp_laterTerm :
    Recovers laterTerm.round.leader [] laterTerm.round ∧
      laterTerm.round.message = .installSnapshot ⟨2, "n1", 2, 2, []⟩ ∧
      laterTerm.round.round.message = .appendEntries ⟨2, "n1", 2, 1, [⟨2, [67]⟩], 2⟩ ∧
      ¬laterTerm.round.round.CatchesUp := by
  refine ⟨⟨by decide, ⟨rfl, rfl, rfl, rfl⟩, by decide, by decide, rfl⟩, by decide, by decide, ?_⟩
  rintro ⟨⟨m, r, -, hanswers, hsuccess⟩, -⟩
  have hrefused : laterTerm.round.round.answers =
      [⟨"n1", .appendEntriesReply ⟨2, "n3", false, 0, 3⟩⟩] := by decide
  rw [hrefused] at hanswers
  simp only [List.cons.injEq, Envelope.mk.injEq, Message.appendEntriesReply.injEq,
    and_true] at hanswers
  rw [← hanswers.2] at hsuccess
  cases hsuccess

end Exchange

end Ferrium
