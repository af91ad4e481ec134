import Ferrium.Raft.Node
import Mathlib.Data.List.Basic

/-!
# What the operations of a node change

The loops of `RaftNode` in closed form: what a broadcast puts into the queue, what `commitFrom`
leaves, what the apply loop hands out.
-/

namespace Ferrium

namespace RaftNode

variable {n : RaftNode}

/-- A loop that sends to each peer, where no message depends on the queue, adds these messages. -/
theorem foldl_send (n : RaftNode) (f : NodeId → Message) (peers : List NodeId) :
    peers.foldl (fun node peer => node.send peer (f peer)) n =
      { n with outgoing := n.outgoing ++ peers.map fun peer => ⟨peer, f peer⟩ } := by
  induction peers generalizing n with
  | nil => simp
  | cons p peers ih =>
    rw [List.foldl_cons, ih]
    simp [send]

theorem broadcastAppend_eq (n : RaftNode) :
    n.broadcastAppend =
      { n with outgoing := n.outgoing ++ n.peers.map fun peer => ⟨peer, n.appendFor peer⟩ } := by
  -- the message for a peer does not depend on the queue, so it is the same in every round
  have hloop : ∀ (peers : List NodeId) (out : List Envelope),
      peers.foldl sendAppend { n with outgoing := out } =
        peers.foldl (fun node peer => node.send peer (n.appendFor peer))
          { n with outgoing := out } := by
    intro peers
    induction peers with
    | nil => exact fun _ => rfl
    | cons p peers ih => exact fun out => ih (out ++ [⟨p, n.appendFor p⟩])
  have := hloop n.peers n.outgoing
  rw [foldl_send] at this
  exact this

theorem requestVotes_eq (n : RaftNode) :
    n.requestVotes =
      { n with
        outgoing := n.outgoing ++ n.peers.map fun peer => ⟨peer, .requestVote
          { term := n.currentTerm
            candidateId := n.id
            lastLogIndex := n.log.lastIndex
            lastLogTerm := n.log.lastTerm }⟩ } :=
  foldl_send n _ n.peers

theorem advanceCommit_eq (n : RaftNode) :
    n.advanceCommit =
      { n with
        commitIndex :=
          if n.role = .leader then n.commitFrom n.log.lastIndex else n.commitIndex } := by
  unfold advanceCommit
  by_cases h : n.role = .leader <;> simp [h]

@[simp]
theorem author_appendFor (n : RaftNode) (peer : NodeId) : (n.appendFor peer).author = n.id := by
  unfold appendFor
  dsimp only
  split <;> rfl

@[simp]
theorem ballot_appendFor (n : RaftNode) (peer dst : NodeId) :
    (Envelope.mk dst (n.appendFor peer)).ballot = none := by
  unfold appendFor
  dsimp only
  split <;> rfl

/-- The replicas that are counted are the leader and the peers whose match index is high enough. -/
theorem replicas_eq (n : RaftNode) (k : ℕ) :
    n.replicas k = (n.peers.filter fun peer => k ≤ n.progress.matchIndex peer).length + 1 := by
  have hloop : ∀ (peers : List NodeId) (count : ℕ),
      peers.foldl
          (fun count peer => if k ≤ n.progress.matchIndex peer then count + 1 else count) count =
        (peers.filter fun peer => k ≤ n.progress.matchIndex peer).length + count := by
    intro peers
    induction peers with
    | nil => simp
    | cons p peers ih =>
      intro count
      by_cases hp : k ≤ n.progress.matchIndex p
      · simp only [List.foldl_cons, hp, if_true, ih, decide_true, List.filter_cons_of_pos,
          List.length_cons]
        omega
      · simp [hp, ih]
  exact hloop n.peers 1

/-- The commit loop leaves the commit index, or raises it to an entry of the current term that a
majority is counted for. -/
theorem commitFrom_cases (n : RaftNode) (k : ℕ) :
    n.commitFrom k = n.commitIndex ∨
      (n.commitIndex < n.commitFrom k ∧ n.commitFrom k ≤ k ∧
        n.log.termAt (n.commitFrom k) = some n.currentTerm ∧
        n.majority ≤ n.replicas (n.commitFrom k)) := by
  fun_induction commitFrom n k with
  | case1 => exact Or.inl rfl
  | case2 => exact Or.inl rfl
  | case3 k hlt hterm ih => exact ih.imp_right fun ⟨h₁, h₂, h₃⟩ => ⟨h₁, h₂.trans k.le_succ, h₃⟩
  | case4 k hlt hterm hmaj => exact Or.inr ⟨not_le.mp hlt, le_rfl, not_not.mp hterm, hmaj⟩
  | case5 k hlt hterm hmaj ih =>
    exact ih.imp_right fun ⟨h₁, h₂, h₃⟩ => ⟨h₁, h₂.trans k.le_succ, h₃⟩

/-- The commit index never falls in the commit loop. -/
theorem commitIndex_le_commitFrom (n : RaftNode) (k : ℕ) : n.commitIndex ≤ n.commitFrom k := by
  rcases n.commitFrom_cases k with h | ⟨h, -⟩
  · exact h.ge
  · exact h.le

/-- What one round of the apply loop hands out for an index. -/
def appliedAt (n : RaftNode) (index : ℕ) : List Committed :=
  match n.log.get index with
  | some entry => if entry.command = [] then [] else [Committed.command index entry.command]
  | none => []

theorem applyNext_eq (n : RaftNode) :
    n.applyNext =
      { n with
        lastApplied := n.lastApplied + 1
        committed := n.committed ++ n.appliedAt (n.lastApplied + 1) } := by
  unfold applyNext appliedAt
  cases hget : n.log.get (n.lastApplied + 1) with
  | none => simp [hget]
  | some entry => by_cases hc : entry.command = [] <;> simp [hget, hc]

/-- The command that a round hands out stands in the log at its index, and is not empty. -/
theorem mem_appliedAt {index : ℕ} {item : Committed} :
    item ∈ n.appliedAt index ↔ ∃ entry, n.log.get index = some entry ∧ entry.command ≠ [] ∧
      item = .command index entry.command := by
  unfold appliedAt
  cases n.log.get index with
  | none => simp
  | some entry => by_cases hempty : entry.command = [] <;> simp [hempty]

theorem applyRounds_eq (rounds : ℕ) (n : RaftNode) :
    applyRounds rounds n =
      { n with
        lastApplied := n.lastApplied + rounds
        committed :=
          n.committed ++ (List.range' (n.lastApplied + 1) rounds).flatMap n.appliedAt } := by
  induction rounds generalizing n with
  | zero => simp [applyRounds]
  | succ rounds ih =>
    rw [applyRounds, ih, applyNext_eq]
    have hat : ∀ (m : RaftNode), m.log = n.log → m.appliedAt = n.appliedAt := fun m hm => by
      funext index
      unfold appliedAt
      rw [hm]
    rw [hat _ rfl, List.range'_succ, List.flatMap_cons, List.append_assoc]
    congr 1
    exact Nat.succ_add_eq_add_succ _ _

/-- What the apply loop hands out. -/
def newlyApplied (n : RaftNode) : List Committed :=
  (List.range' (n.lastApplied + 1) (n.commitIndex - n.lastApplied)).flatMap n.appliedAt

/-- The last applied index that the apply loop leaves. -/
def appliedIndex (n : RaftNode) : ℕ :=
  n.lastApplied + (n.commitIndex - n.lastApplied)

/-- The log that `maybe_compact` leaves after the apply loop. -/
def appliedLog (n : RaftNode) : RaftLog :=
  if n.config.snapshotThreshold ≤ n.appliedIndex - n.log.snapshotIndex then
    n.log.compact n.appliedIndex
  else n.log

theorem appliedLog_cases (n : RaftNode) :
    n.appliedLog = n.log ∨ n.appliedLog = n.log.compact n.appliedIndex := by
  unfold appliedLog
  split
  · exact Or.inr rfl
  · exact Or.inl rfl

theorem applyCommitted_eq (n : RaftNode) :
    n.applyCommitted =
      { n with
        lastApplied := n.appliedIndex
        committed := n.committed ++ n.newlyApplied
        log := n.appliedLog } := by
  rw [applyCommitted, applyRounds_eq, maybeCompact, appliedLog]
  dsimp only
  split
  · next h => rw [if_pos (show _ ≤ n.appliedIndex - _ from h)]; rfl
  · next h => rw [if_neg (show ¬_ ≤ n.appliedIndex - _ from h)]; rfl

theorem takeReady_eq (n : RaftNode) :
    n.takeReady =
      { n with
        lastApplied := n.appliedIndex
        log := n.appliedLog
        outgoing := []
        committed := [] } := by
  rw [takeReady, applyCommitted_eq]

theorem messages_ready (n : RaftNode) : n.ready.messages = n.outgoing := by
  rw [ready, applyCommitted_eq]

theorem committed_ready (n : RaftNode) :
    n.ready.committed = n.committed ++ n.newlyApplied := by
  rw [ready, applyCommitted_eq]

/-- The commands that the apply loop hands out are those that stand in the log at the indices that
were committed but not applied, without the empty ones. -/
theorem mem_newlyApplied {index : ℕ} {command : List UInt8} :
    Committed.command index command ∈ n.newlyApplied ↔
      n.lastApplied < index ∧ index ≤ n.commitIndex ∧ command ≠ [] ∧
        ∃ entry, n.log.get index = some entry ∧ entry.command = command := by
  unfold newlyApplied
  constructor
  · intro h
    obtain ⟨k, hk, hmem⟩ := List.mem_flatMap.mp h
    obtain ⟨entry, hget, hne, heq⟩ := mem_appliedAt.mp hmem
    obtain ⟨rfl, rfl⟩ := Committed.command.inj heq
    obtain ⟨hle, hlt⟩ := List.mem_range'_1.mp hk
    exact ⟨hle, by omega, hne, entry, hget, rfl⟩
  · rintro ⟨hlt, hle, hne, entry, hget, rfl⟩
    refine List.mem_flatMap.mpr ⟨index, List.mem_range'_1.mpr ⟨hlt, by omega⟩, ?_⟩
    exact mem_appliedAt.mpr ⟨entry, hget, hne, rfl⟩

/-- The candidate's own vote is a majority only if there is nobody to ask. -/
theorem peers_eq_nil_of_majority
    (h : n.standForElection.majority ≤ n.standForElection.votes.count) :
    n.standForElection.peers = [] := by
  have hcount : n.standForElection.votes.count = 1 := rfl
  rw [hcount] at h
  unfold majority clusterSize at h
  exact List.eq_nil_of_length_eq_zero (by omega)

/-! ### The queue only grows until it is drained -/

theorem outgoing_prefix_becomeLeader (n : RaftNode) : n.outgoing <+: n.becomeLeader.outgoing := by
  rw [becomeLeader, advanceCommit_eq, broadcastAppend_eq]
  exact List.prefix_append _ _

theorem outgoing_prefix_becomeCandidate (n : RaftNode) :
    n.outgoing <+: n.becomeCandidate.outgoing := by
  unfold becomeCandidate
  dsimp only
  split
  · exact outgoing_prefix_becomeLeader n.standForElection
  · rw [requestVotes_eq]
    exact List.prefix_append _ _

theorem tick_of_leader (h : n.role = .leader) :
    n.tick =
      if n.config.heartbeatTicks ≤ n.heartbeatElapsed + 1 then
        { n with heartbeatElapsed := 0 }.broadcastAppend
      else { n with heartbeatElapsed := n.heartbeatElapsed + 1 } := by
  unfold tick
  split
  · rfl
  all_goals next hrole => exact absurd (hrole.symm.trans h) (by decide)

theorem tick_of_ne_leader (h : n.role ≠ .leader) :
    n.tick =
      if n.electionTimeout ≤ n.electionElapsed + 1 then
        { n with electionElapsed := n.electionElapsed + 1 }.becomeCandidate
      else { n with electionElapsed := n.electionElapsed + 1 } := by
  unfold tick
  split
  · next hrole => exact absurd hrole h
  · rfl
  · rfl

/-- What a tick can do: a leader counts or sends heartbeats, and any other node counts or starts an
election. -/
theorem tick_cases (n : RaftNode) :
    (n.role = .leader ∧ n.tick = { n with heartbeatElapsed := n.heartbeatElapsed + 1 }) ∨
    (n.role = .leader ∧ n.config.heartbeatTicks ≤ n.heartbeatElapsed + 1 ∧
      n.tick = { n with heartbeatElapsed := 0 }.broadcastAppend) ∨
    (n.role ≠ .leader ∧ n.tick = { n with electionElapsed := n.electionElapsed + 1 }) ∨
    (n.role ≠ .leader ∧
      n.tick = { n with electionElapsed := n.electionElapsed + 1 }.becomeCandidate) := by
  by_cases hrole : n.role = .leader
  · rw [tick_of_leader hrole]
    split
    · next hdue => exact Or.inr (Or.inl ⟨hrole, hdue, rfl⟩)
    · exact Or.inl ⟨hrole, rfl⟩
  · rw [tick_of_ne_leader hrole]
    split
    · exact Or.inr (Or.inr (Or.inr ⟨hrole, rfl⟩))
    · exact Or.inr (Or.inr (Or.inl ⟨hrole, rfl⟩))

theorem outgoing_prefix_tick (n : RaftNode) : n.outgoing <+: n.tick.outgoing := by
  rcases n.tick_cases with ⟨-, heq⟩ | ⟨-, -, heq⟩ | ⟨-, heq⟩ | ⟨-, heq⟩ <;> rw [heq]
  · rw [broadcastAppend_eq]
    exact List.prefix_append _ _
  · exact outgoing_prefix_becomeCandidate { n with electionElapsed := n.electionElapsed + 1 }

theorem outgoing_prefix_propose (n : RaftNode) (command : List UInt8) :
    n.outgoing <+: (n.propose command).2.outgoing := by
  unfold propose
  split
  · exact List.prefix_rfl
  · dsimp only
    rw [advanceCommit_eq, broadcastAppend_eq]
    exact List.prefix_append _ _

@[simp]
theorem outgoing_observeTerm (n : RaftNode) (T : ℕ) :
    (n.observeTerm T).outgoing = n.outgoing := by
  unfold observeTerm
  split <;> rfl

@[simp]
theorem log_observeTerm (n : RaftNode) (T : ℕ) : (n.observeTerm T).log = n.log := by
  unfold observeTerm
  split <;> rfl

@[simp]
theorem currentTerm_observeTerm (n : RaftNode) (T : ℕ) :
    (n.observeTerm T).currentTerm = max n.currentTerm T := by
  unfold observeTerm
  split
  · next hlt => exact (max_eq_right hlt.le).symm
  · next hle => exact (max_eq_left (not_lt.mp hle)).symm

/-- A message that is not of a later term goes to its handler at once. -/
theorem step_eq_handle {n : RaftNode} (sender : NodeId) {message : Message}
    (hterm : message.term ≤ n.currentTerm) : n.step sender message = n.handle sender message := by
  have hobs : n.observeTerm message.term = n := if_neg (not_lt.mpr hterm)
  unfold step
  rw [hobs]

theorem outgoing_prefix_handle (n : RaftNode) (sender : NodeId) (message : Message) :
    n.outgoing <+: (n.handle sender message).outgoing := by
  cases message with
  | requestVote m =>
    simp only [handle, handleRequestVote]
    split <;> exact List.prefix_append _ _
  | requestVoteReply m =>
    simp only [handle, handleRequestVoteReply]
    split
    · exact List.prefix_rfl
    · split
      · split
        · exact outgoing_prefix_becomeLeader { n with votes := n.votes.record m.voterId }
        · exact List.prefix_rfl
      · exact List.prefix_rfl
  | appendEntries m =>
    simp only [handle, handleAppendEntries]
    split
    · exact List.prefix_append _ _
    · split <;> exact List.prefix_append _ _
  | appendEntriesReply m =>
    simp only [handle, handleAppendEntriesReply]
    split
    · exact List.prefix_rfl
    · split
      · rw [advanceCommit_eq]
        exact List.prefix_rfl
      · exact List.prefix_append _ _
  | installSnapshot m =>
    simp only [handle, handleInstallSnapshot]
    split
    · exact List.prefix_rfl
    · exact List.prefix_append _ _
  | installSnapshotReply m =>
    simp only [handle, handleInstallSnapshotReply]
    split <;> exact List.prefix_rfl

theorem outgoing_prefix_step (n : RaftNode) (sender : NodeId) (message : Message) :
    n.outgoing <+: (n.step sender message).outgoing := by
  have := outgoing_prefix_handle (n.observeTerm message.term) sender message
  rwa [outgoing_observeTerm] at this

/-! ### Receiving an AppendEntries -/

/-- An AppendEntries that is not of an older term and passes the consistency check is accepted. -/
theorem step_appendEntries (n : RaftNode) (sender : NodeId) {m : AppendEntries}
    (hterm : n.currentTerm ≤ m.term)
    (hmatch : n.log.matches m.prevLogIndex m.prevLogTerm = true) :
    n.step sender (.appendEntries m) =
      ((n.observeTerm m.term).becomeFollower m.term (some m.leaderId)).acceptAppend m := by
  have hcur : ¬m.term < (n.observeTerm m.term).currentTerm := by simp [hterm]
  have hlog : ((n.observeTerm m.term).becomeFollower m.term (some m.leaderId)).log.matches
      m.prevLogIndex m.prevLogTerm = true := by
    have : ((n.observeTerm m.term).becomeFollower m.term (some m.leaderId)).log = n.log :=
      log_observeTerm n m.term
    rwa [this]
  show (n.observeTerm m.term).handleAppendEntries m = _
  unfold handleAppendEntries
  rw [if_neg hcur]
  exact if_pos hlog

/-- A snapshot that is not of an older term is installed. -/
theorem step_installSnapshot (n : RaftNode) (sender : NodeId) {m : InstallSnapshot}
    (hterm : n.currentTerm ≤ m.term) :
    n.step sender (.installSnapshot m) =
      ((n.observeTerm m.term).becomeFollower m.term (some m.leaderId)).acceptSnapshot m := by
  have hcur : ¬m.term < (n.observeTerm m.term).currentTerm := by simp [hterm]
  exact if_neg hcur

/-- A node answers an AppendEntries with the reply `r`. -/
def Answers (n : RaftNode) (sender : NodeId) (m : AppendEntries) (r : AppendEntriesReply) : Prop :=
  (n.step sender (.appendEntries m)).outgoing =
    n.outgoing ++ [⟨m.leaderId, .appendEntriesReply r⟩]

instance decidableAnswers (n : RaftNode) (sender : NodeId) (m : AppendEntries)
    (r : AppendEntriesReply) : Decidable (n.Answers sender m r) :=
  inferInstanceAs (Decidable (_ = _))

/-- A positive answer means that the message was accepted. -/
theorem Answers.accepted {sender : NodeId} {m : AppendEntries} {r : AppendEntriesReply}
    (h : n.Answers sender m r) (hsuccess : r.success = true) :
    n.currentTerm ≤ m.term ∧ n.log.matches m.prevLogIndex m.prevLogTerm = true ∧
      r.term = m.term := by
  -- the other answers are negative
  have hnegative : ∀ (n' : RaftNode) (k : ℕ), n'.outgoing = n.outgoing →
      (n'.rejectAppend m.leaderId k).outgoing ≠
        n.outgoing ++ [⟨m.leaderId, .appendEntriesReply r⟩] := by
    intro n' k hout heq
    simp only [rejectAppend, send, hout, List.append_cancel_left_eq, List.cons.injEq,
      Envelope.mk.injEq, Message.appendEntriesReply.injEq, true_and, and_true] at heq
    rw [← heq] at hsuccess
    cases hsuccess
  have hstep : (n.step sender (.appendEntries m)).outgoing =
      ((n.observeTerm m.term).handleAppendEntries m).outgoing := rfl
  unfold Answers at h
  rw [hstep] at h
  unfold handleAppendEntries at h
  split at h
  · exact absurd h (hnegative _ 0 (outgoing_observeTerm n m.term))
  · next hcur =>
    rw [currentTerm_observeTerm, not_lt, max_le_iff] at hcur
    dsimp only at h
    split at h
    · next hmatch =>
      have hlog : ((n.observeTerm m.term).becomeFollower m.term (some m.leaderId)).log = n.log :=
        log_observeTerm n m.term
      have hout : ((n.observeTerm m.term).becomeFollower m.term (some m.leaderId)).outgoing =
          n.outgoing := outgoing_observeTerm n m.term
      refine ⟨hcur.1, hlog ▸ hmatch, ?_⟩
      simp only [acceptAppend, send, hout, List.append_cancel_left_eq, List.cons.injEq,
        Envelope.mk.injEq, Message.appendEntriesReply.injEq, true_and, and_true] at h
      rw [← h]
      rfl
    · exact absurd h (hnegative _ _ (outgoing_observeTerm n m.term))

end RaftNode

end Ferrium
