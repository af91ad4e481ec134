import Ferrium.Raft.Inputs
import Ferrium.Raft.Terms

/-!
# A leader in office

As long as a node is leader, it stays in its term, and its log grows at the end and is discarded
from the beginning, but nothing in between changes. All that could change the log otherwise, an
AppendEntries or an InstallSnapshot that is accepted, makes the node a follower, even if it is of
the leader's own term.

`RaftLog.Extends` relates the log of a leader to its log at an earlier moment. It is transitive, so
that it is enough to look at a single call.

## Main results

* `RaftNode.extends_input`: a call that leaves a leader in office extends its log;
* `RaftNode.appendOnly_of_leadsThroughout`: so does every sequence of calls.
-/

namespace Ferrium

namespace RaftLog

variable {log log' log'' : RaftLog} {T i : ℕ}

/-- `log'` is `log` with some entries of term `T` appended and a part of the beginning discarded, of
which the term at the snapshot point is left. -/
structure Extends (T : ℕ) (log log' : RaftLog) : Prop where
  snapshot_le : log.snapshotIndex ≤ log'.snapshotIndex
  last_le : log.lastIndex ≤ log'.lastIndex
  get_eq : ∀ i, log'.snapshotIndex < i → i ≤ log.lastIndex → log'.get i = log.get i
  termAt_eq : ∀ i, log'.snapshotIndex ≤ i → i ≤ log.lastIndex → log'.termAt i = log.termAt i
  appended : ∀ i, log.lastIndex < i → log'.snapshotIndex ≤ i → i ≤ log'.lastIndex →
    log'.termAt i = some T

namespace Extends

theorem refl (T : ℕ) (log : RaftLog) : Extends T log log where
  snapshot_le := le_rfl
  last_le := le_rfl
  get_eq _ _ _ := rfl
  termAt_eq _ _ _ := rfl
  appended _ hlt _ hle := absurd hlt (not_lt.mpr hle)

theorem trans (h : Extends T log log') (h' : Extends T log' log'') : Extends T log log'' where
  snapshot_le := h.snapshot_le.trans h'.snapshot_le
  last_le := h.last_le.trans h'.last_le
  get_eq i hlt hle := by
    rw [h'.get_eq i hlt (hle.trans h.last_le)]
    exact h.get_eq i (h'.snapshot_le.trans_lt hlt) hle
  termAt_eq i hsnap hle := by
    rw [h'.termAt_eq i hsnap (hle.trans h.last_le)]
    exact h.termAt_eq i (h'.snapshot_le.trans hsnap) hle
  appended i hlt hsnap hle := by
    -- the index was appended before or after the moment in between
    rcases Nat.lt_or_ge log'.lastIndex i with hlater | hbefore
    · exact h'.appended i hlater hsnap hle
    · rw [h'.termAt_eq i hsnap hbefore]
      exact h.appended i hlt (h'.snapshot_le.trans hsnap) hbefore

theorem append (log : RaftLog) (e : LogEntry) : Extends e.term log (log.append [e]) := by
  have hlast : (log.append [e]).lastIndex = log.lastIndex + 1 := by
    simp [lastIndex, RaftLog.append, Nat.add_assoc]
  have hget : ∀ i, log.snapshotIndex < i → i ≤ log.lastIndex →
      (log.append [e]).get i = log.get i := by
    intro i hlt hle
    obtain ⟨x, hx⟩ := exists_get_of_lt hlt hle
    rw [get_append_of_get hx, hx]
  refine ⟨le_rfl, by omega, hget, fun i hsnap hle => ?_, fun i hlt _ hle => ?_⟩
  · rcases hsnap.eq_or_lt with rfl | hlt
    · rw [termAt_snapshotIndex]
      exact (if_pos rfl).symm
    · have hne : i ≠ log.snapshotIndex := hlt.ne'
      rw [termAt_of_ne hlt.ne', termAt_of_ne hne, hget i hlt hle]
  · obtain rfl : i = log.lastIndex + 1 := by omega
    exact termAt_of_get (get_append_singleton log e)

theorem compact (T : ℕ) (log : RaftLog) (k : ℕ) : Extends T log (log.compact k) where
  snapshot_le := (log.snapshotIndex_compact k).1
  last_le := (log.lastIndex_compact k).ge
  get_eq i hlt _ := by
    rcases log.compact_cases k with heq | ⟨e, -, heq⟩
    · rw [heq]
    · rw [heq] at hlt
      exact get_compact_of_lt hlt
  termAt_eq _ hsnap _ := termAt_compact hsnap
  appended i hlt _ hle := by
    rw [lastIndex_compact] at hle
    exact absurd hlt (not_lt.mpr hle)

end Extends

end RaftLog

namespace RaftNode

variable {n : RaftNode} {e : Input} {inputs : List Input}

/-! ### Staying in office -/

/-- No message makes a follower anything else. -/
theorem role_handle_of_follower (hrole : n.role = .follower) (sender : NodeId)
    (message : Message) : (n.handle sender message).role = .follower := by
  have hcandidate : n.role ≠ .candidate := by
    rw [hrole]
    decide
  have hleader : n.role ≠ .leader := by
    rw [hrole]
    decide
  cases message with
  | requestVote m =>
    simp only [handle, handleRequestVote]
    split <;> exact hrole
  | requestVoteReply m =>
    simp only [handle, handleRequestVoteReply, if_pos (Or.inl hcandidate)]
    exact hrole
  | appendEntries m =>
    simp only [handle, handleAppendEntries]
    split
    · exact hrole
    · split <;> rfl
  | appendEntriesReply m =>
    simp only [handle, handleAppendEntriesReply, if_pos (Or.inl hleader)]
    exact hrole
  | installSnapshot m =>
    simp only [handle, handleInstallSnapshot]
    split
    · exact hrole
    · rfl
  | installSnapshotReply m =>
    simp only [handle, handleInstallSnapshotReply, if_pos (Or.inl hleader)]
    exact hrole

/-- A message after which a node is leader is not of a later term than its own. -/
theorem term_le_of_role_step {sender : NodeId} {message : Message}
    (hrole : (n.step sender message).role = .leader) : message.term ≤ n.currentTerm := by
  by_contra hlt
  have hobs : n.observeTerm message.term = n.becomeFollower message.term none :=
    if_pos (not_le.mp hlt)
  unfold step at hrole
  rw [hobs, role_handle_of_follower rfl] at hrole
  cases hrole

/-- What is accepted makes the node a follower. -/
theorem not_accepts_of_role_step {sender : NodeId} {message : Message}
    (hrole : (n.step sender message).role = .leader) : ¬n.Accepts message := by
  cases n.receives_step sender message with
  | keeps hrefused _ => exact hrefused
  | splices _ hs => cases hs.role.symm.trans hrole
  | installs _ hi => cases hi.role.symm.trans hrole

/-- A call that leaves a leader in office leaves it in its term. -/
theorem currentTerm_input_of_leader (hrole : n.role = .leader)
    (hrole' : (n.input e).role = .leader) : (n.input e).currentTerm = n.currentTerm := by
  cases e with
  | tick =>
    show n.tick.currentTerm = n.currentTerm
    rw [tick_of_leader hrole]
    split
    · rw [broadcastAppend_eq]
    · rfl
  | propose command => exact n.currentTerm_propose command
  | takeReady =>
    show n.takeReady.currentTerm = n.currentTerm
    rw [takeReady_eq]
  | step sender message =>
    show (n.step sender message).currentTerm = n.currentTerm
    rw [currentTerm_step]
    exact max_eq_left (term_le_of_role_step hrole')

/-- **A call that leaves a leader in office extends its log** with entries of its term. -/
theorem extends_input (hrole : n.role = .leader) (hrole' : (n.input e).role = .leader) :
    n.log.Extends n.currentTerm (n.input e).log := by
  cases e with
  | tick =>
    have hlog : n.tick.log = n.log := n.keepsLog_tick.log
    rw [show n.input .tick = n.tick from rfl, hlog]
    exact .refl _ _
  | propose command =>
    have hlog := (n.keepsLog_propose command hrole).log
    rw [show n.input (.propose command) = (n.propose command).2 from rfl, hlog]
    exact .append n.log (n.newEntry command)
  | takeReady =>
    rw [show n.input .takeReady = n.takeReady from rfl, takeReady_eq]
    show n.log.Extends n.currentTerm n.appliedLog
    rcases n.appliedLog_cases with heq | heq <;> rw [heq]
    · exact .refl _ _
    · exact .compact _ _ _
  | step sender message =>
    have hlog := (n.keepsLog_step sender (not_accepts_of_role_step hrole')).log
    rw [show n.input (.step sender message) = n.step sender message from rfl, hlog]
    exact .refl _ _

/-! ### Whole tenures -/

/-- The node is leader at the beginning, at the end, and whenever a call returns. -/
def LeadsThroughout (n : RaftNode) (inputs : List Input) : Prop :=
  ∀ before, before <+: inputs → (n.after before).role = .leader

instance decidableLeadsThroughout (n : RaftNode) (inputs : List Input) :
    Decidable (n.LeadsThroughout inputs) :=
  decidable_of_iff (∀ before ∈ inputs.inits, (n.after before).role = .leader)
    (forall_congr' fun _ => by rw [List.mem_inits])

/-- Between any two moments, the term stays and the log is extended with entries of this term. -/
def AppendOnly (n : RaftNode) (inputs : List Input) : Prop :=
  ∀ before later, before ++ later <+: inputs →
    (n.after (before ++ later)).currentTerm = (n.after before).currentTerm ∧
      (n.after before).log.Extends (n.after before).currentTerm (n.after (before ++ later)).log

/-- **Leader append-only**, in every sequence of calls during which the node is leader. -/
theorem appendOnly_of_leadsThroughout (h : n.LeadsThroughout inputs) : n.AppendOnly inputs := by
  intro before later
  induction later using List.reverseRecOn with
  | nil =>
    intro _
    rw [List.append_nil]
    exact ⟨rfl, .refl _ _⟩
  | append_singleton later e ih =>
    intro hp
    rw [← List.append_assoc] at hp ⊢
    have hmiddle : before ++ later <+: inputs := (List.prefix_append _ _).trans hp
    obtain ⟨hterm, hextends⟩ := ih hmiddle
    -- the last call
    have hrole := h _ hmiddle
    have hrole' := h _ hp
    rw [after_append_singleton] at hrole' ⊢
    have hlast := extends_input hrole hrole'
    rw [hterm] at hlast
    exact ⟨(currentTerm_input_of_leader hrole hrole').trans hterm, hextends.trans hlast⟩

/-- A node that has been elected by one of its two peers, and compacts its log after two entries. -/
def electedLeader : RaftNode :=
  (RaftNode.new "n1" ["n2", "n3"] (.eager 2) ⟨fun _ => 0⟩).after
    [.tick, .step "n2" (.requestVoteReply ⟨1, "n2", true⟩)]

/-- Two of its entries are committed and discarded, and a third one is appended. -/
def compactedInOffice : List Input :=
  [.propose [65], .propose [66], .step "n2" (.appendEntriesReply ⟨1, "n2", true, 2, 0⟩), .takeReady,
    .tick, .propose [67]]

theorem appendOnly_compactedInOffice :
    electedLeader.LeadsThroughout compactedInOffice ∧
      (electedLeader.after compactedInOffice).log = ⟨[⟨1, [67]⟩], 2, 1⟩ ∧
      electedLeader.AppendOnly compactedInOffice :=
  ⟨by decide, by decide, appendOnly_of_leadsThroughout (by decide)⟩

end RaftNode

end Ferrium
