import Ferrium.Cluster.Accounting
import Ferrium.Raft.CatchUp

/-!
# The progress of the peers

A leader keeps for each peer the highest index that is known to be replicated there and the next
index to send. Whatever a reply says is written over both of them, so that they are as recent as the
reply is. `RaftNode.InTime` says of a reply that it does not fall back behind what is recorded, and
does not point outside the leader's log.

## Main results

* `RaftNode.Records.inTime_iff`: a reply is in time just if recording it does not set the match
  index back and leaves the two indices in order;
* `Cluster.progressMonotone_iff`: the progress of every peer is monotone in a run just if all
  replies of the run are in time;
* `Cluster.not_progressMonotone_overtaken`: not all are. A reply may be overtaken by a later one, or
  be the refusal of a request of an earlier term; and a follower may report more than the leader
  has, or have installed a snapshot that is behind its log.
-/

namespace Ferrium

/-- The two indices of the peer are in order, and within a log that ends at `last`. -/
def LeaderProgress.Ordered (self : LeaderProgress) (last : ℕ) (p : NodeId) : Prop :=
  self.matchIndex p < self.nextIndex p ∧ self.nextIndex p ≤ last + 1

theorem LeaderProgress.ordered_reset {peers : List NodeId} {p : NodeId} (last : ℕ)
    (h : p ∈ peers) : (reset peers last).Ordered last p := by
  unfold Ordered
  rw [matchIndex_reset, nextIndex_reset last h]
  exact ⟨last.succ_pos, le_rfl⟩

theorem LeaderProgress.Ordered.mono {self : LeaderProgress} {last last' : ℕ} {p : NodeId}
    (h : self.Ordered last p) (hle : last ≤ last') : self.Ordered last' p :=
  ⟨h.1, h.2.trans (Nat.succ_le_succ hle)⟩

namespace RaftNode

variable {n : RaftNode} {sender p : NodeId} {message : Message} {q : LeaderProgress} {e : Input}

/-! ### One reply -/

/-- If the message is a reply that the leader takes into account, it reports at least what is
recorded for the sender, and nothing outside the log. -/
def InTime (n : RaftNode) (sender : NodeId) : Message → Prop
  | .appendEntriesReply r => n.role = .leader → r.term = n.currentTerm →
    if r.success then
      n.progress.matchIndex sender ≤ r.matchIndex ∧ r.matchIndex ≤ n.log.lastIndex
    else
      n.progress.matchIndex sender < max r.conflictIndex 1 ∧
        max r.conflictIndex 1 ≤ n.log.lastIndex + 1
  | .installSnapshotReply r => n.role = .leader → r.term = n.currentTerm →
    n.progress.matchIndex sender ≤ n.log.snapshotIndex
  | .requestVote _ | .requestVoteReply _ | .appendEntries _ | .installSnapshot _ => True

instance decidableInTime (n : RaftNode) (sender : NodeId) :
    ∀ message, Decidable (n.InTime sender message)
  | .appendEntriesReply r => inferInstanceAs (Decidable (n.role = .leader →
      r.term = n.currentTerm → if r.success then _ else _))
  | .installSnapshotReply r => inferInstanceAs (Decidable (n.role = .leader →
      r.term = n.currentTerm → n.progress.matchIndex sender ≤ n.log.snapshotIndex))
  | .requestVote _ | .requestVoteReply _ | .appendEntries _ | .installSnapshot _ => isTrue trivial

/-- What a leader makes of a message that leaves it in office: `q` is the progress afterwards. -/
inductive Records (n : RaftNode) (sender : NodeId) : Message → LeaderProgress → Prop
  | nothing {message : Message} (intime : n.InTime sender message) :
    Records n sender message n.progress
  | success {r : AppendEntriesReply} (term_eq : r.term = n.currentTerm) (succ : r.success = true) :
    Records n sender (.appendEntriesReply r)
      ((n.progress.setMatchIndex sender r.matchIndex).setNextIndex sender (r.matchIndex + 1))
  | refusal {r : AppendEntriesReply} (term_eq : r.term = n.currentTerm) (fail : r.success = false) :
    Records n sender (.appendEntriesReply r)
      (n.progress.setNextIndex sender (max r.conflictIndex 1))
  | installed {r : InstallSnapshotReply} (term_eq : r.term = n.currentTerm) :
    Records n sender (.installSnapshotReply r)
      ((n.progress.setMatchIndex sender n.log.snapshotIndex).setNextIndex sender
        (n.log.snapshotIndex + 1))

theorem records_step (hrole : n.role = .leader)
    (hrole' : (n.step sender message).role = .leader) :
    n.Records sender message (n.step sender message).progress := by
  have hstep := step_eq_handle sender (term_le_of_role_step hrole')
  have hcandidate : n.role ≠ .candidate := by
    rw [hrole]
    decide
  cases message with
  | requestVote m =>
    have hprogress : (n.handleRequestVote m).progress = n.progress := by
      unfold handleRequestVote
      dsimp only
      split <;> rfl
    rw [hstep, show n.handle sender (.requestVote m) = n.handleRequestVote m from rfl, hprogress]
    exact .nothing trivial
  | requestVoteReply m =>
    rw [hstep]
    simp only [handle, handleRequestVoteReply, if_pos (Or.inl hcandidate)]
    exact .nothing trivial
  | appendEntries m =>
    rw [hstep] at hrole' ⊢
    simp only [handle, handleAppendEntries] at hrole' ⊢
    split at hrole'
    · next hlt =>
      rw [if_pos hlt]
      exact .nothing trivial
    · -- a request of the own term ends the tenure
      split at hrole' <;> cases hrole'
  | appendEntriesReply r =>
    by_cases hterm : r.term = n.currentTerm
    · -- advancing the commit index and sending leave the progress as it is
      cases hs : r.success with
      | true =>
        rw [step_success sender hrole hterm hs, advanceCommit_eq]
        exact .success hterm hs
      | false =>
        rw [step_refusal sender hrole hterm hs]
        exact .refusal hterm hs
    · rw [hstep]
      simp only [handle, handleAppendEntriesReply, if_pos (Or.inr hterm)]
      exact .nothing fun _ h => absurd h hterm
  | installSnapshot m =>
    rw [hstep] at hrole' ⊢
    simp only [handle, handleInstallSnapshot] at hrole' ⊢
    split at hrole'
    · next hlt =>
      rw [if_pos hlt]
      exact .nothing trivial
    · cases hrole'
  | installSnapshotReply r =>
    by_cases hterm : r.term = n.currentTerm
    · rw [step_installed sender hrole hterm]
      exact .installed hterm
    · rw [hstep]
      simp only [handle, handleInstallSnapshotReply, if_pos (Or.inr hterm)]
      exact .nothing fun _ h => absurd h hterm

/-- Only the progress of the sender changes. -/
theorem Records.of_ne (h : n.Records sender message q) (hne : p ≠ sender) :
    q.matchIndex p = n.progress.matchIndex p ∧ q.nextIndex p = n.progress.nextIndex p := by
  cases h <;> simp [hne]

/-- **A reply is in time** just if recording it does not set the match index back, and leaves the
indices in order. -/
theorem Records.inTime_iff (h : n.Records sender message q) (hrole : n.role = .leader)
    (hordered : n.progress.Ordered n.log.lastIndex sender) :
    n.InTime sender message ↔
      n.progress.matchIndex sender ≤ q.matchIndex sender ∧ q.Ordered n.log.lastIndex sender := by
  cases h with
  | nothing intime => exact iff_of_true intime ⟨le_rfl, hordered⟩
  | success term_eq succ => simp [InTime, LeaderProgress.Ordered, hrole, term_eq, succ]
  | refusal term_eq fail => simp [InTime, LeaderProgress.Ordered, hrole, term_eq, fail]
  | installed term_eq =>
    have hsnap : n.log.snapshotIndex ≤ n.log.lastIndex := Nat.le_add_right _ _
    simp [InTime, LeaderProgress.Ordered, hrole, term_eq, hsnap]

/-- Only a reply that leaves the leader in office can be late. -/
theorem inTime_of_leads (h : n.role = .leader → (n.step sender message).role = .leader →
    n.InTime sender message) : n.InTime sender message := by
  cases message with
  | appendEntriesReply r =>
    intro hrole hterm
    refine h hrole ?_ hrole hterm
    cases hs : r.success with
    | true =>
      rw [step_success sender hrole hterm hs, advanceCommit_eq]
      exact hrole
    | false =>
      rw [step_refusal sender hrole hterm hs]
      exact hrole
  | installSnapshotReply r =>
    intro hrole hterm
    refine h hrole ?_ hrole hterm
    rw [step_installed sender hrole hterm]
    exact hrole
  | requestVote m => trivial
  | requestVoteReply m => trivial
  | appendEntries m => trivial
  | installSnapshot m => trivial

/-! ### One call -/

/-- If the call delivers a reply of `p`, the reply is in time. -/
def Prompt (n : RaftNode) (p : NodeId) : Input → Prop
  | .step sender message => sender = p → n.InTime sender message
  | .tick | .propose _ | .takeReady => True

theorem ordered_becomeLeader (h : p ∈ n.peers) :
    n.becomeLeader.progress.Ordered n.becomeLeader.log.lastIndex p := by
  unfold becomeLeader
  rw [advanceCommit_eq, broadcastAppend_eq]
  exact LeaderProgress.ordered_reset n.log.lastIndex h

theorem ordered_becomeCandidate (hrole' : n.becomeCandidate.role = .leader) (h : p ∈ n.peers) :
    n.becomeCandidate.progress.Ordered n.becomeCandidate.log.lastIndex p := by
  unfold becomeCandidate at hrole' ⊢
  dsimp only at hrole' ⊢
  split at hrole'
  · next hmajority =>
    rw [if_pos hmajority]
    exact ordered_becomeLeader h
  · rw [requestVotes_eq] at hrole'
    cases hrole'

/-- A message makes a node leader only by the vote that completes its majority. -/
theorem ordered_handle (hrole : n.role ≠ .leader)
    (hrole' : (n.handle sender message).role = .leader) (h : p ∈ n.peers) :
    (n.handle sender message).progress.Ordered (n.handle sender message).log.lastIndex p := by
  cases message with
  | requestVote m =>
    refine absurd (Eq.trans ?_ hrole') hrole
    simp only [handle, handleRequestVote]
    split <;> rfl
  | requestVoteReply m =>
    simp only [handle, handleRequestVoteReply] at hrole' ⊢
    split at hrole'
    · exact absurd hrole' hrole
    · split at hrole'
      · split at hrole'
        · next hterm hgranted hmajority =>
          rw [if_neg hterm, if_pos hgranted, if_pos hmajority]
          exact ordered_becomeLeader h
        · exact absurd hrole' hrole
      · exact absurd hrole' hrole
  | appendEntries m =>
    simp only [handle, handleAppendEntries] at hrole'
    split at hrole'
    · exact absurd hrole' hrole
    · split at hrole' <;> cases hrole'
  | appendEntriesReply r =>
    simp only [handle, handleAppendEntriesReply, if_pos (Or.inl hrole)] at hrole'
    exact absurd hrole' hrole
  | installSnapshot m =>
    simp only [handle, handleInstallSnapshot] at hrole'
    split at hrole'
    · exact absurd hrole' hrole
    · cases hrole'
  | installSnapshotReply r =>
    simp only [handle, handleInstallSnapshotReply, if_pos (Or.inl hrole)] at hrole'
    exact absurd hrole' hrole

/-- The progress is in order when a node takes office. -/
theorem ordered_of_elected (hrole : n.role ≠ .leader) (hrole' : (n.input e).role = .leader)
    (h : p ∈ n.peers) : (n.input e).progress.Ordered (n.input e).log.lastIndex p := by
  cases e with
  | tick =>
    simp only [input] at hrole' ⊢
    rcases n.tick_cases with ⟨hleader, -⟩ | ⟨hleader, -⟩ | ⟨-, heq⟩ | ⟨-, heq⟩
    · exact absurd hleader hrole
    · exact absurd hleader hrole
    · rw [heq] at hrole'
      exact absurd hrole' hrole
    · rw [heq] at hrole' ⊢
      exact ordered_becomeCandidate hrole' h
  | propose command =>
    refine absurd (Eq.trans ?_ hrole') hrole
    simp only [input, propose, if_pos hrole]
  | takeReady =>
    refine absurd (Eq.trans ?_ hrole') hrole
    simp only [input, takeReady_eq]
  | step sender message =>
    have hobs : (n.observeTerm message.term).role ≠ .leader ∧
        p ∈ (n.observeTerm message.term).peers := by
      unfold observeTerm
      split
      · exact ⟨Role.noConfusion, h⟩
      · exact ⟨hrole, h⟩
    exact ordered_handle hobs.1 hrole' hobs.2

/-- In office, it stays in order and does not go back as long as the replies are in time. -/
theorem ordered_input (hrole : n.role = .leader) (hrole' : (n.input e).role = .leader)
    (hordered : n.progress.Ordered n.log.lastIndex p) (hprompt : n.Prompt p e) :
    n.progress.matchIndex p ≤ (n.input e).progress.matchIndex p ∧
      (n.input e).progress.Ordered (n.input e).log.lastIndex p := by
  have hlast := (extends_input hrole hrole').last_le
  have hkept (heq : (n.input e).progress = n.progress) :
      n.progress.matchIndex p ≤ (n.input e).progress.matchIndex p ∧
        (n.input e).progress.Ordered (n.input e).log.lastIndex p := by
    rw [heq]
    exact ⟨le_rfl, hordered.mono hlast⟩
  cases e with
  | tick =>
    apply hkept
    show n.tick.progress = n.progress
    rw [tick_of_leader hrole]
    split
    · rw [broadcastAppend_eq]
    · rfl
  | propose command =>
    apply hkept
    simp only [input, propose, if_neg (not_not.mpr hrole), advanceCommit_eq, broadcastAppend_eq]
  | takeReady =>
    apply hkept
    show n.takeReady.progress = n.progress
    rw [takeReady_eq]
  | step sender message =>
    have hrecords := records_step hrole hrole'
    by_cases hsender : sender = p
    · subst hsender
      obtain ⟨hle, hordered'⟩ := (hrecords.inTime_iff hrole hordered).mp (hprompt rfl)
      exact ⟨hle, hordered'.mono hlast⟩
    · obtain ⟨hmatch, hnext⟩ := hrecords.of_ne (Ne.symm hsender)
      have hordered' : (n.step sender message).progress.Ordered n.log.lastIndex p := by
        unfold LeaderProgress.Ordered
        rw [hmatch, hnext]
        exact hordered
      exact ⟨hmatch.ge, hordered'.mono hlast⟩

/-- The node has the peers that it was created with, and if it is leader, the progress of each of
them is in order. -/
structure Tracks (peers : List NodeId) (n : RaftNode) : Prop where
  peers_eq : n.peers = peers
  ordered : n.role = .leader → ∀ p ∈ peers, n.progress.Ordered n.log.lastIndex p

theorem Tracks.input {peers : List NodeId} (h : n.Tracks peers)
    (hprompt : ∀ p ∈ peers, n.Prompt p e) : (n.input e).Tracks peers where
  peers_eq := (n.electionStep_input e).sameIdentity.peers_eq.trans h.peers_eq
  ordered hrole' p hp := by
    by_cases hrole : n.role = .leader
    · exact (ordered_input hrole hrole' (h.ordered hrole p hp) (hprompt p hp)).2
    · exact ordered_of_elected hrole hrole' (h.peers_eq ▸ hp)

end RaftNode

/-- The node that an event is about. -/
def Event.node : Event → NodeId
  | .tick i | .propose i _ | .takeReady i _ => i
  | .deliver p => p.dst

/-- The call that an event makes. -/
def Event.input : Event → Input
  | .tick _ => .tick
  | .propose _ command => .propose command
  | .takeReady _ _ => .takeReady
  | .deliver p => .step p.src p.message

namespace Cluster

variable {S : Setup} {c : Cluster} {e : Event} {es : List Event} {i p : NodeId}

theorem nodes_step (c : Cluster) (e : Event) :
    (c.step e).nodes = Function.update c.nodes e.node ((c.nodes e.node).input e.input) := by
  cases e <;> rfl

/-! ### Whole runs -/

/-- If a reply of a peer is delivered, it is in time. -/
def Timely (S : Setup) (c : Cluster) : Event → Prop
  | .deliver p => p.src ∈ S.peers p.dst → (c.nodes p.dst).InTime p.src p.message
  | .tick _ | .propose _ _ | .takeReady _ _ => True

instance decidableTimely (S : Setup) (c : Cluster) : ∀ e, Decidable (Timely S c e)
  | .deliver p => inferInstanceAs (Decidable (p.src ∈ S.peers p.dst →
      (c.nodes p.dst).InTime p.src p.message))
  | .tick _ | .propose _ _ | .takeReady _ _ => isTrue trivial

theorem Timely.prompt (h : Timely S c e) (hp : p ∈ S.peers e.node) :
    (c.nodes e.node).Prompt p e.input := by
  cases e with
  | deliver q =>
    rintro rfl
    exact h hp
  | tick i => trivial
  | propose i command => trivial
  | takeReady i data => trivial

/-- The progress of the peers of every leader is in order. -/
def InOrder (S : Setup) (c : Cluster) : Prop :=
  ∀ i, (c.nodes i).Tracks (S.peers i)

theorem inOrder_init (S : Setup) : InOrder S (init S) := fun _ =>
  { peers_eq := rfl
    ordered := fun hrole => by cases hrole }

theorem InOrder.step (h : InOrder S c) (htimely : Timely S c e) : InOrder S (c.step e) := by
  intro i
  rw [nodes_step]
  rcases eq_or_ne i e.node with rfl | hne
  · rw [Function.update_self]
    exact (h e.node).input fun p hp => htimely.prompt hp
  · rw [Function.update_of_ne hne]
    exact h i

/-- Where a leader remains in office, the match indices of its peers do not go back. -/
theorem InOrder.matchIndex_le (h : InOrder S c) (htimely : Timely S c e) (hp : p ∈ S.peers i)
    (hrole : (c.nodes i).role = .leader) (hrole' : ((c.step e).nodes i).role = .leader) :
    (c.nodes i).progress.matchIndex p ≤ ((c.step e).nodes i).progress.matchIndex p := by
  rw [nodes_step] at hrole' ⊢
  rcases eq_or_ne i e.node with rfl | hne
  · rw [Function.update_self] at hrole' ⊢
    exact (RaftNode.ordered_input hrole hrole' ((h _).ordered hrole p hp) (htimely.prompt hp)).1
  · rw [Function.update_of_ne hne]

/-- Throughout every tenure of a leader, the match index of each of its peers does not decrease, and
the next index is above it and at most one past the leader's log. The tenure is what comes after
`before`: the node is leader at each moment of it. -/
def ProgressMonotone (S : Setup) (es : List Event) : Prop :=
  ∀ i ∈ S.members, ∀ p ∈ S.peers i, ∀ before later, before ++ later <+: es →
    (∀ between, between <+: later →
      ((after S (before ++ between)).nodes i).role = .leader) →
    ((after S before).nodes i).progress.matchIndex p ≤
        ((after S (before ++ later)).nodes i).progress.matchIndex p ∧
      ((after S (before ++ later)).nodes i).progress.Ordered
        ((after S (before ++ later)).nodes i).log.lastIndex p

theorem IsRun.inOrder (h : IsRun S (Timely S) es) : InOrder S (after S es) :=
  Run.Guarded.invariant (fun _ _ hguard hinv => InOrder.step hinv hguard.2) h (inOrder_init S)

theorem ProgressMonotone.of_isPrefix {es' : List Event} (h : ProgressMonotone S es)
    (hp : es' <+: es) : ProgressMonotone S es' :=
  fun i hi p hpeer before later hmoment => h i hi p hpeer before later (hmoment.trans hp)

theorem IsRun.progressMonotone (h : IsRun S (Timely S) es) : ProgressMonotone S es := by
  intro i _ p hp before later hmoment hleads
  have horder : InOrder S (after S (before ++ later)) := IsRun.inOrder (h.of_isPrefix hmoment)
  refine ⟨?_, (horder i).ordered (hleads later List.prefix_rfl) p hp⟩
  -- event by event, up to the end of `later`
  induction later using List.reverseRecOn with
  | nil => rw [List.append_nil]
  | append_singleton later e ih =>
    have hmiddle : later <+: later ++ [e] := List.prefix_append _ _
    rw [← List.append_assoc] at hmoment
    have hbefore : before ++ later <+: es := (List.prefix_append _ _).trans hmoment
    have hrun : IsRun S (Timely S) (before ++ later) := h.of_isPrefix hbefore
    have htimely : Timely S (after S (before ++ later)) e :=
      (Run.guarded_append.mp (h.of_isPrefix hmoment)).2.1.2
    have hlast : after S (before ++ (later ++ [e])) = (after S (before ++ later)).step e := by
      rw [← List.append_assoc]
      exact Run.exec_append _ _ _
    have hrole' := hleads (later ++ [e]) List.prefix_rfl
    rw [hlast] at hrole' ⊢
    exact (ih hbefore (fun between hbetween => hleads between (hbetween.trans hmiddle))
        hrun.inOrder).trans
      (hrun.inOrder.matchIndex_le htimely hp (hleads later hmiddle) hrole')

/-- Where the progress is monotone, the next event is timely: a reply that is not would set the
progress of its sender back, or out of order. -/
theorem ProgressMonotone.timely (h : ProgressMonotone S (es ++ [e]))
    (henabled : Enabled S (after S es) e) : Timely S (after S es) e := by
  cases e with
  | tick i => trivial
  | propose i command => trivial
  | takeReady i data => trivial
  | deliver q =>
    intro hp
    apply RaftNode.inTime_of_leads
    intro hrole hrole'
    have hlast : (after S (es ++ [.deliver q])).nodes q.dst =
        ((after S es).nodes q.dst).step q.src q.message := by
      show (Run.exec step (init S) (es ++ [.deliver q])).nodes q.dst = _
      rw [Run.exec_append]
      exact nodes_setNode_self _ _ _
    -- the indices are in order before the reply, and still after it
    have hnow := h q.dst henabled.1 q.src hp es [] (by simp)
      (fun between hbetween => by simpa [List.prefix_nil.mp hbetween] using hrole)
    have hnext := h q.dst henabled.1 q.src hp es [.deliver q] List.prefix_rfl <| by
      intro between hbetween
      rcases List.prefix_concat_iff.mp (show between <+: [] ++ [.deliver q] from hbetween) with
        rfl | hnil
      · exact hlast ▸ hrole'
      · simpa [List.prefix_nil.mp hnil] using hrole
    rw [List.append_nil] at hnow
    rw [hlast] at hnext
    have hlog := (((after S es).nodes q.dst).keepsLog_step q.src
      (RaftNode.not_accepts_of_role_step hrole')).log
    rw [hlog] at hnext
    exact ((RaftNode.records_step hrole hrole').inTime_iff hrole hnow.2).mpr hnext

/-- **The progress of the peers is monotone in a run just if all replies are in time.** -/
theorem progressMonotone_iff (h : IsRun S anyEvent es) :
    ProgressMonotone S es ↔ IsRun S (Timely S) es := by
  refine ⟨fun hmono => ?_, IsRun.progressMonotone⟩
  induction es using List.reverseRecOn with
  | nil => trivial
  | append_singleton es e ih =>
    obtain ⟨hes, ⟨henabled, -⟩, -⟩ := Run.guarded_append.mp h
    have hmoment : es <+: es ++ [e] := List.prefix_append _ _
    exact Run.guarded_append.mpr ⟨ih hes (hmono.of_isPrefix hmoment),
      ⟨henabled, hmono.timely henabled⟩, trivial⟩

theorem progressMonotone_catchUp :
    IsRun (threeNodes 1) anyEvent catchUp ∧ IsRun (threeNodes 1) (Timely (threeNodes 1)) catchUp ∧
      ProgressMonotone (threeNodes 1) catchUp :=
  ⟨by decide, by decide, (progressMonotone_iff (by decide)).mpr (by decide)⟩

/-- Node `n2` answers two requests in the order in which they were sent, and the second answer
arrives first: the match index of `n2` goes from 2 to 1. -/
def overtakenReply : List Event :=
  [.tick "n1", .takeReady "n1" [],
    .deliver ⟨"n1", "n2", .requestVote ⟨1, "n1", 0, 0⟩⟩, .takeReady "n2" [],
    .deliver ⟨"n2", "n1", .requestVoteReply ⟨1, "n2", true⟩⟩,
    .propose "n1" [65], .propose "n1" [66], .takeReady "n1" [],
    .deliver ⟨"n1", "n2", .appendEntries ⟨1, "n1", 0, 0, [⟨1, [65]⟩], 0⟩⟩,
    .deliver ⟨"n1", "n2", .appendEntries ⟨1, "n1", 0, 0, [⟨1, [65]⟩, ⟨1, [66]⟩], 0⟩⟩,
    .takeReady "n2" [],
    .deliver ⟨"n2", "n1", .appendEntriesReply ⟨1, "n2", true, 2, 0⟩⟩,
    .deliver ⟨"n2", "n1", .appendEntriesReply ⟨1, "n2", true, 1, 0⟩⟩]

/-- Node `n1` is elected in term 1 and again in term 3, when `n2` receives a heartbeat of term 1. It
refuses, in term 3, with a conflict index of 0: the next index of `n2` is then 1, as its match
index is. -/
def outdatedRefusal : List Event :=
  [.tick "n1", .takeReady "n1" [],
    .deliver ⟨"n1", "n2", .requestVote ⟨1, "n1", 0, 0⟩⟩, .takeReady "n2" [],
    .deliver ⟨"n2", "n1", .requestVoteReply ⟨1, "n2", true⟩⟩, .takeReady "n1" [],
    .tick "n3", .tick "n3", .takeReady "n3" [],
    .deliver ⟨"n3", "n1", .requestVote ⟨2, "n3", 0, 0⟩⟩,
    .tick "n1", .takeReady "n1" [],
    .deliver ⟨"n1", "n2", .requestVote ⟨3, "n1", 0, 0⟩⟩, .takeReady "n2" [],
    .deliver ⟨"n2", "n1", .requestVoteReply ⟨3, "n2", true⟩⟩,
    .propose "n1" [65], .takeReady "n1" [],
    .deliver ⟨"n1", "n2", .appendEntries ⟨3, "n1", 0, 0, [⟨3, [65]⟩], 0⟩⟩, .takeReady "n2" [],
    .deliver ⟨"n2", "n1", .appendEntriesReply ⟨3, "n2", true, 1, 0⟩⟩,
    .deliver ⟨"n1", "n2", .appendEntries ⟨1, "n1", 0, 0, [], 0⟩⟩, .takeReady "n2" [],
    .deliver ⟨"n2", "n1", .appendEntriesReply ⟨3, "n2", false, 0, 0⟩⟩]

/-- Node `n2` is credited with one entry by its peer `n1`, and has none. -/
def overlongReport : List Event :=
  staleSuffix.take 16

/-- The snapshot that takes a command from `n3` is answered: the match index of `n3` goes from 2 to
the snapshot point of the leader, which is 1. -/
def lateSnapshotReply : List Event :=
  discardedAck ++
    [.takeReady "n3" [], .deliver ⟨"n3", "n1", .installSnapshotReply ⟨1, "n3"⟩⟩]

/-- At the end of a run, for a leader that was in office before the last `k` events. -/
theorem ProgressMonotone.last (h : ProgressMonotone S es) (k : ℕ) (hi : i ∈ S.members)
    (hp : p ∈ S.peers i)
    (hleads : ∀ between ∈ (es.drop k).inits,
      ((after S (es.take k ++ between)).nodes i).role = .leader) :
    ((after S (es.take k)).nodes i).progress.matchIndex p ≤
        ((after S es).nodes i).progress.matchIndex p ∧
      ((after S es).nodes i).progress.Ordered ((after S es).nodes i).log.lastIndex p := by
  have hends := h i hi p hp (es.take k) (es.drop k) (by rw [List.take_append_drop])
    fun between hbetween => hleads between ((List.mem_inits _ _).mpr hbetween)
  rwa [List.take_append_drop] at hends

/-- The match index goes back, or the indices get out of order, if any one of the conditions on the
replies is violated. -/
theorem not_progressMonotone_overtaken :
    Violates (threeNodes 1) anyEvent (ProgressMonotone (threeNodes 1)) overtakenReply ∧
      Violates (threeNodes 1) anyEvent (ProgressMonotone (threeNodes 1)) outdatedRefusal ∧
      Violates (threeNodes 1) anyEvent (ProgressMonotone (threeNodes 1)) overlongReport ∧
      Violates (threeNodes 1) anyEvent (ProgressMonotone (threeNodes 1)) lateSnapshotReply := by
  refine ⟨⟨by decide, by decide, fun h => ?_⟩, ⟨by decide, by decide, fun h => ?_⟩,
    ⟨by decide, by decide, fun h => ?_⟩, by decide, by decide, fun h => ?_⟩
  · obtain ⟨hle, -⟩ := h.last 12 (i := "n1") (p := "n2") (by decide) (by decide) (by decide)
    exact absurd hle (by decide)
  · obtain ⟨-, hlt, -⟩ := h.last 23 (i := "n1") (p := "n2") (by decide) (by decide) (by decide)
    exact absurd hlt (by decide)
  · obtain ⟨-, -, hle⟩ := h.last 16 (i := "n2") (p := "n1") (by decide) (by decide) (by decide)
    exact absurd hle (by decide)
  · obtain ⟨hle, -⟩ := h.last 23 (i := "n1") (p := "n3") (by decide) (by decide) (by decide)
    exact absurd hle (by decide)

end Cluster

end Ferrium
