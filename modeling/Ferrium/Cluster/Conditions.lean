import Ferrium.Cluster.Defs
import Ferrium.Raft.FullLog

/-!
# Where the code departs from the protocol

The conditions under which the handlers of `RaftNode` do what the Raft protocol asks for. Each of
them is about one event and the state in which it occurs, and is violated by some reachable state;
the modules that use a condition show what goes wrong without it.

* `SplicesAboveSnapshot`: `matches` lets index `0` pass whatever has been compacted, and `splice`
  then puts entries at the wrong place.
* `NoStaleSuffix`: the reply to an AppendEntries reports, and the commit index follows, the last
  index of the whole log, of which only a part has been compared with the leader's.
* `LabelsSnapshots`: `send_append` labels a snapshot with the last term of the log instead of the
  term of the snapshot point.
* `KeepsSuffix`, `KeepsAcked`: `install_snapshot` discards the whole log, also where it extends the
  snapshot.
* `SnapshotReplyCovers`: the reply to an InstallSnapshot is credited with the snapshot that the
  leader has when the reply arrives, not with the one that was installed.
-/

namespace Ferrium

/-- The term for which a message affirms that its sender has followed the leader. -/
def Message.affirms : Message → Option ℕ
  | .appendEntriesReply m => if m.success then some m.term else none
  | .installSnapshotReply m => some m.term
  | _ => none

@[simp]
theorem Message.affirms_fillSnapshot (data : List KeyValue) (message : Message) :
    (message.fillSnapshot data).affirms = message.affirms := by
  cases message <;> rfl

namespace Cluster

/-- `P` holds where an AppendEntries passes the checks of its receiver. -/
def OnAppend (P : RaftNode → AppendEntries → Prop) (c : Cluster) : Event → Prop
  | .deliver ⟨_, f, .appendEntries m⟩ =>
    (c.nodes f).currentTerm ≤ m.term →
      (c.nodes f).log.matches m.prevLogIndex m.prevLogTerm = true → P (c.nodes f) m
  | _ => True

instance decidableOnAppend (P : RaftNode → AppendEntries → Prop) [∀ n m, Decidable (P n m)]
    (c : Cluster) : ∀ e, Decidable (OnAppend P c e)
  | .tick _ | .propose _ _ | .takeReady _ _ => isTrue trivial
  | .deliver ⟨_, f, .appendEntries m⟩ =>
    inferInstanceAs (Decidable ((c.nodes f).currentTerm ≤ m.term →
      (c.nodes f).log.matches m.prevLogIndex m.prevLogTerm = true → P (c.nodes f) m))
  | .deliver ⟨_, _, .requestVoteReply _⟩ | .deliver ⟨_, _, .requestVote _⟩
  | .deliver ⟨_, _, .appendEntriesReply _⟩ | .deliver ⟨_, _, .installSnapshot _⟩
  | .deliver ⟨_, _, .installSnapshotReply _⟩ => isTrue trivial

/-- `P` holds where an InstallSnapshot passes the check of its receiver. -/
def OnInstall (P : Cluster → NodeId → InstallSnapshot → Prop) (c : Cluster) : Event → Prop
  | .deliver ⟨_, f, .installSnapshot m⟩ => (c.nodes f).currentTerm ≤ m.term → P c f m
  | _ => True

instance decidableOnInstall (P : Cluster → NodeId → InstallSnapshot → Prop)
    [∀ c f m, Decidable (P c f m)] (c : Cluster) : ∀ e, Decidable (OnInstall P c e)
  | .tick _ | .propose _ _ | .takeReady _ _ => isTrue trivial
  | .deliver ⟨_, f, .installSnapshot m⟩ =>
    inferInstanceAs (Decidable ((c.nodes f).currentTerm ≤ m.term → P c f m))
  | .deliver ⟨_, _, .requestVoteReply _⟩ | .deliver ⟨_, _, .requestVote _⟩
  | .deliver ⟨_, _, .appendEntriesReply _⟩ | .deliver ⟨_, _, .appendEntries _⟩
  | .deliver ⟨_, _, .installSnapshotReply _⟩ => isTrue trivial

theorem OnInstall.imp {P Q : Cluster → NodeId → InstallSnapshot → Prop} {c : Cluster} {e : Event}
    (h : OnInstall P c e) (hPQ : ∀ c f m, P c f m → Q c f m) : OnInstall Q c e := by
  unfold OnInstall at h ⊢
  split
  · exact fun hle => hPQ _ _ _ (h hle)
  · trivial

/-- The entries that are spliced in start above the snapshot point, or the first one agrees with
what is there. -/
abbrev SplicesAboveSnapshot : Cluster → Event → Prop :=
  OnAppend fun n m => n.log.fitsAt m.prevLogIndex m.entries

/-- The log of the follower does not go beyond the entries of the message, or does so with entries
of the same leader, or some entry conflicts so that the rest is dropped. -/
abbrev NoStaleSuffix : Cluster → Event → Prop :=
  OnAppend fun n m =>
    n.log.lastIndex ≤ m.prevLogIndex + m.entries.length ∨ n.log.lastTerm = m.term ∨
      ¬n.log.agreesFrom (m.prevLogIndex + 1) m.entries

/-- A snapshot that ends below the end of the follower's log contradicts this log at its last
entry. -/
abbrev KeepsSuffix : Cluster → Event → Prop :=
  OnInstall fun c f m =>
    m.lastIncludedIndex < (c.nodes f).log.lastIndex →
      (c.nodes f).log.snapshotIndex ≤ m.lastIncludedIndex ∧
        (c.nodes f).log.termAt m.lastIncludedIndex ≠ some m.lastIncludedTerm

/-- A snapshot does not end below the end of the log of a follower that has affirmed to follow the
leader in this term. -/
abbrev KeepsAcked : Cluster → Event → Prop :=
  OnInstall fun c f m =>
    (∃ env ∈ c.emittedBy f, env.message.affirms = some m.term) →
      (c.nodes f).log.lastIndex ≤ m.lastIncludedIndex

/-- No snapshot is accepted. -/
abbrev NoInstall : Cluster → Event → Prop :=
  OnInstall fun _ _ _ => False

/-- A leader that is going to send a snapshot has a log whose last term is the one of the snapshot
point. -/
def LabelsSnapshots (c : Cluster) : Event → Prop
  | .tick i =>
    (c.nodes i).role = .leader →
      (c.nodes i).config.heartbeatTicks ≤ (c.nodes i).heartbeatElapsed + 1 →
      (∃ p ∈ (c.nodes i).peers,
        (c.nodes i).progress.nextIndex p ≤ (c.nodes i).log.snapshotIndex) →
      (c.nodes i).log.lastTerm = (c.nodes i).log.snapshotTerm
  | .propose i _ =>
    (c.nodes i).role = .leader →
      (∃ p ∈ (c.nodes i).peers,
        (c.nodes i).progress.nextIndex p ≤ (c.nodes i).log.snapshotIndex) →
      (c.nodes i).currentTerm = (c.nodes i).log.snapshotTerm
  | .deliver ⟨_, i, .appendEntriesReply m⟩ =>
    (c.nodes i).role = .leader → m.term = (c.nodes i).currentTerm → m.success = false →
      max m.conflictIndex 1 ≤ (c.nodes i).log.snapshotIndex →
      (c.nodes i).log.lastTerm = (c.nodes i).log.snapshotTerm
  | _ => True

instance decidableLabelsSnapshots (c : Cluster) : ∀ e, Decidable (LabelsSnapshots c e)
  | .tick i => inferInstanceAs (Decidable ((c.nodes i).role = .leader →
      (c.nodes i).config.heartbeatTicks ≤ (c.nodes i).heartbeatElapsed + 1 →
      (∃ p ∈ (c.nodes i).peers,
        (c.nodes i).progress.nextIndex p ≤ (c.nodes i).log.snapshotIndex) →
      (c.nodes i).log.lastTerm = (c.nodes i).log.snapshotTerm))
  | .propose i _ => inferInstanceAs (Decidable ((c.nodes i).role = .leader →
      (∃ p ∈ (c.nodes i).peers,
        (c.nodes i).progress.nextIndex p ≤ (c.nodes i).log.snapshotIndex) →
      (c.nodes i).currentTerm = (c.nodes i).log.snapshotTerm))
  | .deliver ⟨_, i, .appendEntriesReply m⟩ =>
    inferInstanceAs (Decidable ((c.nodes i).role = .leader → m.term = (c.nodes i).currentTerm →
      m.success = false → max m.conflictIndex 1 ≤ (c.nodes i).log.snapshotIndex →
      (c.nodes i).log.lastTerm = (c.nodes i).log.snapshotTerm))
  | .takeReady _ _ => isTrue trivial
  | .deliver ⟨_, _, .requestVoteReply _⟩ | .deliver ⟨_, _, .requestVote _⟩
  | .deliver ⟨_, _, .appendEntries _⟩ | .deliver ⟨_, _, .installSnapshot _⟩
  | .deliver ⟨_, _, .installSnapshotReply _⟩ => isTrue trivial

/-- When the reply to an InstallSnapshot reaches the leader, the log of its sender, if it is still
in that term, covers the snapshot that the leader has by then. -/
def SnapshotReplyCovers (c : Cluster) : Event → Prop
  | .deliver ⟨src, i, .installSnapshotReply m⟩ =>
    (c.nodes i).role = .leader → m.term = (c.nodes i).currentTerm →
      (c.nodes src).currentTerm = m.term →
      (c.nodes i).log.snapshotIndex ≤ (c.nodes src).log.lastIndex
  | _ => True

instance decidableSnapshotReplyCovers (c : Cluster) : ∀ e, Decidable (SnapshotReplyCovers c e)
  | .deliver ⟨src, i, .installSnapshotReply m⟩ =>
    inferInstanceAs (Decidable ((c.nodes i).role = .leader →
      m.term = (c.nodes i).currentTerm → (c.nodes src).currentTerm = m.term →
      (c.nodes i).log.snapshotIndex ≤ (c.nodes src).log.lastIndex))
  | .tick _ | .propose _ _ | .takeReady _ _ => isTrue trivial
  | .deliver ⟨_, _, .requestVoteReply _⟩ | .deliver ⟨_, _, .requestVote _⟩
  | .deliver ⟨_, _, .appendEntries _⟩ | .deliver ⟨_, _, .appendEntriesReply _⟩
  | .deliver ⟨_, _, .installSnapshot _⟩ => isTrue trivial

end Cluster

end Ferrium
