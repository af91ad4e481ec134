import Ferrium.Cluster.Applied
import Ferrium.Cluster.Safety

/-!
# The positions of a node

A node keeps four positions in its log: the snapshot point, the last index applied, the commit index
and the last index. They are in this order as long as no accepted AppendEntries cuts the log below
the commit index (`KeepsCommitted`); nothing else that a node does can break the order.

That a message does not cut the log below the commit index is a fact about the whole cluster: in a
run that follows the protocol, the entries of a leader contradict nothing that is committed. The
code does not ensure it. A late message that starts at the beginning of the log passes the
consistency check even if the beginning has been discarded, and is then spliced in at the wrong
place.

## Main results

* `indicesChained_of_keepsCommitted`: the positions of every node are in order, in every run that
  meets the condition;
* `IsRun.keepsCommitted`: a run that follows the protocol meets it;
* `not_indicesChained_cutLog`: not every run does.
-/

namespace Ferrium

open TermLog RaftLog

namespace Cluster

variable {S : Setup} {c : Cluster} {es : List Event}

/-- The positions of every node are in order. -/
def AllChained (c : Cluster) : Prop :=
  ∀ i, (c.nodes i).Chained

/-- What holds of a node that is replaced holds of all nodes. -/
theorem AllChained.setNode (h : AllChained c) {i : NodeId} {n : RaftNode} (hn : n.Chained) :
    AllChained (c.setNode i n) := by
  intro j
  by_cases hj : j = i
  · rw [hj, nodes_setNode_self]
    exact hn
  · rw [nodes_setNode_of_ne c n hj]
    exact h j

theorem AllChained.deliver (h : AllChained c) {src f : NodeId} {message : Message}
    (hkeep : KeepsCommitted c (.deliver ⟨src, f, message⟩)) :
    ((c.nodes f).step src message).Chained := by
  cases (c.nodes f).receives_step src message with
  | keeps _ hk => exact (h f).keepsLog hk
  | splices hacc hs =>
    have hreach := le_lastIndex_splice hacc.2 (h f).commit_le (hkeep hacc.1 hacc.2)
    exact (h f).splices hs hreach
  | installs _ hi => exact hi.chained

/-- **An event keeps the positions in order.** -/
theorem AllChained.step (h : AllChained c) {e : Event} (hkeep : KeepsCommitted c e) :
    AllChained (c.step e) := by
  cases e with
  | tick i => exact h.setNode ((h i).keepsLog (RaftNode.keepsLog_tick _))
  | propose i command => exact h.setNode ((h i).propose command)
  | takeReady i data => exact h.setNode (h i).takeReady
  | deliver p => exact h.setNode (h.deliver hkeep)

theorem allChained_init : AllChained (init S) :=
  fun _ => ⟨le_rfl, le_rfl, le_rfl⟩

/-- At every moment the positions of every node are in order. -/
def IndicesChained (S : Setup) (es : List Event) : Prop :=
  ∀ before, before <+: es → ∀ i ∈ S.members, ((after S before).nodes i).Chained

/-- **A log index never points outside the log**, in every run in which no accepted message cuts a
log below the commit index. -/
theorem indicesChained_of_keepsCommitted (h : IsRun S KeepsCommitted es) :
    IndicesChained S es := by
  intro before hp i _
  have hall : AllChained (after S before) :=
    Run.Guarded.invariant (fun _ _ hg hc => hc.step hg.2) (Run.Guarded.of_isPrefix h hp)
      allChained_init
  exact hall i

theorem indicesChained_creditedSnapshot :
    IsRun (threeNodes 1) KeepsCommitted creditedSnapshot ∧
      ((after (threeNodes 1) creditedSnapshot).nodes "n1").log.snapshotIndex = 2 ∧
      ((after (threeNodes 1) creditedSnapshot).nodes "n3").log.snapshotIndex = 1 ∧
      IndicesChained (threeNodes 1) creditedSnapshot :=
  ⟨by decide, by decide, by decide, indicesChained_of_keepsCommitted (by decide)⟩

/-! ### Runs that follow the protocol -/

/-- What is committed is settled, so that the entries of a leader do not contradict it. -/
theorem Refines.commitIndex_le_splice {F : Checks} {a : State NodeId LogEntry} {src f : NodeId}
    {m : AppendEntries} (h : Refines F S c a) (hF : F.settled)
    (hen : Enabled S c (.deliver ⟨src, f, .appendEntries m⟩))
    (hterm : (c.nodes f).currentTerm ≤ m.term)
    (hmatch : (c.nodes f).log.matches m.prevLogIndex m.prevLogTerm = true)
    (hfits : (c.nodes f).log.fitsAt m.prevLogIndex m.entries) :
    (c.nodes f).commitIndex ≤
      ((c.nodes f).log.splice m.prevLogIndex m.entries).lastIndex := by
  have hnode := h.node f hen.1
  obtain ⟨hwin, hwindow, -⟩ :=
    h.tells src (h.wf.sent_src _ hen.2) _ (mem_emittedBy_of_sent hen.2)
  obtain ⟨hin, hsettled⟩ := hnode.commit hF
  obtain ⟨l, hcovers, -, hkeep, -, -⟩ := hnode.splice h.consistent hwindow hmatch hfits
  -- the committed part of the log is part of the branch, and stays
  have hpre : (a.log f).take (c.nodes f).commitIndex <+: l :=
    hkeep _ (List.take_prefix _ _)
      (hsettled.prefix_branch (h.complete hF) h.consistent hterm hwin)
  have hlen := hpre.length_le
  rwa [List.length_take, min_eq_left hin, hcovers.length_eq] at hlen

/-- Entries that fit, and do not all agree, end the log. -/
theorem lastIndex_splice_le {log : RaftLog} {prev t : ℕ} {entries : List LogEntry}
    (hmatch : log.matches prev t = true) (hfits : log.fitsAt prev entries)
    (hconflict : ¬log.agreesFrom (prev + 1) entries) :
    (log.splice prev entries).lastIndex ≤ prev + entries.length := by
  rcases splice_of_fitsAt (le_lastIndex_of_matches hmatch) hfits with
    ⟨hagree, -⟩ | ⟨es₁, e, es₂, rfl, -, -, hsnap, -, hsplice⟩
  · exact absurd hagree hconflict
  · rw [hsplice]
    simp only [lastIndex, List.length_append, List.length_take]
    omega

/-- **A run that follows the protocol** contains no message that cuts a log below the commit
index. -/
theorem IsRun.keepsCommitted (h : IsRun S FollowsProtocol es) : IsRun S KeepsCommitted es := by
  have hstep : ∀ c e, Enabled S c e ∧ FollowsProtocol c e →
      (∃ a, Refines strictChecks S c a) → ∃ a, Refines strictChecks S (c.step e) a := by
    rintro c e hg ⟨a, ha⟩
    obtain ⟨a', ha'⟩ := ha.step admits_strictChecks (ensures_followsProtocol c a e hg ha)
    exact ⟨a', ha'.refines⟩
  have hkeeps : ∀ c e, Enabled S c e ∧ FollowsProtocol c e →
      (∃ a, Refines strictChecks S c a) → Enabled S c e ∧ KeepsCommitted c e := by
    rintro c e ⟨henabled, ⟨-, hsplices⟩, -⟩ ⟨a, ha⟩
    refine ⟨henabled, ?_⟩
    unfold KeepsCommitted OnAppend
    split
    · next src f m =>
      intro hterm hmatch
      have hfits := hsplices hterm hmatch
      by_cases hagree : (c.nodes f).log.agreesFrom (m.prevLogIndex + 1) m.entries
      · exact Or.inl hagree
      · have hkept := ha.commitIndex_le_splice trivial henabled hterm hmatch hfits
        exact Or.inr ⟨hfits, hkept.trans (lastIndex_splice_le hmatch hfits hagree)⟩
    · trivial
  exact Run.Guarded.imp_of_invariant hstep hkeeps h ⟨State.init, refines_init⟩

/-! ### Runs that do not -/

/-- Node `n2` has discarded three commands and learnt that two more are committed when a late
message that starts at the beginning of the log puts the first command in their place. -/
def cutLog : List Event :=
  skippedEntry.take 22

/-- Node `n3` is elected in term 1 and again in term 3, with a command of term 1 that nobody else
has. After its first message `n2`, which has elected it, elects `n1` in the same term, and `n1`
commits two commands with it. The log of `n3` then replaces that of `n1`. -/
def rivalCut : List Event :=
  [.tick "n3", .takeReady "n3" [],
    .deliver ⟨"n3", "n2", .requestVote ⟨1, "n3", 0, 0⟩⟩, .takeReady "n2" [],
    .deliver ⟨"n2", "n3", .requestVoteReply ⟨1, "n2", true⟩⟩,
    .propose "n3" [70], .takeReady "n3" [],
    .tick "n1", .tick "n1", .takeReady "n1" [],
    .deliver ⟨"n1", "n3", .requestVote ⟨2, "n1", 0, 0⟩⟩,
    .tick "n3", .takeReady "n3" [],
    .deliver ⟨"n3", "n2", .requestVote ⟨3, "n3", 1, 1⟩⟩, .takeReady "n2" [],
    .deliver ⟨"n2", "n3", .requestVoteReply ⟨3, "n2", true⟩⟩, .takeReady "n3" [],
    .deliver ⟨"n3", "n2", .appendEntries ⟨3, "n3", 1, 1, [], 0⟩⟩,
    .tick "n1", .takeReady "n1" [],
    .deliver ⟨"n1", "n2", .requestVote ⟨3, "n1", 0, 0⟩⟩, .takeReady "n2" [],
    .deliver ⟨"n2", "n1", .requestVoteReply ⟨3, "n2", true⟩⟩,
    .propose "n1" [65], .propose "n1" [66], .takeReady "n1" [],
    .deliver ⟨"n1", "n2", .appendEntries ⟨3, "n1", 0, 0, [⟨3, [65]⟩, ⟨3, [66]⟩], 0⟩⟩,
    .takeReady "n2" [],
    .deliver ⟨"n2", "n1", .appendEntriesReply ⟨3, "n2", true, 2, 0⟩⟩, .takeReady "n1" [],
    .deliver ⟨"n3", "n1", .appendEntries ⟨3, "n3", 1, 1, [], 0⟩⟩, .takeReady "n1" [],
    .deliver ⟨"n1", "n3", .appendEntriesReply ⟨3, "n1", false, 0, 1⟩⟩, .takeReady "n3" [],
    .deliver ⟨"n3", "n1", .appendEntries ⟨3, "n3", 0, 0, [⟨1, [70]⟩], 0⟩⟩]

/-- Node `n1`, leader of term 1, has three commands that nobody else knows and answers the empty
heartbeat of `n2`, leader of term 2, with the length of its log, whereupon `n2` commits three
commands of its own. With the first of them `n1` is elected in term 3, and its next command replaces
the rest at `n2`. -/
def staleCut : List Event :=
  [.tick "n1", .takeReady "n1" [],
    .deliver ⟨"n1", "n3", .requestVote ⟨1, "n1", 0, 0⟩⟩, .takeReady "n3" [],
    .deliver ⟨"n3", "n1", .requestVoteReply ⟨1, "n3", true⟩⟩,
    .propose "n1" [65], .propose "n1" [66], .propose "n1" [67],
    .tick "n2", .tick "n2", .takeReady "n2" [],
    .deliver ⟨"n2", "n3", .requestVote ⟨2, "n2", 0, 0⟩⟩, .takeReady "n3" [],
    .deliver ⟨"n3", "n2", .requestVoteReply ⟨2, "n3", true⟩⟩, .takeReady "n2" [],
    .deliver ⟨"n2", "n1", .appendEntries ⟨2, "n2", 0, 0, [], 0⟩⟩, .takeReady "n1" [],
    .propose "n2" [68], .propose "n2" [69], .propose "n2" [70],
    .deliver ⟨"n1", "n2", .appendEntriesReply ⟨2, "n1", true, 3, 0⟩⟩, .takeReady "n2" [],
    .deliver ⟨"n2", "n1", .appendEntries ⟨2, "n2", 0, 0, [⟨2, [68]⟩], 0⟩⟩,
    .tick "n1", .takeReady "n1" [],
    .deliver ⟨"n1", "n3", .requestVote ⟨3, "n1", 1, 2⟩⟩, .takeReady "n3" [],
    .deliver ⟨"n3", "n1", .requestVoteReply ⟨3, "n3", true⟩⟩,
    .propose "n1" [71], .takeReady "n1" [],
    .deliver ⟨"n1", "n2", .appendEntries ⟨3, "n1", 1, 2, [⟨3, [71]⟩], 0⟩⟩]

/-- The log of a node ends below its commit index, after a late message, after an election by a node
that has forgotten its vote, and after a commit on the strength of a stale suffix. -/
theorem not_indicesChained_cutLog :
    Violates (threeNodes 3)
        (fun c e => RemembersVote c e ∧ NoStaleSuffix c e ∧ LabelsSnapshots c e ∧ KeepsSuffix c e)
        (IndicesChained (threeNodes 3)) cutLog ∧
      Violates (threeNodes 100)
        (fun c e => SplicesAboveSnapshot c e ∧ NoStaleSuffix c e ∧ LabelsSnapshots c e ∧
          KeepsSuffix c e)
        (IndicesChained (threeNodes 100)) rivalCut ∧
      Violates (threeNodes 100)
        (fun c e => KeepsPaths c e ∧ LabelsSnapshots c e ∧ KeepsSuffix c e)
        (IndicesChained (threeNodes 100)) staleCut := by
  refine ⟨⟨by decide, by decide, fun h => ?_⟩, ⟨by decide, by decide, fun h => ?_⟩,
    by decide, by decide, fun h => ?_⟩
  · exact absurd (h cutLog List.prefix_rfl "n2" (by decide)).commit_le (by decide)
  · exact absurd (h rivalCut List.prefix_rfl "n1" (by decide)).commit_le (by decide)
  · exact absurd (h staleCut List.prefix_rfl "n2" (by decide)).commit_le (by decide)

end Cluster

end Ferrium
