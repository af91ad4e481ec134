import Ferrium.Cluster.Accounting

/-!
# State machine safety and leader completeness

What a leader has committed is settled: it is part of a prefix that a quorum has acknowledged in one
term, and that every later leader has. So no two nodes apply different commands at one index, and no
later leader lacks a committed entry. All the checks of the protocol are needed for that, and each
of the runs at the end of the module violates one of them only.

## Main results

* `stateMachineSafety_of_followsProtocol`, `leaderCompleteness_of_followsProtocol`: in every run
  that meets the conditions;
* `not_stateMachineSafety_rivalCommits`, `not_leaderCompleteness_rivalSuccessor`: not in every run
  that meets all of the conditions but one.
-/

namespace Ferrium

open TermLog Branch RaftLog

namespace Cluster

variable {S : Setup} {c : Cluster} {es es₁ es₂ : List Event}

/-- The conditions under which the code follows the protocol. -/
def FollowsProtocol (c : Cluster) (e : Event) : Prop :=
  KeepsPaths c e ∧ NoStaleSuffix c e ∧ LabelsSnapshots c e ∧ KeepsSuffix c e

instance decidableFollowsProtocol (c : Cluster) (e : Event) : Decidable (FollowsProtocol c e) :=
  inferInstanceAs (Decidable (_ ∧ _))

/-- Positive replies are about whole logs, labels are true, and what is committed is settled. -/
def strictChecks : Checks where
  whole := True
  settled := True
  labels := True
  synced := False

/-- A snapshot keeps everything that the log of a node shares with the branch of its term. -/
def keepsShared (a : State NodeId LogEntry) (i : NodeId) (k : ℕ) : Prop :=
  ∀ p, p <+: a.log i → p <+: a.branch (a.term i) → p <+: (a.branch (a.term i)).take k

theorem admits_strictChecks : Admits strictChecks keepsShared :=
  ⟨fun _ => ⟨trivial, trivial, fun _ _ _ h => h⟩, fun h => h.elim⟩

/-- A snapshot that contradicts the log of a follower at its last entry, or goes to the end of this
log, keeps what the log shares with the branch. -/
theorem Refines.keepsShared_of_keepsSuffix {a : State NodeId LogEntry} {src f : NodeId}
    {m : InstallSnapshot} (h : Refines strictChecks S c a)
    (he : Enabled S c (.deliver ⟨src, f, .installSnapshot m⟩))
    (hcond : m.lastIncludedIndex < (c.nodes f).log.lastIndex →
      (c.nodes f).log.snapshotIndex ≤ m.lastIncludedIndex ∧
        (c.nodes f).log.termAt m.lastIncludedIndex ≠ some m.lastIncludedTerm) :
    keepsShared (a.observe f m.term) f m.lastIncludedIndex := by
  have hnode := h.node f he.1
  obtain ⟨-, -, -, -, hlabel⟩ := h.tells src (h.wf.sent_src _ he.2) _ (mem_emittedBy_of_sent he.2)
  intro p (hlog : p <+: a.log f) hbranch
  have hbranch : p <+: a.branch m.term := by simpa [State.observe] using hbranch
  have hgoal : p <+: (a.branch m.term).take m.lastIncludedIndex := by
    rcases Nat.lt_or_ge m.lastIncludedIndex p.length with hlt | hge
    · -- the snapshot would end within the shared part, where it cannot contradict the log
      exfalso
      have hin : m.lastIncludedIndex < (a.log f).length := hlt.trans_le hlog.length_le
      obtain ⟨hsnap, hterm⟩ := hcond (hnode.covers.length_eq ▸ hin)
      have hsame : (a.log f).take m.lastIncludedIndex =
          (a.branch m.term).take m.lastIncludedIndex := by
        obtain ⟨rest, hrest⟩ := hlog
        obtain ⟨rest', hrest'⟩ := hbranch
        rw [← hrest, ← hrest', List.take_append_of_le_length hlt.le,
          List.take_append_of_le_length hlt.le]
      refine hterm ?_
      rw [hnode.covers.termAt_eq_lastTerm (hnode.label trivial) hsnap hin.le, hsame,
        hlabel trivial trivial]
    · rw [List.prefix_take_iff]
      exact ⟨hbranch, hge⟩
  simpa [State.observe] using hgoal

theorem ensures_followsProtocol : Ensures strictChecks S keepsShared FollowsProtocol := by
  rintro c a e ⟨henabled, ⟨hvotes, hsplices⟩, hstale, hlabels, hsuffix⟩ href
  refine
    { enabled := henabled
      votes := hvotes
      splices := hsplices
      stale := fun _ => hstale
      labels := fun _ => hlabels
      covers := fun h => h.elim
      install := ?_ }
  unfold OnInstall
  split
  · exact fun hle => ⟨href.keepsShared_of_keepsSuffix henabled (hsuffix hle), fun _ => trivial⟩
  · trivial

/-! ### State machine safety -/

/-- No index is handed out with two different commands, be it by two nodes or by one. -/
def StateMachineSafety (S : Setup) (es : List Event) : Prop :=
  ∀ i j k x y, (i, .command k x) ∈ (after S es).handed → (j, .command k y) ∈ (after S es).handed →
    x = y

/-- An index is decided for one command only. -/
theorem Decided.unique {a : State NodeId LogEntry} {W : Prop} {k : ℕ} {x y : List UInt8}
    (hx : Decided S a k x) (hy : Decided S a k y) (hcomplete : Complete (quorums S) a)
    (hcon : Consistent (quorums S) W a) : x = y := by
  obtain ⟨t, l, e, hl, -, he, rfl⟩ := hx
  obtain ⟨t', l', e', hl', -, he', rfl⟩ := hy
  have hsame : e = e' := by
    rcases hl.compatible hl' hcomplete hcon with ⟨rest, rfl⟩ | ⟨rest, rfl⟩
    · rw [List.getElem?_append_left (List.getElem?_eq_some_iff.mp he).1, he] at he'
      exact Option.some.inj he'
    · rw [List.getElem?_append_left (List.getElem?_eq_some_iff.mp he').1, he'] at he
      exact (Option.some.inj he).symm
  rw [hsame]

/-- **State machine safety** in every run that follows the protocol. -/
theorem stateMachineSafety_of_followsProtocol (h : IsRun S FollowsProtocol es) :
    StateMachineSafety S es := by
  intro i j k x y hx hy
  obtain ⟨a, ha⟩ := IsRun.exists_refines admits_strictChecks ensures_followsProtocol h
  exact (ha.handed trivial i k x hx).unique (ha.handed trivial j k y hy) (ha.complete trivial)
    ha.consistent

theorem stateMachineSafety_threeCommands :
    IsRun (threeNodes 2) FollowsProtocol threeCommands ∧
      ("n1", .command 2 [66]) ∈ (after (threeNodes 2) threeCommands).handed ∧
      ("n2", .command 2 [66]) ∈ (after (threeNodes 2) threeCommands).handed ∧
      StateMachineSafety (threeNodes 2) threeCommands :=
  ⟨by decide, by decide, by decide, stateMachineSafety_of_followsProtocol (by decide)⟩

/-- Two leaders of one term commit different commands, both with the acknowledgement of `n2`. -/
def rivalCommits : List Event :=
  twoLeaders ++
    [.propose "n1" [65], .takeReady "n1" [],
      .deliver ⟨"n1", "n2", .appendEntries ⟨1, "n1", 0, 0, [⟨1, [65]⟩], 0⟩⟩, .takeReady "n2" [],
      .deliver ⟨"n2", "n1", .appendEntriesReply ⟨1, "n2", true, 1, 0⟩⟩, .takeReady "n1" [],
      .propose "n3" [66], .takeReady "n3" [],
      .deliver ⟨"n3", "n2", .appendEntries ⟨1, "n3", 0, 0, [⟨1, [66]⟩], 0⟩⟩, .takeReady "n2" [],
      .deliver ⟨"n2", "n3", .appendEntriesReply ⟨1, "n2", true, 1, 0⟩⟩, .takeReady "n3" []]

/-- After `n2` has committed a command that `n1` does not have, `n1` is elected in term 3 by
`n3`. -/
def staleCommit : List Event :=
  staleSuffix ++
    [.takeReady "n2" [], .tick "n1", .takeReady "n1" [],
      .deliver ⟨"n1", "n3", .requestVote ⟨3, "n1", 1, 1⟩⟩, .takeReady "n3" [],
      .deliver ⟨"n3", "n1", .requestVoteReply ⟨3, "n3", true⟩⟩]

/-- The leader of term 3 replicates its own log to `n3` and commits it. -/
def staleCommitReplaced : List Event :=
  staleCommit ++
    [.propose "n1" [67], .takeReady "n1" [],
      .deliver ⟨"n1", "n3", .appendEntries ⟨3, "n1", 1, 1, [], 0⟩⟩, .takeReady "n3" [],
      .deliver ⟨"n3", "n1", .appendEntriesReply ⟨3, "n3", false, 0, 1⟩⟩, .takeReady "n1" [],
      .deliver ⟨"n1", "n3", .appendEntries ⟨3, "n1", 0, 0, [⟨1, [65]⟩, ⟨3, [67]⟩], 0⟩⟩,
      .takeReady "n3" [],
      .deliver ⟨"n3", "n1", .appendEntriesReply ⟨3, "n3", true, 2, 0⟩⟩, .takeReady "n1" []]

/-- The leader commits its third command; `n2`, which has another entry in its place, learns from a
heartbeat that it is committed. -/
def misplacedCommit : List Event :=
  misplacedAck ++
    [.takeReady "n1" [], .tick "n1", .takeReady "n1" [],
      .deliver ⟨"n1", "n2", .appendEntries ⟨1, "n1", 3, 1, [], 3⟩⟩, .takeReady "n2" []]

/-- After `n3` has discarded a command that is committed with its acknowledgement, it elects
`n2`. -/
def discardedCommit : List Event :=
  discardedAck ++
    [.takeReady "n1" [], .tick "n2", .tick "n2", .takeReady "n2" [],
      .deliver ⟨"n2", "n3", .requestVote ⟨3, "n2", 1, 1⟩⟩, .takeReady "n3" [],
      .deliver ⟨"n3", "n2", .requestVoteReply ⟨3, "n3", true⟩⟩]

/-- The new leader commits another command at this index. -/
def discardedCommitReplaced : List Event :=
  discardedCommit ++
    [.propose "n2" [67], .takeReady "n2" [],
      .deliver ⟨"n2", "n3", .appendEntries ⟨3, "n2", 1, 1, [⟨3, [67]⟩], 0⟩⟩, .takeReady "n3" [],
      .deliver ⟨"n3", "n2", .appendEntriesReply ⟨3, "n3", true, 2, 0⟩⟩, .takeReady "n2" []]

/-- Node `n1` commits three commands with `n2` and discards the first two; after it has seen term 2,
it is elected again in term 3. -/
def reelection : List Event :=
  [.tick "n1", .takeReady "n1" [],
    .deliver ⟨"n1", "n2", .requestVote ⟨1, "n1", 0, 0⟩⟩, .takeReady "n2" [],
    .deliver ⟨"n2", "n1", .requestVoteReply ⟨1, "n2", true⟩⟩,
    .propose "n1" [65], .propose "n1" [66], .propose "n1" [67], .takeReady "n1" [],
    .deliver ⟨"n1", "n2", .appendEntries ⟨1, "n1", 0, 0, [⟨1, [65]⟩, ⟨1, [66]⟩], 0⟩⟩,
    .takeReady "n2" [],
    .deliver ⟨"n2", "n1", .appendEntriesReply ⟨1, "n2", true, 2, 0⟩⟩, .takeReady "n1" [],
    .deliver ⟨"n1", "n2", .appendEntries ⟨1, "n1", 0, 0, [⟨1, [65]⟩, ⟨1, [66]⟩, ⟨1, [67]⟩], 0⟩⟩,
    .takeReady "n2" [],
    .deliver ⟨"n2", "n1", .appendEntriesReply ⟨1, "n2", true, 3, 0⟩⟩, .takeReady "n1" [],
    .tick "n3", .tick "n3", .takeReady "n3" [],
    .deliver ⟨"n3", "n1", .requestVote ⟨2, "n3", 0, 0⟩⟩,
    .tick "n1", .takeReady "n1" [],
    .deliver ⟨"n1", "n2", .requestVote ⟨3, "n1", 3, 1⟩⟩, .takeReady "n2" [],
    .deliver ⟨"n2", "n1", .requestVoteReply ⟨3, "n2", true⟩⟩]

/-- The snapshot of two commands of term 1 is sent to `n3` with the label 3, and on the strength of
this label `n3` is elected by `n2`, which has one command more. -/
def mislabelledSnapshot : List Event :=
  reelection ++
    [.takeReady "n1" [],
      .deliver ⟨"n1", "n3", .appendEntries ⟨3, "n1", 3, 1, [], 3⟩⟩, .takeReady "n3" [],
      .propose "n1" [68],
      .deliver ⟨"n3", "n1", .appendEntriesReply ⟨3, "n3", false, 0, 1⟩⟩, .takeReady "n1" [],
      .deliver ⟨"n1", "n3", .installSnapshot ⟨3, "n1", 2, 3, []⟩⟩,
      .tick "n3", .takeReady "n3" [],
      .deliver ⟨"n3", "n2", .requestVote ⟨4, "n3", 2, 3⟩⟩, .takeReady "n2" [],
      .deliver ⟨"n2", "n3", .requestVoteReply ⟨4, "n2", true⟩⟩]

/-- The new leader passes the snapshot on, by which `n2` loses its third command, and commits
another one in its place. -/
def mislabelledCommitReplaced : List Event :=
  mislabelledSnapshot ++
    [.takeReady "n3" [],
      .deliver ⟨"n3", "n2", .appendEntries ⟨4, "n3", 2, 3, [], 2⟩⟩, .takeReady "n2" [],
      .deliver ⟨"n2", "n3", .appendEntriesReply ⟨4, "n2", false, 0, 2⟩⟩, .takeReady "n3" [],
      .deliver ⟨"n3", "n2", .installSnapshot ⟨4, "n3", 2, 3, []⟩⟩, .takeReady "n2" [],
      .deliver ⟨"n2", "n3", .installSnapshotReply ⟨4, "n2"⟩⟩,
      .propose "n3" [69], .takeReady "n3" [],
      .deliver ⟨"n3", "n2", .appendEntries ⟨4, "n3", 2, 3, [⟨4, [69]⟩], 2⟩⟩, .takeReady "n2" [],
      .deliver ⟨"n2", "n3", .appendEntriesReply ⟨4, "n2", true, 3, 0⟩⟩, .takeReady "n3" []]

/-- An index is handed out with different commands if any one of the conditions is violated. -/
theorem not_stateMachineSafety_rivalCommits :
    Violates (threeNodes 100)
        (fun c e => SplicesAboveSnapshot c e ∧ NoStaleSuffix c e ∧ LabelsSnapshots c e ∧
          KeepsSuffix c e)
        (StateMachineSafety (threeNodes 100)) rivalCommits ∧
      Violates (threeNodes 2)
        (fun c e => RemembersVote c e ∧ NoStaleSuffix c e ∧ LabelsSnapshots c e ∧ KeepsSuffix c e)
        (StateMachineSafety (threeNodes 2)) misplacedCommit ∧
      Violates (threeNodes 100)
        (fun c e => KeepsPaths c e ∧ LabelsSnapshots c e ∧ KeepsSuffix c e)
        (StateMachineSafety (threeNodes 100)) staleCommitReplaced ∧
      Violates (threeNodes 2)
        (fun c e => KeepsPaths c e ∧ NoStaleSuffix c e ∧ KeepsSuffix c e)
        (StateMachineSafety (threeNodes 2)) mislabelledCommitReplaced ∧
      Violates (threeNodes 1)
        (fun c e => KeepsPaths c e ∧ NoStaleSuffix c e ∧ LabelsSnapshots c e)
        (StateMachineSafety (threeNodes 1)) discardedCommitReplaced := by
  refine ⟨⟨by decide, by decide, fun h => ?_⟩, ⟨by decide, by decide, fun h => ?_⟩,
    ⟨by decide, by decide, fun h => ?_⟩, ⟨by decide, by decide, fun h => ?_⟩,
    by decide, by decide, fun h => ?_⟩
  · exact absurd (h "n1" "n3" 1 [65] [66] (by decide) (by decide)) (by decide)
  · exact absurd (h "n1" "n2" 3 [67] [65] (by decide) (by decide)) (by decide)
  · exact absurd (h "n1" "n2" 1 [65] [66] (by decide) (by decide)) (by decide)
  · exact absurd (h "n1" "n3" 3 [67] [69] (by decide) (by decide)) (by decide)
  · exact absurd (h "n1" "n2" 2 [66] [67] (by decide) (by decide)) (by decide)

/-! ### Leader completeness -/

/-- The event raises the commit index of `i`, which is leader then: `advance_commit` is the only way
to do so. -/
def AdvancesCommit (c : Cluster) (e : Event) (i : NodeId) : Prop :=
  ((c.step e).nodes i).role = .leader ∧ (c.nodes i).commitIndex < ((c.step e).nodes i).commitIndex

instance decidableAdvancesCommit (c : Cluster) (e : Event) (i : NodeId) :
    Decidable (AdvancesCommit c e i) :=
  inferInstanceAs (Decidable (_ ∧ _))

/-- If a leader of term `T` advances its commit index to `n` or beyond and holds the entry `x` at
`n`, then at every moment every leader of a later term holds `x` at `n` or has compacted it. -/
def LeaderCompleteness (S : Setup) (es : List Event) : Prop :=
  ∀ es₁ e i n x, es₁ ++ [e] <+: es → i ∈ S.members → AdvancesCommit (after S es₁) e i →
    n ≤ ((after S (es₁ ++ [e])).nodes i).commitIndex →
    ((after S (es₁ ++ [e])).nodes i).log.get n = some x →
    ∀ es₂, es₂ <+: es → ∀ j ∈ S.members, ((after S es₂).nodes j).role = .leader →
      ((after S (es₁ ++ [e])).nodes i).currentTerm < ((after S es₂).nodes j).currentTerm →
      ((after S es₂).nodes j).log.get n = some x ∨ n ≤ ((after S es₂).nodes j).log.snapshotIndex

/-- **Leader completeness** in every run that follows the protocol. -/
theorem leaderCompleteness_of_followsProtocol (h : IsRun S FollowsProtocol es) :
    LeaderCompleteness S es := by
  intro es₁ e i n x hp₁ hi hadv hn hget es₂ hp₂ j hj hrole hterm
  have hleader : ((after S (es₁ ++ [e])).nodes i).role = .leader := by
    simpa [after] using hadv.1
  obtain ⟨a₁, a₂, a, ha₁, ha₂, ha, hg₁, hg₂⟩ :=
    h.exists_moments admits_strictChecks ensures_followsProtocol hp₁ hp₂
  have hcommitted := ha₁.node i hi
  have hlater := ha₂.node j hj
  -- what was committed has gone into the log with which the later term was won
  have hwin := hlater.leader hrole
  have hroot := ((hcommitted.commit trivial).2.mono le_rfl hg₁).prefix_root (ha.complete trivial)
    hterm (hg₂.winner _ _ hwin)
  rw [hg₂.root _ _ hwin] at hroot
  have hpre := hroot.trans (ha₂.consistent.root_prefix _)
  rw [← hlater.log_eq_branch ha₂.consistent hrole] at hpre
  obtain ⟨hpos, hx⟩ := hcommitted.covers.of_get_eq_some hget
  have hin : ((a₁.log i).take ((after S (es₁ ++ [e])).nodes i).commitIndex)[n - 1]? = some x := by
    rw [List.getElem?_take, if_pos (by omega), hx]
  rcases Nat.lt_or_ge ((after S es₂).nodes j).log.snapshotIndex n with hlt | hge
  · left
    obtain ⟨rest, hrest⟩ := hpre
    rw [hlater.covers.get_eq hlt, ← hrest,
      List.getElem?_append_left (List.getElem?_eq_some_iff.mp hin).1]
    exact hin
  · exact Or.inr hge

theorem leaderCompleteness_reelection :
    IsRun (threeNodes 2) FollowsProtocol reelection ∧
      AdvancesCommit (after (threeNodes 2) (reelection.take 15))
        (.deliver ⟨"n2", "n1", .appendEntriesReply ⟨1, "n2", true, 3, 0⟩⟩) "n1" ∧
      ((after (threeNodes 2) reelection).nodes "n1").role = .leader ∧
      ((after (threeNodes 2) reelection).nodes "n1").currentTerm = 3 ∧
      LeaderCompleteness (threeNodes 2) reelection := by
  have hrun : IsRun (threeNodes 2) FollowsProtocol reelection := by decide
  exact ⟨hrun, by decide, by decide, by decide, leaderCompleteness_of_followsProtocol hrun⟩

/-- The second one of two leaders of term 1, whose log disagrees with what the first one has
committed, is elected in term 3. -/
def rivalSuccessor : List Event :=
  rivalCommits ++
    [.tick "n2", .takeReady "n2" [], .deliver ⟨"n2", "n3", .requestVote ⟨2, "n2", 1, 1⟩⟩,
      .tick "n3", .takeReady "n3" [],
      .deliver ⟨"n3", "n2", .requestVote ⟨3, "n3", 1, 1⟩⟩, .takeReady "n2" [],
      .deliver ⟨"n2", "n3", .requestVoteReply ⟨3, "n2", true⟩⟩]

/-- The node with a misplaced entry is elected. -/
def misplacedSuccessor : List Event :=
  misplacedAck ++
    [.tick "n2", .takeReady "n2" [],
      .deliver ⟨"n2", "n3", .requestVote ⟨2, "n2", 3, 1⟩⟩, .takeReady "n3" [],
      .deliver ⟨"n3", "n2", .requestVoteReply ⟨2, "n3", true⟩⟩]

/-- A leader lacks what an earlier one has committed if any one of the conditions is violated. -/
theorem not_leaderCompleteness_rivalSuccessor :
    Violates (threeNodes 100)
        (fun c e => SplicesAboveSnapshot c e ∧ NoStaleSuffix c e ∧ LabelsSnapshots c e ∧
          KeepsSuffix c e)
        (LeaderCompleteness (threeNodes 100)) rivalSuccessor ∧
      Violates (threeNodes 2)
        (fun c e => RemembersVote c e ∧ NoStaleSuffix c e ∧ LabelsSnapshots c e ∧ KeepsSuffix c e)
        (LeaderCompleteness (threeNodes 2)) misplacedSuccessor ∧
      Violates (threeNodes 100)
        (fun c e => KeepsPaths c e ∧ LabelsSnapshots c e ∧ KeepsSuffix c e)
        (LeaderCompleteness (threeNodes 100)) staleCommit ∧
      Violates (threeNodes 2)
        (fun c e => KeepsPaths c e ∧ NoStaleSuffix c e ∧ KeepsSuffix c e)
        (LeaderCompleteness (threeNodes 2)) mislabelledSnapshot ∧
      Violates (threeNodes 1)
        (fun c e => KeepsPaths c e ∧ NoStaleSuffix c e ∧ LabelsSnapshots c e)
        (LeaderCompleteness (threeNodes 1)) discardedCommit := by
  refine ⟨⟨by decide, by decide, fun h => ?_⟩, ⟨by decide, by decide, fun h => ?_⟩,
    ⟨by decide, by decide, fun h => ?_⟩, ⟨by decide, by decide, fun h => ?_⟩,
    by decide, by decide, fun h => ?_⟩
  · exact absurd (h (rivalCommits.take (twoLeaders.length + 4))
      (.deliver ⟨"n2", "n1", .appendEntriesReply ⟨1, "n2", true, 1, 0⟩⟩) "n1" 1 ⟨1, [65]⟩
      (by decide) (by decide) (by decide) (by decide) (by decide)
      rivalSuccessor List.prefix_rfl "n3" (by decide) (by decide) (by decide)) (by decide)
  · exact absurd (h threeCommands
      (.deliver ⟨"n2", "n1", .appendEntriesReply ⟨1, "n2", true, 3, 0⟩⟩) "n1" 3 ⟨1, [67]⟩
      (by decide) (by decide) (by decide) (by decide) (by decide)
      misplacedSuccessor List.prefix_rfl "n2" (by decide) (by decide) (by decide)) (by decide)
  · exact absurd (h (staleSuffix.take 16) (.propose "n2" [66]) "n2" 1 ⟨2, [66]⟩
      (by decide) (by decide) (by decide) (by decide) (by decide)
      staleCommit List.prefix_rfl "n1" (by decide) (by decide) (by decide)) (by decide)
  · exact absurd (h (reelection.take 15)
      (.deliver ⟨"n2", "n1", .appendEntriesReply ⟨1, "n2", true, 3, 0⟩⟩) "n1" 3 ⟨1, [67]⟩
      (by decide) (by decide) (by decide) (by decide) (by decide)
      mislabelledSnapshot List.prefix_rfl "n3" (by decide) (by decide) (by decide)) (by decide)
  · exact absurd (h (catchUp ++ [.takeReady "n3" []])
      (.deliver ⟨"n3", "n1", .appendEntriesReply ⟨1, "n3", true, 2, 0⟩⟩) "n1" 2 ⟨1, [66]⟩
      (by decide) (by decide) (by decide) (by decide) (by decide)
      discardedCommit List.prefix_rfl "n2" (by decide) (by decide) (by decide)) (by decide)

end Cluster

end Ferrium
