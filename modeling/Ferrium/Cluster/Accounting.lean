import Ferrium.Cluster.Acknowledged

/-!
# Replication accounting

The match index that a leader keeps for a peer is meant to be a position up to which the peer, while
it is in the leader's term, has the leader's log. This needs that a positive reply is about a log
without a stale suffix, that nothing acknowledged is discarded for a snapshot, and that the reply to
a snapshot is credited with no more than the peer has.
-/

namespace Ferrium

open TermLog Branch RaftLog

namespace Cluster

variable {S : Setup} {c : Cluster} {es : List Event}

/-- For every leader and every peer in its term, the log of the peer covers the match index, and up
to it both logs hold the same entries where both still have them. -/
def MatchIndexSound (S : Setup) (c : Cluster) : Prop :=
  ∀ i ∈ S.members, (c.nodes i).role = .leader → ∀ p ∈ (c.nodes i).peers,
    (c.nodes p).currentTerm = (c.nodes i).currentTerm →
    (c.nodes i).progress.matchIndex p ≤ (c.nodes p).log.lastIndex ∧
      ∀ k ≤ (c.nodes i).progress.matchIndex p, (c.nodes p).log.snapshotIndex < k →
        (c.nodes i).log.snapshotIndex < k →
        ∃ e, (c.nodes p).log.get k = some e ∧ (c.nodes i).log.get k = some e

/-- The match indices are sound at every moment of the run. -/
def SoundAccounting (S : Setup) (es : List Event) : Prop :=
  ∀ es₁, es₁ <+: es → MatchIndexSound S (after S es₁)

/-- The conditions for sound accounting. -/
def KeepsAccounts (c : Cluster) (e : Event) : Prop :=
  KeepsPaths c e ∧ NoStaleSuffix c e ∧ KeepsAcked c e ∧ SnapshotReplyCovers c e

instance decidableKeepsAccounts (c : Cluster) (e : Event) : Decidable (KeepsAccounts c e) :=
  inferInstanceAs (Decidable (_ ∧ _))

/-- Positive replies are about whole logs, and match indices are true. -/
def accountChecks : Checks where
  whole := True
  settled := False
  labels := False
  synced := True

/-- A snapshot reaches everything that the node has acknowledged in its term. -/
def reachesAcked (a : State NodeId LogEntry) (i : NodeId) (k : ℕ) : Prop :=
  ∀ k', a.acks i (a.term i) k' → k' ≤ k

theorem admits_accountChecks : Admits accountChecks reachesAcked :=
  ⟨fun h => h.elim, fun _ => ⟨trivial, fun _ _ _ h => h⟩⟩

/-- What a follower has acknowledged in the term of a snapshot is not more than its log. -/
theorem Refines.reachesAcked_of_keepsAcked {a : State NodeId LogEntry} {src f : NodeId}
    {m : InstallSnapshot} (h : Refines accountChecks S c a)
    (he : Enabled S c (.deliver ⟨src, f, .installSnapshot m⟩))
    (hle : (c.nodes f).currentTerm ≤ m.term)
    (hcond : (∃ env ∈ c.emittedBy f, env.message.affirms = some m.term) →
      (c.nodes f).log.lastIndex ≤ m.lastIncludedIndex) :
    reachesAcked (a.observe f m.term) f m.lastIncludedIndex := by
  have hf : f ∈ S.members := he.1
  have hnode := h.node f hf
  have hwin : a.winner m.term = some src :=
    (h.tells src (h.wf.sent_src _ he.2) _ (mem_emittedBy_of_sent he.2)).1
  have hne := h.winner_ne_of_sent he.2 hwin
  intro k hk
  have hk : a.acks f m.term k := by simpa [State.observe] using hk
  -- the follower was in the term when it acknowledged
  have hcur : a.term f = m.term :=
    le_antisymm (hnode.term ▸ hle) (h.consistent.acks_term f _ k hk)
  have haffirmed := (h.acker f m.term k hk).resolve_left hne
  have hlen := (h.allSynced trivial f k (hcur.symm ▸ hk) (hcur.symm ▸ hne)).2
  exact hlen.trans (hnode.covers.length_eq.trans_le (hcond haffirmed))

theorem ensures_keepsAccounts : Ensures accountChecks S reachesAcked KeepsAccounts := by
  rintro c a e ⟨henabled, ⟨hvotes, hsplices⟩, hstale, hacked, hcovers⟩ href
  refine
    { enabled := henabled
      votes := hvotes
      splices := hsplices
      stale := fun _ => hstale
      labels := fun h => h.elim
      covers := fun _ => hcovers
      install := ?_ }
  unfold OnInstall
  split
  · exact fun hle => ⟨href.reachesAcked_of_keepsAcked henabled hle (hacked hle), fun h => h.elim⟩
  · trivial

theorem Refines.matchIndexSound {a : State NodeId LogEntry} (h : Refines accountChecks S c a) :
    MatchIndexSound S c := by
  intro i hi hrole p hp hterm
  rw [h.wf.peers_eq i hi] at hp
  obtain ⟨hpmem, hne⟩ := (S.mem_peers i hi p).mp hp
  have hleader := h.node i hi
  have hpeer := h.node p hpmem
  have hcur : a.term p = (c.nodes i).currentTerm := hpeer.term.trans hterm
  -- what has been acknowledged is a common prefix of the two logs
  have hmatch : a.log p <+: a.log i ∧ (c.nodes i).progress.matchIndex p ≤ (a.log p).length ∨
      (c.nodes i).progress.matchIndex p = 0 := by
    rcases hleader.synced trivial hrole p hp with hzero | hlater | ⟨k, hk, hacks⟩
    · exact Or.inr hzero
    · exact absurd hcur hlater.ne'
    · refine Or.inl ?_
      have hwin : a.winner (a.term p) ≠ some p := by
        rw [hcur, hleader.leader hrole]
        exact fun heq => hne (Option.some.inj heq).symm
      obtain ⟨hlog, hlen⟩ := h.allSynced trivial p k (hcur.symm ▸ hacks) hwin
      rw [hleader.log_eq_branch h.consistent hrole, ← hcur]
      exact ⟨hlog, hk.trans hlen⟩
  rw [← hpeer.covers.length_eq]
  rcases hmatch with ⟨hpre, hlen⟩ | hzero
  · refine ⟨hlen, fun k hk hpk hik => ?_⟩
    obtain ⟨e, he⟩ := hpeer.covers.exists_get hpk (hk.trans hlen)
    refine ⟨e, he, ?_⟩
    obtain ⟨-, hget⟩ := hpeer.covers.of_get_eq_some he
    obtain ⟨rest, hrest⟩ := hpre
    rw [hleader.covers.get_eq hik, ← hrest,
      List.getElem?_append_left (List.getElem?_eq_some_iff.mp hget).1]
    exact hget
  · rw [hzero]
    exact ⟨Nat.zero_le _, fun k hk hpk => absurd hk (by omega)⟩

/-- **The accounting is sound** in every run that meets the conditions. -/
theorem soundAccounting_of_keepsAccounts (h : IsRun S KeepsAccounts es) :
    SoundAccounting S es := by
  intro es₁ hp
  obtain ⟨a, ha⟩ := IsRun.exists_refines admits_accountChecks ensures_keepsAccounts
    (Run.Guarded.of_isPrefix h hp)
  exact ha.matchIndexSound

theorem soundAccounting_catchUp :
    IsRun (threeNodes 1) KeepsAccounts catchUp ∧
      ((after (threeNodes 1) catchUp).nodes "n1").progress.matchIndex "n3" = 1 ∧
      SoundAccounting (threeNodes 1) catchUp :=
  ⟨by decide, by decide, soundAccounting_of_keepsAccounts (by decide)⟩

/-- Node `n1`, leader of term 1, has a command that nobody else knows when `n2` is elected in
term 2; it answers the empty heartbeat of `n2` with the length of its log. The next command that is
proposed to `n2` is committed at once. -/
def staleSuffix : List Event :=
  [.tick "n1", .takeReady "n1" [],
    .deliver ⟨"n1", "n3", .requestVote ⟨1, "n1", 0, 0⟩⟩, .takeReady "n3" [],
    .deliver ⟨"n3", "n1", .requestVoteReply ⟨1, "n3", true⟩⟩,
    .propose "n1" [65],
    .tick "n2", .tick "n2", .takeReady "n2" [],
    .deliver ⟨"n2", "n3", .requestVote ⟨2, "n2", 0, 0⟩⟩, .takeReady "n3" [],
    .deliver ⟨"n3", "n2", .requestVoteReply ⟨2, "n3", true⟩⟩, .takeReady "n2" [],
    .deliver ⟨"n2", "n1", .appendEntries ⟨2, "n2", 0, 0, [], 0⟩⟩, .takeReady "n1" [],
    .deliver ⟨"n1", "n2", .appendEntriesReply ⟨2, "n1", true, 1, 0⟩⟩, .propose "n2" [66]]

/-- The leader learns that `n3` has two commands before a late snapshot takes the second one from
`n3`. -/
def discardedAck : List Event :=
  catchUp ++
    [.takeReady "n3" [], .deliver ⟨"n3", "n1", .appendEntriesReply ⟨1, "n3", true, 2, 0⟩⟩,
      .deliver ⟨"n1", "n3", .installSnapshot ⟨1, "n1", 1, 1, []⟩⟩]

/-- The leader has compacted a second command when the reply to its snapshot of the first one
arrives. -/
def creditedSnapshot : List Event :=
  catchUp.take 13 ++
    [.deliver ⟨"n1", "n3", .installSnapshot ⟨1, "n1", 1, 1, []⟩⟩, .takeReady "n3" [],
      .propose "n1" [66], .takeReady "n1" [],
      .deliver ⟨"n1", "n2", .appendEntries ⟨1, "n1", 1, 1, [⟨1, [66]⟩], 1⟩⟩, .takeReady "n2" [],
      .deliver ⟨"n2", "n1", .appendEntriesReply ⟨1, "n2", true, 2, 0⟩⟩, .takeReady "n1" [],
      .deliver ⟨"n3", "n1", .installSnapshotReply ⟨1, "n3"⟩⟩]

/-- The leader learns that `n2` has three commands before a late message replaces the third. -/
def misplacedAck : List Event :=
  threeCommands ++
    [.deliver ⟨"n2", "n1", .appendEntriesReply ⟨1, "n2", true, 3, 0⟩⟩,
      .deliver ⟨"n1", "n2", .appendEntries ⟨1, "n1", 0, 0, [⟨1, [65]⟩], 0⟩⟩]

/-- The first of two leaders of term 3 learns that `n2` has its command before the second one
replaces it. -/
def rivalAck : List Event :=
  rivalLeaders.take 26 ++
    [.takeReady "n2" [], .deliver ⟨"n2", "n1", .appendEntriesReply ⟨3, "n2", true, 1, 0⟩⟩] ++
    rivalLeaders.drop 26

/-- The accounting goes wrong if any one of the conditions is violated. -/
theorem not_soundAccounting_staleSuffix :
    Violates (threeNodes 1)
        (fun c e => KeepsPaths c e ∧ KeepsAcked c e ∧ SnapshotReplyCovers c e)
        (SoundAccounting (threeNodes 1)) staleSuffix ∧
      Violates (threeNodes 1)
        (fun c e => KeepsPaths c e ∧ NoStaleSuffix c e ∧ SnapshotReplyCovers c e)
        (SoundAccounting (threeNodes 1)) discardedAck ∧
      Violates (threeNodes 1)
        (fun c e => KeepsPaths c e ∧ NoStaleSuffix c e ∧ KeepsAcked c e)
        (SoundAccounting (threeNodes 1)) creditedSnapshot ∧
      Violates (threeNodes 2)
        (fun c e => RemembersVote c e ∧ NoStaleSuffix c e ∧ KeepsAcked c e ∧
          SnapshotReplyCovers c e)
        (SoundAccounting (threeNodes 2)) misplacedAck ∧
      Violates (threeNodes 2)
        (fun c e => SplicesAboveSnapshot c e ∧ NoStaleSuffix c e ∧ KeepsAcked c e ∧
          SnapshotReplyCovers c e)
        (SoundAccounting (threeNodes 2)) rivalAck := by
  refine ⟨⟨by decide, by decide, fun h => ?_⟩, ⟨by decide, by decide, fun h => ?_⟩,
    ⟨by decide, by decide, fun h => ?_⟩, ⟨by decide, by decide, fun h => ?_⟩,
    by decide, by decide, fun h => ?_⟩
  · -- leader and peer have different entries
    obtain ⟨-, hsame⟩ := h staleSuffix List.prefix_rfl "n2" (by decide) (by decide) "n1"
      (by decide) (by decide)
    obtain ⟨e, hpeer, hleader⟩ := hsame 1 (by decide) (by decide) (by decide)
    exact absurd (hpeer.symm.trans (show _ = some ⟨1, [65]⟩ by decide))
      (hleader.symm.trans (show _ = some ⟨2, [66]⟩ by decide) ▸ by decide)
  · -- the peer does not have the entry any more
    exact absurd (h discardedAck List.prefix_rfl "n1" (by decide) (by decide) "n3"
      (by decide) (by decide)).1 (by decide)
  · -- the peer has never had the entry
    exact absurd (h creditedSnapshot List.prefix_rfl "n1" (by decide) (by decide) "n3"
      (by decide) (by decide)).1 (by decide)
  · -- leader and peer have different entries
    obtain ⟨-, hsame⟩ := h misplacedAck List.prefix_rfl "n1" (by decide) (by decide) "n2"
      (by decide) (by decide)
    obtain ⟨e, hpeer, hleader⟩ := hsame 3 (by decide) (by decide) (by decide)
    exact absurd (hpeer.symm.trans (show _ = some ⟨1, [65]⟩ by decide))
      (hleader.symm.trans (show _ = some ⟨1, [67]⟩ by decide) ▸ by decide)
  · obtain ⟨-, hsame⟩ := h rivalAck List.prefix_rfl "n1" (by decide) (by decide) "n2"
      (by decide) (by decide)
    obtain ⟨e, hpeer, hleader⟩ := hsame 1 (by decide) (by decide) (by decide)
    exact absurd (hpeer.symm.trans (show _ = some ⟨3, [66]⟩ by decide))
      (hleader.symm.trans (show _ = some ⟨1, [65]⟩ by decide) ▸ by decide)

end Cluster

end Ferrium
