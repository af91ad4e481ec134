import Ferrium.Cluster.LogMatching

/-!
# What a follower has acknowledged

A follower that has answered an AppendEntries positively keeps its entries for as long as it stays
in the term: everything that its log shares with the branch of the leader survives a splice. It
does not survive an InstallSnapshot that ends earlier, which the code accepts whenever it arrives
(`lateSnapshot`).
-/

namespace Ferrium

open TermLog Branch RaftLog

namespace Cluster

variable {S : Setup} {c : Cluster} {f src : NodeId} {m : AppendEntries} {es es₁ es₂ : List Event}

/-- The node holds the entries of the message at their positions, where it has not discarded
them. -/
def HoldsEntries (n : RaftNode) (m : AppendEntries) : Prop :=
  ∀ k < m.entries.length,
    n.log.get (m.prevLogIndex + 1 + k) = m.entries[k]? ∨
      m.prevLogIndex + 1 + k ≤ n.log.snapshotIndex

instance decidableHoldsEntries (n : RaftNode) (m : AppendEntries) : Decidable (HoldsEntries n m) :=
  inferInstanceAs (Decidable (∀ k < m.entries.length, _))

/-- At every moment after a node `f` has answered an AppendEntries `m` positively, if it is still in
the term of the answer and the events in between satisfy `later f m`, it holds the entries. -/
def AckSurvives (S : Setup) (later : NodeId → AppendEntries → Cluster → Event → Prop)
    (es : List Event) : Prop :=
  ∀ es₁ src f m es₂ r, es₁ ++ .deliver ⟨src, f, .appendEntries m⟩ :: es₂ <+: es →
    ((after S es₁).nodes f).Answers src m r → r.success = true →
    Run.Guarded step (later f m) (after S (es₁ ++ [.deliver ⟨src, f, .appendEntries m⟩])) es₂ →
    ((after S (es₁ ++ .deliver ⟨src, f, .appendEntries m⟩ :: es₂)).nodes f).currentTerm = r.term →
    HoldsEntries ((after S (es₁ ++ .deliver ⟨src, f, .appendEntries m⟩ :: es₂)).nodes f) m

/-- A snapshot of the same term that `f` accepts reaches the end of the entries of `m`. -/
abbrev ReachesEntries (f : NodeId) (m : AppendEntries) : Cluster → Event → Prop :=
  OnInstall fun _ f' m' => f' = f → m'.term = m.term →
    m.prevLogIndex + m.entries.length ≤ m'.lastIncludedIndex

/-- The entries of a message that a node has taken over, in the complete log. -/
theorem holdsEntries_of_prefix {b : ℕ → List LogEntry} {l p : List LogEntry} {n : RaftNode}
    (hcov : Covers b l n.log) (hlen : p.length = m.prevLogIndex) (hp : p ++ m.entries <+: l) :
    HoldsEntries n m := by
  intro k hk
  rcases Nat.lt_or_ge n.log.snapshotIndex (m.prevLogIndex + 1 + k) with hlt | hge
  · left
    obtain ⟨rest, rfl⟩ := hp
    rw [hcov.get_eq hlt, show m.prevLogIndex + 1 + k - 1 = p.length + k by omega,
      List.append_assoc, List.getElem?_append_right (Nat.le_add_right _ _), Nat.add_sub_cancel_left,
      List.getElem?_append_left hk]
  · exact Or.inr hge

/-- After an accepted AppendEntries the follower holds its window of the leader's branch. -/
theorem Refines.exists_holds {a : State NodeId LogEntry} (h : Refines pathChecks S c a)
    (he : Enabled S c (.deliver ⟨src, f, .appendEntries m⟩))
    (hcond : KeepsPaths c (.deliver ⟨src, f, .appendEntries m⟩))
    (hle : (c.nodes f).currentTerm ≤ m.term)
    (hmatch : (c.nodes f).log.matches m.prevLogIndex m.prevLogTerm = true) :
    ∃ a' p, Refines pathChecks S (c.step (.deliver ⟨src, f, .appendEntries m⟩)) a' ∧
      p.length = m.prevLogIndex ∧ Holds a' f m.term (p ++ m.entries) := by
  have hf : f ∈ S.members := he.1
  have hp : ⟨src, f, .appendEntries m⟩ ∈ c.sent := he.2
  have hsrc := h.wf.sent_src _ hp
  have hne : src ≠ f := (h.wf.addressed src hsrc _ (mem_emittedBy_of_sent hp)).2.1.symm
  obtain ⟨a', ha'⟩ := h.step (admits_pathChecks _) (ensures_keepsPaths c a _ ⟨he, hcond⟩ h)
  have hgrows : Grows a a' := Steps.grows ha'.steps h.consistent
  have hnode := h.node f hf
  have hnode' := ha'.refines.node f hf
  obtain ⟨hwin, hwindow, -⟩ := h.tells src hsrc _ (mem_emittedBy_of_sent hp)
  obtain ⟨hin, heq, hpre⟩ := hnode.take_eq_of_matches h.consistent hwindow hmatch
  obtain ⟨l, hcov, hl, -⟩ :=
    hnode.splice h.consistent hwindow hmatch (hcond.2 hle hmatch)
  -- the state after the event
  have hstate : (c.step (.deliver ⟨src, f, .appendEntries m⟩)).nodes f =
      (((c.nodes f).observeTerm m.term).becomeFollower m.term
        (some m.leaderId)).acceptAppend m := by
    show (c.setNode f ((c.nodes f).step src (.appendEntries m))).nodes f = _
    rw [nodes_setNode_self, RaftNode.step_appendEntries _ _ hle hmatch]
  have hlog : ((c.step (.deliver ⟨src, f, .appendEntries m⟩)).nodes f).log =
      (c.nodes f).log.splice m.prevLogIndex m.entries := by
    rw [hstate]
    show ((c.nodes f).observeTerm m.term).log.splice m.prevLogIndex m.entries = _
    rw [RaftNode.log_observeTerm]
  have hterm : a'.term f = m.term := by
    rw [hnode'.term, hstate]
    rfl
  -- it keeps what is left of one complete log only
  have hsame : l = a'.log f := (hcov.mono hgrows.branch).unique (hlog ▸ hnode'.covers)
  refine ⟨a', (a.branch m.term).take m.prevLogIndex, ha'.refines, ?_, ?_⟩
  · rw [← heq, List.length_take, min_eq_left hin]
  · exact
    { term_le := hterm.ge
      winner := ⟨src, hgrows.winner _ _ hwin, hne⟩
      pre := hpre.trans (hgrows.branch _)
      kept := fun _ => hsame ▸ hl }

/-- **Acknowledged entries survive within the term** in every run in which no node votes twice in a
term and entries are spliced in where they belong, as long as the follower accepts no snapshot of
the term that ends before them. -/
theorem ackSurvives_of_keepsPaths (h : IsRun S KeepsPaths es) :
    AckSurvives S ReachesEntries es := by
  intro es₁ src f m es₂ r hpre hanswers hsuccess hlater hterm
  have hrun : IsRun S KeepsPaths (es₁ ++ .deliver ⟨src, f, .appendEntries m⟩ :: es₂) :=
    Run.Guarded.of_isPrefix h hpre
  obtain ⟨hbefore, ⟨henabled, hcond⟩, hafter⟩ := Run.guarded_append.mp hrun
  obtain ⟨hle, hmatch, hr⟩ := hanswers.accepted hsuccess
  obtain ⟨a₁, ha₁⟩ := IsRun.exists_refines (admits_pathChecks _) ensures_keepsPaths hbefore
  obtain ⟨a₂, p, ha₂, hlen, hholds⟩ := ha₁.exists_holds henabled hcond hle hmatch
  -- from here on, a snapshot that `f` installs in the term reaches the entries
  let may : State NodeId LogEntry → NodeId → ℕ → Prop := fun a i k =>
    i = f → a.term i = m.term → (p ++ m.entries).length ≤ k
  have hguard : ∀ c a e, ((Enabled S c e ∧ KeepsPaths c e) ∧ ReachesEntries f m c e) →
      Refines pathChecks S c a → Respects pathChecks S may c a e := by
    rintro c a e ⟨hkeeps, hreach⟩ href
    refine { ensures_keepsPaths c a e hkeeps href with install := ?_ }
    refine hreach.imp fun c f' m' hreach => ⟨fun hf hcur => ?_, fun h => h.elim⟩
    rw [List.length_append, hlen]
    exact hreach hf (by simpa [State.observe] using hcur)
  have hstate : after S (es₁ ++ [.deliver ⟨src, f, .appendEntries m⟩]) =
      (after S es₁).step (.deliver ⟨src, f, .appendEntries m⟩) := by
    unfold after
    rw [Run.exec_append]
    rfl
  have hend : after S (es₁ ++ .deliver ⟨src, f, .appendEntries m⟩ :: es₂) =
      Run.exec step ((after S es₁).step (.deliver ⟨src, f, .appendEntries m⟩)) es₂ := by
    unfold after
    rw [Run.exec_append]
    rfl
  obtain ⟨a₃, ha₃⟩ := Refines.exec (admits_pathChecks may) hguard ha₂
    (Run.Guarded.and hafter (hstate ▸ hlater))
  rw [← hend] at ha₃
  have hholds' : Holds a₃ f m.term (p ++ m.entries) :=
    Steps.holds ha₃.steps ha₂.consistent (fun a k hmay => hmay rfl) hholds
  have hnode := ha₃.refines.node f henabled.1
  refine holdsEntries_of_prefix hnode.covers hlen (hholds'.kept ?_)
  rw [hnode.term, hterm, hr]

/-- Node `n1` is elected and commits a command with `n2`; it compacts its log, and the heartbeat
that follows is a snapshot for `n3`. Then `n3` receives the command after all, and a second one. -/
def catchUp : List Event :=
  [.tick "n1", .takeReady "n1" [],
    .deliver ⟨"n1", "n2", .requestVote ⟨1, "n1", 0, 0⟩⟩, .takeReady "n2" [],
    .deliver ⟨"n2", "n1", .requestVoteReply ⟨1, "n2", true⟩⟩,
    .propose "n1" [65], .takeReady "n1" [],
    .deliver ⟨"n1", "n2", .appendEntries ⟨1, "n1", 0, 0, [⟨1, [65]⟩], 0⟩⟩, .takeReady "n2" [],
    .deliver ⟨"n2", "n1", .appendEntriesReply ⟨1, "n2", true, 1, 0⟩⟩, .takeReady "n1" [],
    .tick "n1", .takeReady "n1" [],
    .deliver ⟨"n1", "n3", .appendEntries ⟨1, "n1", 0, 0, [⟨1, [65]⟩], 0⟩⟩, .takeReady "n3" [],
    .deliver ⟨"n3", "n1", .appendEntriesReply ⟨1, "n3", true, 1, 0⟩⟩,
    .propose "n1" [66], .takeReady "n1" [],
    .deliver ⟨"n1", "n3", .appendEntries ⟨1, "n1", 1, 1, [⟨1, [66]⟩], 1⟩⟩]

theorem ackSurvives_catchUp :
    IsRun (threeNodes 1) KeepsPaths catchUp ∧
      ((after (threeNodes 1) catchUp).nodes "n3").log.get 2 = some ⟨1, [66]⟩ ∧
      AckSurvives (threeNodes 1) ReachesEntries catchUp :=
  ⟨by decide, by decide, ackSurvives_of_keepsPaths (by decide)⟩

/-- Only then the snapshot reaches `n3`, which discards the second command. -/
def lateSnapshot : List Event :=
  catchUp ++ [.deliver ⟨"n1", "n3", .installSnapshot ⟨1, "n1", 1, 1, []⟩⟩]

/-- In term 3, `n1` with a command of term 1 in its log and `n3` with an empty log are both elected
by `n2`, which accepts the command and then the other leader's entry in its place. -/
def rivalLeaders : List Event :=
  [.tick "n1", .takeReady "n1" [],
    .deliver ⟨"n1", "n2", .requestVote ⟨1, "n1", 0, 0⟩⟩, .takeReady "n2" [],
    .deliver ⟨"n2", "n1", .requestVoteReply ⟨1, "n2", true⟩⟩,
    .propose "n1" [65], .takeReady "n1" [],
    .tick "n3", .tick "n3", .takeReady "n3" [],
    .deliver ⟨"n3", "n1", .requestVote ⟨2, "n3", 0, 0⟩⟩, .tick "n3", .takeReady "n3" [],
    .tick "n1", .takeReady "n1" [],
    .deliver ⟨"n1", "n2", .requestVote ⟨3, "n1", 1, 1⟩⟩, .takeReady "n2" [],
    .deliver ⟨"n2", "n1", .requestVoteReply ⟨3, "n2", true⟩⟩, .takeReady "n1" [],
    .deliver ⟨"n1", "n2", .appendEntries ⟨3, "n1", 1, 1, [], 0⟩⟩,
    .deliver ⟨"n3", "n2", .requestVote ⟨3, "n3", 0, 0⟩⟩, .takeReady "n2" [],
    .deliver ⟨"n2", "n3", .requestVoteReply ⟨3, "n2", true⟩⟩,
    .deliver ⟨"n2", "n1", .appendEntriesReply ⟨3, "n2", false, 0, 1⟩⟩, .takeReady "n1" [],
    .deliver ⟨"n1", "n2", .appendEntries ⟨3, "n1", 0, 0, [⟨1, [65]⟩], 0⟩⟩,
    .propose "n3" [66], .takeReady "n3" [],
    .deliver ⟨"n3", "n2", .appendEntries ⟨3, "n3", 0, 0, [⟨3, [66]⟩], 0⟩⟩]

/-- Acknowledged entries are lost to a late snapshot, and, where the other two conditions are
violated, to an entry that is spliced in at the wrong place and to a second leader of the term. -/
theorem not_ackSurvives_lateSnapshot :
    Violates (threeNodes 1) KeepsPaths
        (AckSurvives (threeNodes 1) fun _ _ => anyEvent) lateSnapshot ∧
      Violates (threeNodes 2) RemembersVote
        (AckSurvives (threeNodes 2) ReachesEntries) lateAppend ∧
      Violates (threeNodes 100) SplicesAboveSnapshot
        (AckSurvives (threeNodes 100) ReachesEntries) rivalLeaders := by
  refine ⟨⟨by decide, by decide, fun h => ?_⟩, ⟨by decide, by decide, fun h => ?_⟩,
    by decide, by decide, fun h => ?_⟩
  · have := h (catchUp.take 18) "n1" "n3" ⟨1, "n1", 1, 1, [⟨1, [66]⟩], 1⟩
      [.deliver ⟨"n1", "n3", .installSnapshot ⟨1, "n1", 1, 1, []⟩⟩] ⟨1, "n3", true, 2, 0⟩
      (by decide) (by decide) rfl (by decide) (by decide)
    exact absurd this (by decide)
  · have := h (threeCommands.take 13) "n1" "n2" ⟨1, "n1", 2, 1, [⟨1, [67]⟩], 2⟩
      [.takeReady "n2" [], .deliver ⟨"n1", "n2", .appendEntries ⟨1, "n1", 0, 0, [⟨1, [65]⟩], 0⟩⟩]
      ⟨1, "n2", true, 3, 0⟩ (by decide) (by decide) rfl (by decide) (by decide)
    exact absurd this (by decide)
  · have := h (rivalLeaders.take 25) "n1" "n2" ⟨3, "n1", 0, 0, [⟨1, [65]⟩], 0⟩
      (rivalLeaders.drop 26) ⟨3, "n2", true, 1, 0⟩ (by decide) (by decide) rfl (by decide)
      (by decide)
    exact absurd this (by decide)

end Cluster

end Ferrium
