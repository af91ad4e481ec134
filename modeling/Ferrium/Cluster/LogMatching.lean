import Ferrium.Cluster.Runs

/-!
# Log matching

Logs that agree on the term of an entry agree up to it. That needs no more than one leader in a term
and a correct position for the entries that are spliced in, neither of which the code ensures
(`twoProposals`, `lateAppend`).
-/

namespace Ferrium

open TermLog Branch RaftLog

namespace Cluster

variable {S : Setup} {c : Cluster} {es : List Event}

/-- No checks: logs are on their branches, and nothing is said about commits. -/
def pathChecks : Checks where
  whole := False
  settled := False
  labels := False
  synced := False

theorem admits_pathChecks (may : State NodeId LogEntry → NodeId → ℕ → Prop) :
    Admits pathChecks may :=
  ⟨fun h => h.elim, fun h => h.elim⟩

/-- No node votes twice in a term, and entries are spliced in where they belong. -/
def KeepsPaths (c : Cluster) (e : Event) : Prop :=
  RemembersVote c e ∧ SplicesAboveSnapshot c e

instance decidableKeepsPaths (c : Cluster) (e : Event) : Decidable (KeepsPaths c e) :=
  inferInstanceAs (Decidable (_ ∧ _))

theorem onInstall_of_forall {P : Cluster → NodeId → InstallSnapshot → Prop}
    (h : ∀ f m, P c f m) : ∀ e, OnInstall P c e
  | .deliver ⟨_, f, .installSnapshot m⟩ => fun _ => h f m
  | .tick _ | .propose _ _ | .takeReady _ _ => trivial
  | .deliver ⟨_, _, .requestVoteReply _⟩ | .deliver ⟨_, _, .requestVote _⟩
  | .deliver ⟨_, _, .appendEntriesReply _⟩ | .deliver ⟨_, _, .appendEntries _⟩
  | .deliver ⟨_, _, .installSnapshotReply _⟩ => trivial

theorem ensures_keepsPaths : Ensures pathChecks S (fun _ _ _ => True) KeepsPaths :=
  fun _ _ e ⟨henabled, hvotes, hsplices⟩ _ =>
    { enabled := henabled
      votes := hvotes
      splices := hsplices
      stale := fun h => h.elim
      labels := fun h => h.elim
      covers := fun h => h.elim
      install := onInstall_of_forall (fun _ _ => ⟨trivial, fun h => h.elim⟩) e }

/-- If the logs of two nodes hold entries of the same term at an index, they hold the same entries
at every index up to it that both still have. -/
def LogsMatch (S : Setup) (c : Cluster) : Prop :=
  ∀ a ∈ S.members, ∀ b ∈ S.members, ∀ i ea eb,
    (c.nodes a).log.get i = some ea → (c.nodes b).log.get i = some eb → ea.term = eb.term →
    ∀ j ≤ i, ∀ xa xb, (c.nodes a).log.get j = some xa → (c.nodes b).log.get j = some xb → xa = xb

/-- Logs match at every moment of the run. -/
def LogMatching (S : Setup) (es : List Event) : Prop :=
  ∀ es₁, es₁ <+: es → LogsMatch S (after S es₁)

theorem Refines.logsMatch {F : Checks} {a : State NodeId LogEntry} (h : Refines F S c a) :
    LogsMatch S c := by
  intro u hu v hv i eu ev hgetu hgetv hterm j hj xu xv hxu hxv
  have hcon := h.consistent
  obtain ⟨-, hiu⟩ := (h.node u hu).covers.of_get_eq_some hgetu
  obtain ⟨-, hiv⟩ := (h.node v hv).covers.of_get_eq_some hgetv
  obtain ⟨-, hju⟩ := (h.node u hu).covers.of_get_eq_some hxu
  obtain ⟨-, hjv⟩ := (h.node v hv).covers.of_get_eq_some hxv
  -- both logs lie on the branch of the common term up to the common index
  have hsame : (a.log u).take (i - 1 + 1) = (a.log v).take (i - 1 + 1) :=
    (hcon.log_on u).take_eq_of_term_eq (hcon.log_on v) hiu hiv hterm
  have hj' : j - 1 < i - 1 + 1 := by omega
  have hread : ∀ l : List LogEntry, l[j - 1]? = (l.take (i - 1 + 1))[j - 1]? := fun l => by
    rw [List.getElem?_take, if_pos hj']
  rw [hread, hsame, ← hread, hjv] at hju
  exact (Option.some.inj hju).symm

/-- **Log matching** in every run in which no node votes twice in a term and entries are spliced in
where they belong. -/
theorem logMatching_of_keepsPaths (h : IsRun S KeepsPaths es) : LogMatching S es := by
  intro es₁ hp
  obtain ⟨a, ha⟩ := IsRun.exists_refines (admits_pathChecks _) ensures_keepsPaths
    (Run.Guarded.of_isPrefix h hp)
  exact ha.logsMatch

/-- Node `n1` is elected and proposes two commands; `n2` receives both in one message, and they are
committed. A third one follows. -/
def threeCommands : List Event :=
  [.tick "n1", .takeReady "n1" [],
    .deliver ⟨"n1", "n2", .requestVote ⟨1, "n1", 0, 0⟩⟩, .takeReady "n2" [],
    .deliver ⟨"n2", "n1", .requestVoteReply ⟨1, "n2", true⟩⟩,
    .propose "n1" [65], .propose "n1" [66], .takeReady "n1" [],
    .deliver ⟨"n1", "n2", .appendEntries ⟨1, "n1", 0, 0, [⟨1, [65]⟩, ⟨1, [66]⟩], 0⟩⟩,
    .takeReady "n2" [],
    .deliver ⟨"n2", "n1", .appendEntriesReply ⟨1, "n2", true, 2, 0⟩⟩,
    .propose "n1" [67], .takeReady "n1" [],
    .deliver ⟨"n1", "n2", .appendEntries ⟨1, "n1", 2, 1, [⟨1, [67]⟩], 2⟩⟩, .takeReady "n2" []]

theorem logMatching_threeCommands :
    IsRun (threeNodes 2) KeepsPaths threeCommands ∧
      ((after (threeNodes 2) threeCommands).nodes "n1").log.get 3 = some ⟨1, [67]⟩ ∧
      ((after (threeNodes 2) threeCommands).nodes "n2").log.get 3 = some ⟨1, [67]⟩ ∧
      LogMatching (threeNodes 2) threeCommands :=
  ⟨by decide, by decide, by decide, logMatching_of_keepsPaths (by decide)⟩

/-- The two leaders of one term propose different commands. -/
def twoProposals : List Event :=
  twoLeaders ++ [.propose "n1" [65], .propose "n3" [66]]

/-- The message with the first command alone reaches `n2` after `n2` has compacted its log; its
entry ends up behind the snapshot point. -/
def lateAppend : List Event :=
  threeCommands ++ [.deliver ⟨"n1", "n2", .appendEntries ⟨1, "n1", 0, 0, [⟨1, [65]⟩], 0⟩⟩]

/-- Log matching fails with two leaders in a term, and also without, by an entry that is spliced in
at the wrong place. -/
theorem not_logMatching_twoProposals_lateAppend :
    Violates (threeNodes 2) SplicesAboveSnapshot (LogMatching (threeNodes 2)) twoProposals ∧
      Violates (threeNodes 2) RemembersVote (LogMatching (threeNodes 2)) lateAppend := by
  refine ⟨⟨by decide, by decide, fun h => ?_⟩, by decide, by decide, fun h => ?_⟩
  · have := h twoProposals List.prefix_rfl "n1" (by decide) "n3" (by decide) 1
      ⟨1, [65]⟩ ⟨1, [66]⟩ (by decide) (by decide) rfl 1 le_rfl ⟨1, [65]⟩ ⟨1, [66]⟩
      (by decide) (by decide)
    exact absurd this (by decide)
  · have := h lateAppend List.prefix_rfl "n1" (by decide) "n2" (by decide) 3
      ⟨1, [67]⟩ ⟨1, [65]⟩ (by decide) (by decide) rfl 3 le_rfl ⟨1, [67]⟩ ⟨1, [65]⟩
      (by decide) (by decide)
    exact absurd this (by decide)

end Cluster

end Ferrium
