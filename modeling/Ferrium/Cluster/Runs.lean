import Ferrium.Cluster.Replication

/-!
# Runs refine the abstract log

The simulation, from the operations of a node to events and runs. What a run must respect is
collected in `Respects`; the parts that it has to respect depend on what is claimed.

## Main results

* `Refines.step`: an event is simulated by steps of the abstract log;
* `IsRun.exists_refines`: so is a run, from the initial states on.
-/

namespace Ferrium

open TermLog Branch RaftLog

namespace Cluster

variable {S : Setup} {F : Checks} {c : Cluster} {i j src dst : NodeId} {n : RaftNode}
variable {a a' : State NodeId LogEntry}
variable {may : State NodeId LogEntry → NodeId → ℕ → Prop}

/-! ### Applying and draining -/

/-- What the apply loop hands out is decided. -/
theorem Follows.decided_newlyApplied (h : Follows F S a i n) (hF : F.settled) {k : ℕ}
    {command : List UInt8} (hmem : .command k command ∈ n.newlyApplied) :
    Decided S a k command := by
  obtain ⟨hlt, hle, -, e, he, hcmd⟩ := RaftNode.mem_newlyApplied.mp hmem
  obtain ⟨-, hget⟩ := h.covers.of_get_eq_some he
  refine ⟨_, _, e, (h.commit hF).2, by omega, ?_, hcmd⟩
  rw [List.getElem?_take, if_pos (by omega)]
  exact hget

theorem Refines.applyCommitted (h : Refines F S c a) (hmay : Admits F may)
    (hi : i ∈ S.members) : Reaches F S may a (c.setNode i (c.nodes i).applyCommitted) a := by
  have hnode := h.node i hi
  have hon := h.consistent.log_on i
  rw [RaftNode.applyCommitted_eq]
  have hcovers : Covers a.branch (a.log i) (c.nodes i).appliedLog := by
    rcases (c.nodes i).appliedLog_cases with heq | heq <;> rw [heq]
    · exact hnode.covers
    · exact hnode.covers.compact hon _
  have hlabel : F.settled → TrueLabel (a.log i) (c.nodes i).appliedLog := fun hF => by
    rcases (c.nodes i).appliedLog_cases with heq | heq <;> rw [heq]
    · exact hnode.label hF
    · exact hnode.covers.trueLabel_compact (hnode.label hF) _
  have hsnap : (c.nodes i).log.snapshotIndex ≤ (c.nodes i).appliedLog.snapshotIndex ∧
      ((c.nodes i).appliedLog.snapshotIndex = (c.nodes i).log.snapshotIndex ∨
        (c.nodes i).appliedLog.snapshotIndex = (c.nodes i).appliedIndex) := by
    rcases (c.nodes i).appliedLog_cases with heq | heq <;> rw [heq]
    · exact ⟨le_rfl, Or.inl rfl⟩
    · exact snapshotIndex_compact _ _
  have happlied : (c.nodes i).lastApplied ≤ (c.nodes i).appliedIndex := Nat.le_add_right _ _
  refine h.setNode_of_silent hmay (h.wf.setNode_of_silent hi rfl rfl rfl rfl rfl rfl rfl) rfl
    { hnode with
      covers := hcovers
      label := hlabel
      applied := fun hF => ?_
      decided := fun hF k command hmem => ?_
      matched := fun hF hr p hp =>
        (hnode.matched hF hr p hp).imp_left fun hle => hle.trans hsnap.1 }
  · obtain ⟨hle, hcom⟩ := hnode.applied hF
    refine ⟨?_, ?_⟩
    · rcases hsnap.2 with heq | heq
      · exact heq.trans_le (hle.trans happlied)
      · exact heq.le
    · show (c.nodes i).appliedIndex ≤ (c.nodes i).commitIndex
      unfold RaftNode.appliedIndex
      omega
  · rcases List.mem_append.mp hmem with hold | hnew
    · exact hnode.decided hF k command hold
    · exact hnode.decided_newlyApplied hF hnew

/-- The data of a snapshot does not matter to what the message tells about logs. -/
theorem tells_fillSnapshot {data : List KeyValue} {message : Message} :
    Tells F S a i dst (message.fillSnapshot data) ↔ Tells F S a i dst message := by
  cases message <;> rfl

theorem Refines.drain (h : Refines F S c a) (hi : i ∈ S.members) (data : List KeyValue) :
    Refines F S (c.drain i data) a := by
  have hnode : ∀ j, ∃ out com, (c.drain i data).nodes j =
      { c.nodes j with outgoing := out, committed := com } ∧
        ∀ x ∈ com, x ∈ (c.nodes j).committed := by
    intro j
    rcases eq_or_ne j i with rfl | hne
    · exact ⟨[], [], by simp [Cluster.drain], fun x hx => by simp at hx⟩
    · exact ⟨(c.nodes j).outgoing, (c.nodes j).committed, by simp [Cluster.drain, hne],
        fun x hx => hx⟩
  exact
  { wf := h.wf.drain hi data
    consistent := h.consistent
    complete := h.complete
    allSynced := h.allSynced
    node := fun j hj => by
      obtain ⟨out, com, heq, hcom⟩ := hnode j
      rw [heq]
      exact { h.node j hj with
        decided := fun hF k command hmem => (h.node j hj).decided hF k command (hcom _ hmem) }
    tells := fun j hj env henv => by
      rcases mem_emittedBy_drain.mp henv with hold | ⟨env', henv', rfl⟩
      · exact h.tells j hj env (mem_emittedBy.mpr (Or.inl hold))
      · have := h.tells j hj env' (mem_emittedBy.mpr (Or.inr henv'))
        split
        · exact tells_fillSnapshot.mpr this
        · exact this
    won := fun T w hw => by
      obtain ⟨hmem, Q, hQ, hvoted⟩ := h.won T w hw
      exact ⟨hmem, Q, hQ, fun u hu => (hvoted u hu).imp_left voted_drain.mpr⟩
    acker := fun u T k hk => by
      refine (h.acker u T k hk).imp_right ?_
      rintro ⟨env, henv, haff⟩
      rcases mem_emittedBy.mp henv with hold | hqueued
      · exact ⟨env, mem_emittedBy_drain.mpr (Or.inl hold), haff⟩
      · refine ⟨_, mem_emittedBy_drain.mpr (Or.inr ⟨env, hqueued, rfl⟩), ?_⟩
        split
        · rw [Message.affirms_fillSnapshot]
          exact haff
        · exact haff
    handed := fun hF j k command hmem => by
      rcases List.mem_append.mp hmem with hold | hnew
      · exact h.handed hF j k command hold
      · obtain ⟨item, hitem, heq⟩ := List.mem_map.mp hnew
        obtain ⟨rfl, rfl⟩ := Prod.mk.inj heq
        exact (h.node _ hi).decided hF k command hitem }

/-- Draining a node does not move the abstract log. -/
theorem Refines.takeReady (h : Refines F S c a) (hmay : Admits F may) (hi : i ∈ S.members)
    (data : List KeyValue) : Refines F S (c.step (.takeReady i data)) a := by
  rw [step_takeReady]
  exact (h.applyCommitted hmay hi).refines.drain hi data

theorem Refines.tick (h : Refines F S c a) (hmay : Admits F may) (hi : i ∈ S.members)
    (hlabel : F.labels → LabelsSnapshots c (.tick i)) :
    ∃ a', Reaches F S may a (c.setNode i (c.nodes i).tick) a' := by
  have hnode := h.node i hi
  have hwait : Reaches F S may a (c.setNode i
      { c.nodes i with electionElapsed := (c.nodes i).electionElapsed + 1 }) a :=
    h.setNode_of_silent hmay (h.wf.setNode_of_silent hi rfl rfl rfl rfl rfl rfl rfl) rfl
      { hnode with }
  rcases (c.nodes i).tick_cases with ⟨-, heq⟩ | ⟨hrole, hdue, heq⟩ | ⟨-, heq⟩ | ⟨-, heq⟩ <;>
    rw [heq]
  · exact ⟨a, h.setNode_of_silent hmay (h.wf.setNode_of_silent hi rfl rfl rfl rfl rfl rfl rfl)
      rfl { hnode with }⟩
  · have hreset : Reaches F S may a (c.setNode i { c.nodes i with heartbeatElapsed := 0 }) a :=
      h.setNode_of_silent hmay (h.wf.setNode_of_silent hi rfl rfl rfl rfl rfl rfl rfl) rfl
        { hnode with }
    have hcast := hreset.refines.broadcastAppend hmay hi
    simp only [setNode_setNode, nodes_setNode_self] at hcast
    exact ⟨a, hreset.trans (hcast hrole fun hL hnext => hlabel hL hrole hdue hnext)⟩
  · exact ⟨a, hwait⟩
  · obtain ⟨a', ha'⟩ := hwait.refines.becomeCandidate hmay hi
    simp only [setNode_setNode, nodes_setNode_self] at ha'
    exact ⟨a', hwait.trans ha'⟩

/-! ### Events -/

/-- The event `e` respects the checks, in the state `c` that refines `a`. -/
structure Respects (F : Checks) (S : Setup) (may : State NodeId LogEntry → NodeId → ℕ → Prop)
    (c : Cluster) (a : State NodeId LogEntry) (e : Event) : Prop where
  enabled : Enabled S c e
  votes : RemembersVote c e
  splices : SplicesAboveSnapshot c e
  stale : F.whole → NoStaleSuffix c e
  labels : F.labels → LabelsSnapshots c e
  covers : F.synced → SnapshotReplyCovers c e
  install : OnInstall (fun _ f m =>
    may (a.observe f m.term) f m.lastIncludedIndex ∧ (F.settled → F.labels)) c e

/-- Handling a message of a term that the receiver has reached. -/
theorem Refines.handle (h : Refines F S c a) (hmay : Admits F may) {message : Message}
    (hterm : message.term ≤ (c.nodes dst).currentTerm)
    (he : Respects F S may c a (.deliver ⟨src, dst, message⟩)) :
    ∃ a', Reaches F S may a (c.setNode dst ((c.nodes dst).handle src message)) a' := by
  obtain ⟨hdst, hp⟩ := he.enabled
  cases message with
  | requestVote m =>
    refine h.handleRequestVote hmay hp hdst hterm (h.wf.handleRequestVote hp hdst hterm ?_)
    -- the receiver has reached the term, so that it has nothing to observe
    have hobs : (c.nodes dst).observeTerm m.term = c.nodes dst := if_neg (not_lt.mpr hterm)
    have hvotes := he.votes
    simp only [RemembersVote, hobs] at hvotes
    exact fun _ => hvotes
  | requestVoteReply m => exact h.handleRequestVoteReply hmay hp hdst
  | appendEntries m => exact h.handleAppendEntries hmay hp hdst he.splices he.stale
  | appendEntriesReply m => exact h.handleAppendEntriesReply hmay hp hdst he.labels
  | installSnapshot m => exact h.handleInstallSnapshot hmay hp hdst he.install
  | installSnapshotReply m => exact h.handleInstallSnapshotReply hmay hp hdst he.covers

/-- The conditions on a message are not touched by the receiver's stepping down into its term. -/
theorem Respects.observe {message : Message}
    (he : Respects F S may c a (.deliver ⟨src, dst, message⟩))
    (hlt : (c.nodes dst).currentTerm < message.term) :
    Respects F S may (c.setNode dst ((c.nodes dst).becomeFollower message.term none))
      (a.observe dst message.term) (.deliver ⟨src, dst, message⟩) := by
  obtain ⟨hdst, hp⟩ := he.enabled
  cases message with
  | requestVote m =>
    refine ⟨⟨hdst, hp⟩, ?_, trivial, fun _ => trivial, fun _ => trivial, fun _ => trivial, trivial⟩
    have hobs : (c.nodes dst).observeTerm m.term = (c.nodes dst).becomeFollower m.term none :=
      if_pos hlt
    have hstay : ((c.nodes dst).becomeFollower m.term none).observeTerm m.term =
        (c.nodes dst).becomeFollower m.term none := if_neg (lt_irrefl _)
    have hemit : (c.setNode dst ((c.nodes dst).becomeFollower m.term none)).emittedBy dst =
        c.emittedBy dst := by
      have hout : ((c.nodes dst).becomeFollower m.term none).outgoing =
          (c.nodes dst).outgoing ++ [] := (List.append_nil _).symm
      rw [emittedBy_setNode hout, if_pos rfl, List.append_nil]
    have hvotes := he.votes
    simp only [RemembersVote, hobs] at hvotes
    simp only [RemembersVote, Message.term, nodes_setNode_self, hstay, hemit]
    exact hvotes
  | appendEntries m =>
    refine ⟨⟨hdst, hp⟩, trivial, ?_, fun hF => ?_, fun _ => trivial, fun _ => trivial, trivial⟩ <;>
      simp only [OnAppend, nodes_setNode_self, Message.term]
    · exact fun _ hmatch => he.splices hlt.le hmatch
    · exact fun _ hmatch => he.stale hF hlt.le hmatch
  | installSnapshot m =>
    refine ⟨⟨hdst, hp⟩, trivial, trivial, fun _ => trivial, fun _ => trivial, fun _ => trivial,
      fun _ => ?_⟩
    have hidem : (a.observe dst m.term).observe dst m.term = a.observe dst m.term := by
      simp [State.observe]
    show may ((a.observe dst m.term).observe dst m.term) dst m.lastIncludedIndex ∧ _
    rw [hidem]
    exact he.install hlt.le
  | appendEntriesReply m =>
    -- a follower ignores replies
    refine ⟨⟨hdst, hp⟩, trivial, trivial, fun _ => trivial, fun _ hrole => ?_, fun _ => trivial,
      trivial⟩
    rw [nodes_setNode_self] at hrole
    cases hrole
  | installSnapshotReply m =>
    refine ⟨⟨hdst, hp⟩, trivial, trivial, fun _ => trivial, fun _ => trivial, fun _ hrole => ?_,
      trivial⟩
    rw [nodes_setNode_self] at hrole
    cases hrole
  | requestVoteReply m =>
    exact ⟨⟨hdst, hp⟩, trivial, trivial, fun _ => trivial, fun _ => trivial, fun _ => trivial,
      trivial⟩

/-- **An event is simulated by steps of the abstract log.** -/
theorem Refines.step (h : Refines F S c a) (hmay : Admits F may) {e : Event}
    (he : Respects F S may c a e) : ∃ a', Reaches F S may a (c.step e) a' := by
  cases e with
  | tick i => exact h.tick hmay he.enabled he.labels
  | propose i command => exact h.propose hmay he.enabled command he.labels
  | takeReady i data => exact ⟨a, .refl, h.takeReady hmay he.enabled data⟩
  | deliver p =>
    obtain ⟨src, dst, message⟩ := p
    obtain ⟨hdst, -⟩ := he.enabled
    show ∃ a', Reaches F S may a (c.setNode dst ((c.nodes dst).step src message)) a'
    unfold RaftNode.step RaftNode.observeTerm
    split
    · next hlt =>
      have hdown := h.becomeFollower hmay hdst hlt.le (h.winner_ne_of_lt hdst hlt) none
      obtain ⟨a', ha'⟩ := hdown.refines.handle hmay
        (by rw [nodes_setNode_self]; exact le_rfl) (he.observe hlt)
      simp only [setNode_setNode, nodes_setNode_self] at ha'
      exact ⟨a', hdown.trans ha'⟩
    · next hle => exact h.handle hmay (not_lt.mp hle) he

theorem refines_init : Refines F S (init S) State.init := by
  have hnone : ∀ i env, env ∉ (init S).emittedBy i := fun i env henv => by
    rcases mem_emittedBy.mp henv with h | h <;> simp [init, RaftNode.new] at h
  exact
  { wf := wellFormed_init
    consistent := Consistent.init
    complete := fun _ => Complete.init
    allSynced := fun _ => synced_init
    node := fun i _ => follows_of_follower rfl rfl covers_new (by simp [State.init])
      (fun _ => trueLabel_new) (fun _ => ⟨le_rfl, le_rfl⟩)
      (fun _ => ⟨le_rfl, settled_nil⟩) fun _ k command hmem => by simp [init, RaftNode.new] at hmem
    tells := fun i _ env henv => absurd henv (hnone i env)
    won := fun T w hw => by simp [State.init] at hw
    acker := fun u T k hk => hk.elim
    handed := fun _ i k command hmem => by simp [init] at hmem }

/-! ### Runs -/

variable {guard : Cluster → Event → Prop} {es es₁ es₂ : List Event}

/-- **A run is simulated by steps of the abstract log**, if its guard ensures what the checks ask
for. -/
theorem Refines.exec (hmay : Admits F may)
    (hguard : ∀ c a e, guard c e → Refines F S c a → Respects F S may c a e)
    (h : Refines F S c a) (hg : Run.Guarded Cluster.step guard c es) :
    ∃ a', Reaches F S may a (Run.exec Cluster.step c es) a' := by
  obtain ⟨a', hsteps, href⟩ := Run.Guarded.simulation (Refines F S)
    (Steps (F.rules may) (quorums S)) (fun _ => .refl) (fun h h' => h.trans h')
    (fun c e a hg hr => by
      obtain ⟨a', ha'⟩ := hr.step hmay (hguard c a e hg hr)
      exact ⟨a', ha'.steps, ha'.refines⟩) hg h
  exact ⟨a', hsteps, href⟩

/-- A condition on events that ensures what the checks ask for, in every state that refines one of
the abstract log. -/
def Ensures (F : Checks) (S : Setup) (may : State NodeId LogEntry → NodeId → ℕ → Prop)
    (cond : Cluster → Event → Prop) : Prop :=
  ∀ c a e, Enabled S c e ∧ cond c e → Refines F S c a → Respects F S may c a e

variable {cond : Cluster → Event → Prop}

theorem IsRun.exists_refines (hmay : Admits F may) (hcond : Ensures F S may cond)
    (h : IsRun S cond es) : ∃ a, Refines F S (after S es) a := by
  obtain ⟨a, ha⟩ := refines_init.exec hmay hcond h
  exact ⟨a, ha.refines⟩

/-- A moment of a run, and its end. -/
theorem IsRun.exists_reaches (hmay : Admits F may) (hcond : Ensures F S may cond)
    (h : IsRun S cond es) (hp : es₁ <+: es) (h₁ : Refines F S (after S es₁) a) :
    ∃ a', Reaches F S may a (after S es) a' := by
  obtain ⟨es₂, rfl, hg⟩ := Run.Guarded.suffix h hp
  obtain ⟨a', ha'⟩ := Refines.exec hmay hcond h₁ hg
  unfold after
  rw [Run.exec_append]
  exact ⟨a', ha'⟩

/-- Two moments of a run, and its end. -/
theorem IsRun.exists_moments (hmay : Admits F may) (hcond : Ensures F S may cond)
    (h : IsRun S cond es) (hp₁ : es₁ <+: es) (hp₂ : es₂ <+: es) :
    ∃ a₁ a₂ a', Refines F S (after S es₁) a₁ ∧ Refines F S (after S es₂) a₂ ∧
      Refines F S (after S es) a' ∧ Grows a₁ a' ∧ Grows a₂ a' := by
  wlog hp : es₁ <+: es₂ generalizing es₁ es₂
  · have hp' := (List.prefix_or_prefix_of_prefix hp₁ hp₂).resolve_left hp
    obtain ⟨a₂, a₁, a', h₂, h₁, h', hg₂, hg₁⟩ := this hp₂ hp₁ hp'
    exact ⟨a₁, a₂, a', h₁, h₂, h', hg₁, hg₂⟩
  obtain ⟨a₁, h₁⟩ := IsRun.exists_refines hmay hcond (Run.Guarded.of_isPrefix h hp₁)
  obtain ⟨a₂, h₂⟩ := IsRun.exists_reaches hmay hcond (Run.Guarded.of_isPrefix h hp₂) hp h₁
  obtain ⟨a', h'⟩ := IsRun.exists_reaches hmay hcond h hp₂ h₂.refines
  have hg₁ : Grows a₁ a₂ := Steps.grows h₂.steps h₁.consistent
  have hg₂ : Grows a₂ a' := Steps.grows h'.steps h₂.refines.consistent
  exact ⟨a₁, a₂, a', h₁, h₂.refines, h'.refines, hg₁.trans hg₂, hg₂⟩

end Cluster

end Ferrium
