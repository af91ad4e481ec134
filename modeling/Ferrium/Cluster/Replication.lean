import Ferrium.Cluster.Simulation

/-!
# Replication refines the abstract log

The follower's side of the simulation, AppendEntries and InstallSnapshot, with the replies that the
leader counts, and the application of what is committed.
-/

namespace Ferrium

open TermLog Branch RaftLog

namespace Cluster

variable {S : Setup} {F : Checks} {c : Cluster} {i j src dst : NodeId} {n : RaftNode}
variable {a a' : State NodeId LogEntry} {o : List Envelope}
variable {may : State NodeId LogEntry → NodeId → ℕ → Prop}

/-! ### AppendEntries -/

/-- A log that passes the consistency check agrees with the branch of the leader up to the previous
index. -/
theorem Follows.take_eq_of_matches (h : Follows F S a i n)
    (hcon : Consistent (quorums S) F.whole a) {m : AppendEntries} (hwindow : Window a m)
    (hmatch : n.log.matches m.prevLogIndex m.prevLogTerm = true) :
    m.prevLogIndex ≤ (a.log i).length ∧
      (a.log i).take m.prevLogIndex = (a.branch m.term).take m.prevLogIndex ∧
      (a.branch m.term).take m.prevLogIndex ++ m.entries <+: a.branch m.term := by
  obtain ⟨hle, hpre, -⟩ := h.covers.of_matches (hcon.log_on i) hmatch
  rcases hwindow with ⟨hleB, hpreB, hwin⟩ | ⟨hzero, hpos, -⟩
  · refine ⟨hle, (List.prefix_of_prefix_length_le hpre hpreB ?_).eq_of_length ?_, hwin⟩ <;>
      simp only [List.length_take] <;> omega
  · -- no entry has the term `0`
    rw [hzero, hcon.branch_zero, List.prefix_nil] at hpre
    have := congrArg List.length hpre
    rw [List.length_take, min_eq_left hle, List.length_nil] at this
    omega

/-- What splicing makes of the complete log. -/
theorem Follows.splice (h : Follows F S a i n) (hcon : Consistent (quorums S) F.whole a)
    {m : AppendEntries} (hwindow : Window a m)
    (hmatch : n.log.matches m.prevLogIndex m.prevLogTerm = true)
    (hpos : n.log.fitsAt m.prevLogIndex m.entries) :
    ∃ l, Covers a.branch l (n.log.splice m.prevLogIndex m.entries) ∧
      (a.branch m.term).take m.prevLogIndex ++ m.entries <+: l ∧
      (∀ p, p <+: a.log i → p <+: a.branch m.term → p <+: l) ∧
      (TrueLabel (a.log i) n.log → TrueLabel l (n.log.splice m.prevLogIndex m.entries)) ∧
      ((n.log.agreesFrom (m.prevLogIndex + 1) m.entries ∧ l = a.log i) ∨
        (¬n.log.agreesFrom (m.prevLogIndex + 1) m.entries ∧ l <+: a.branch m.term)) := by
  obtain ⟨hle, heq, hwin⟩ := h.take_eq_of_matches hcon hwindow hmatch
  obtain ⟨l, hcov, hwindow', hkeep, hlabel, hcases⟩ :=
    h.covers.splice (hcon.log_on i) (hcon.branch_on m.term) hle heq hwin hpos
  refine ⟨l, hcov, hwindow', hkeep, hlabel, hcases.imp_right fun ⟨hconf, hl⟩ => ⟨hconf, ?_⟩⟩
  rw [hl]
  exact hwin

/-- The log that results from splicing has nothing but the branch of the leader in it, if no stale
suffix was kept. -/
theorem Follows.prefix_of_noStaleSuffix (h : Follows F S a i n)
    (hcon : Consistent (quorums S) F.whole a) {m : AppendEntries} {l : List LogEntry}
    (hwin : (a.branch m.term).take m.prevLogIndex ++ m.entries <+: a.branch m.term)
    (hprev : ((a.branch m.term).take m.prevLogIndex).length = m.prevLogIndex)
    (hwindow : (a.branch m.term).take m.prevLogIndex ++ m.entries <+: l)
    (hcases : (n.log.agreesFrom (m.prevLogIndex + 1) m.entries ∧ l = a.log i) ∨
      (¬n.log.agreesFrom (m.prevLogIndex + 1) m.entries ∧ l <+: a.branch m.term))
    (hstale : n.log.lastIndex ≤ m.prevLogIndex + m.entries.length ∨ n.log.lastTerm = m.term ∨
      ¬n.log.agreesFrom (m.prevLogIndex + 1) m.entries) : l <+: a.branch m.term := by
  rcases hcases with ⟨hagree, rfl⟩ | ⟨-, hl⟩
  · rcases hstale with hshort | hlast | hconf
    · -- the window reaches the end of the log
      have hlen : (a.log i).length ≤
          ((a.branch m.term).take m.prevLogIndex ++ m.entries).length := by
        rw [List.length_append, hprev, h.covers.length_eq]
        exact hshort
      rw [← hwindow.eq_of_length_le hlen]
      exact hwin
    · rw [← hlast]
      exact h.covers.prefix_lastTerm (hcon.log_on i)
    · exact absurd hagree hconf
  · exact hl

theorem Refines.acceptAppend (h : Refines F S c a) (hmay : Admits F may) {m : AppendEntries}
    (hp : ⟨src, dst, .appendEntries m⟩ ∈ c.sent) (hdst : dst ∈ S.members)
    (hrole : (c.nodes dst).role = .follower) (hterm : (c.nodes dst).currentTerm = m.term)
    (hmatch : (c.nodes dst).log.matches m.prevLogIndex m.prevLogTerm = true)
    (hpos : (c.nodes dst).log.fitsAt m.prevLogIndex m.entries)
    (hstale : F.whole →
      (c.nodes dst).log.lastIndex ≤ m.prevLogIndex + m.entries.length ∨
        (c.nodes dst).log.lastTerm = m.term ∨
        ¬(c.nodes dst).log.agreesFrom (m.prevLogIndex + 1) m.entries) :
    ∃ a', Reaches F S may a (c.setNode dst ((c.nodes dst).acceptAppend m)) a' := by
  have hnode := h.node dst hdst
  have hcon := h.consistent
  have hsrc := h.wf.sent_src _ hp
  have hne : src ≠ dst := (h.wf.addressed src hsrc _ (mem_emittedBy_of_sent hp)).2.1.symm
  obtain ⟨hwin, hwindow, hcommit⟩ := h.tells src hsrc _ (mem_emittedBy_of_sent hp)
  have hterm' : a.term dst = m.term := hnode.term.trans hterm
  obtain ⟨hle, heq, hpre⟩ := hnode.take_eq_of_matches hcon hwindow hmatch
  have hprev : ((a.branch m.term).take m.prevLogIndex).length = m.prevLogIndex := by
    rw [← heq, List.length_take, min_eq_left hle]
  obtain ⟨l, hcov, hwindow', hkeep, hlabel, hcases⟩ := hnode.splice hcon hwindow hmatch hpos
  have hwhole : F.whole → l <+: a.branch m.term := fun hF =>
    hnode.prefix_of_noStaleSuffix hcon hpre hprev hwindow' hcases (hstale hF)
  have hon : OnBranch a.branch l := by
    rcases hcases with ⟨-, rfl⟩ | ⟨-, hl⟩
    · exact hcon.log_on dst
    · exact (hcon.branch_on m.term).of_isPrefix hl
  have hterms : ∀ e ∈ l, Termed.term e ≤ a.term dst := by
    rcases hcases with ⟨-, rfl⟩ | ⟨-, hl⟩
    · exact hcon.log_le dst
    · exact fun e he => hterm' ▸ hcon.branch_le m.term e (hl.subset he)
  have hfollows : a.Follows dst := ⟨src, hterm' ▸ hwin, hne⟩
  have hf : TermLog.Frame dst a (a.adopt dst l) := frame_adopt dst l
  have hlog : (a.adopt dst l).log dst = l := by simp [State.adopt]
  -- what was committed is settled, hence on the branch, and is kept
  have hkept : F.settled → (c.nodes dst).commitIndex ≤ l.length ∧
      l.take (c.nodes dst).commitIndex = (a.log dst).take (c.nodes dst).commitIndex := by
    intro hF
    obtain ⟨hin, hsettled⟩ := hnode.commit hF
    have hpre := hkeep _ (List.take_prefix _ _)
      (hsettled.prefix_branch (h.complete hF) hcon hterm.le hwin)
    have hlen : ((a.log dst).take (c.nodes dst).commitIndex).length =
        (c.nodes dst).commitIndex := by rw [List.length_take, min_eq_left hin]
    exact ⟨hlen ▸ hpre.length_le, (hlen ▸ List.prefix_iff_eq_take.mp hpre).symm⟩
  refine ⟨a.adopt dst l, h.setNode hmay
    (.single (.accept dst l hfollows hon hterms (hterm' ▸ hkeep) (hterm' ▸ hwhole)))
    hf (h.wf.acceptAppend hp hdst) rfl ?_ ?_ (fun _ hw => Or.inl hw) ?_⟩
  · refine follows_of_follower hrole hnode.term (hlog.symm ▸ hcov)
      (hnode.term ▸ hfollows.winner_ne) (fun hF => hlog.symm ▸ hlabel (hnode.label hF))
      (fun hF => ?_) (fun hF => ?_)
      fun hF k command hmem => (hnode.decided hF k command hmem).mono hf.toGrows
    · obtain ⟨hsnap, hcom⟩ := hnode.applied hF
      refine ⟨(snapshotIndex_splice _ _ _).trans_le hsnap, hcom.trans ?_⟩
      show _ ≤ if (c.nodes dst).commitIndex < m.leaderCommit then _ else _
      split
      · next hlt => exact le_min hlt.le (hcov.length_eq ▸ (hkept hF).1)
      · exact le_rfl
    · rw [hlog]
      show (if (c.nodes dst).commitIndex < m.leaderCommit then _ else _) ≤ _ ∧
        Settled _ _ _ (l.take (if (c.nodes dst).commitIndex < m.leaderCommit then _ else _))
      split
      · -- the leader's commit index is settled on the branch, of which the log is a part
        refine ⟨(min_le_right _ _).trans hcov.length_eq.ge, ?_⟩
        have hsettled := (hcommit hF).2.mono hterm.ge hf.toGrows
        refine hsettled.of_isPrefix (List.prefix_take_iff.mpr ⟨?_, ?_⟩)
        · exact (List.take_prefix _ _).trans (hwhole (hmay.strict hF).whole)
        · exact (List.length_take_le _ _).trans (min_le_left _ _)
      · refine ⟨(hkept hF).1, ?_⟩
        rw [(hkept hF).2]
        exact (hnode.commit hF).2.mono le_rfl hf.toGrows
  · intro env henv
    obtain rfl := List.mem_singleton.mp henv
    exact fun _ _ => ⟨l.length, hcov.length_eq.ge, Or.inr ⟨rfl, hnode.term.symm, rfl⟩⟩
  · rintro u T k (hold | ⟨rfl, rfl, -⟩)
    · exact Or.inl ⟨k, hold⟩
    · refine Or.inr (Or.inr ⟨rfl, _, List.mem_singleton_self _, ?_⟩)
      simp [Message.affirms, hnode.term]

theorem Refines.rejectAppend (h : Refines F S c a) (hmay : Admits F may) {m : AppendEntries}
    (hp : ⟨src, dst, .appendEntries m⟩ ∈ c.sent) (hdst : dst ∈ S.members) (conflictIndex : ℕ) :
    Reaches F S may a (c.setNode dst ((c.nodes dst).rejectAppend m.leaderId conflictIndex)) a := by
  refine h.setNode_of_tells hmay (h.wf.rejectAppend hp hdst conflictIndex) rfl
    { h.node dst hdst with } fun env henv => ?_
  obtain rfl := List.mem_singleton.mp henv
  exact fun hsuccess => by cases hsuccess

/-- The sender of a message that only the winner of a term sends is not its receiver. -/
theorem Refines.winner_ne_of_sent (h : Refines F S c a) {message : Message} {T : ℕ}
    (hp : ⟨src, dst, message⟩ ∈ c.sent) (hwin : a.winner T = some src) :
    a.winner T ≠ some dst := by
  have hne := (h.wf.addressed src (h.wf.sent_src _ hp) _ (mem_emittedBy_of_sent hp)).2.1
  rw [hwin]
  exact fun heq => hne (Option.some.inj heq).symm

theorem Refines.handleAppendEntries (h : Refines F S c a) (hmay : Admits F may)
    {m : AppendEntries} (hp : ⟨src, dst, .appendEntries m⟩ ∈ c.sent) (hdst : dst ∈ S.members)
    (hpos : SplicesAboveSnapshot c (.deliver ⟨src, dst, .appendEntries m⟩))
    (hstale : F.whole → NoStaleSuffix c (.deliver ⟨src, dst, .appendEntries m⟩)) :
    ∃ a', Reaches F S may a (c.setNode dst ((c.nodes dst).handleAppendEntries m)) a' := by
  unfold RaftNode.handleAppendEntries
  dsimp only
  split
  · exact ⟨a, h.rejectAppend hmay hp hdst 0⟩
  · next hle =>
    have hle := not_lt.mp hle
    have hwin : a.winner m.term = some src :=
      (h.tells src (h.wf.sent_src _ hp) _ (mem_emittedBy_of_sent hp)).1
    have hdown := h.becomeFollower hmay hdst hle (h.winner_ne_of_sent hp hwin) (some m.leaderId)
    split
    · next hmatch =>
      have haccept := hdown.refines.acceptAppend hmay hp hdst
      simp only [setNode_setNode, nodes_setNode_self] at haccept
      obtain ⟨a', ha'⟩ := haccept rfl rfl hmatch (hpos hle hmatch) fun hF => hstale hF hle hmatch
      exact ⟨a', hdown.trans ha'⟩
    · have hreject := hdown.refines.rejectAppend hmay hp hdst
        (((c.nodes dst).becomeFollower m.term (some m.leaderId)).conflictHint m.prevLogIndex)
      simp only [setNode_setNode, nodes_setNode_self] at hreject
      exact ⟨_, hdown.trans hreject⟩

/-! ### InstallSnapshot -/

theorem Refines.acceptSnapshot (h : Refines F S c a) (hmay : Admits F may)
    {m : InstallSnapshot} (hp : ⟨src, dst, .installSnapshot m⟩ ∈ c.sent) (hdst : dst ∈ S.members)
    (hrole : (c.nodes dst).role = .follower) (hterm : (c.nodes dst).currentTerm = m.term)
    (hinstall : may a dst m.lastIncludedIndex) (hlabels : F.settled → F.labels) :
    ∃ a', Reaches F S may a (c.setNode dst ((c.nodes dst).acceptSnapshot m)) a' := by
  have hnode := h.node dst hdst
  have hsrc := h.wf.sent_src _ hp
  have hne : src ≠ dst := (h.wf.addressed src hsrc _ (mem_emittedBy_of_sent hp)).2.1.symm
  obtain ⟨hwin, hle, hpre, hsettled, hlabel⟩ := h.tells src hsrc _ (mem_emittedBy_of_sent hp)
  rw [← hterm, ← hnode.term] at hwin hle hpre hsettled hlabel
  have hfollows : a.Follows dst := ⟨src, hwin, hne⟩
  set l := (a.branch (a.term dst)).take m.lastIncludedIndex with hl
  have hlen : l.length = m.lastIncludedIndex := by rw [hl, List.length_take, min_eq_left hle]
  have htake : l.take m.lastIncludedIndex = l := List.take_of_length_le hlen.le
  have hf : TermLog.Frame dst a (a.adopt dst l) := frame_adopt dst l
  have hlog : (a.adopt dst l).log dst = l := by simp [State.adopt]
  refine ⟨a.adopt dst l, h.setNode hmay
    (.single (.install dst m.lastIncludedIndex hfollows hle hinstall))
    hf (h.wf.acceptSnapshot hp hdst) rfl ?_ ?_ (fun _ hw => Or.inl hw) ?_⟩
  · refine follows_of_follower hrole hnode.term ?_ (hnode.term ▸ hfollows.winner_ne)
      (fun hF => ?_) (fun _ => ⟨le_rfl, le_rfl⟩) (fun hF => ?_) fun hF k command hmem => ?_
    · rw [hlog]
      exact Covers.installSnapshot (c.nodes dst).log hle hpre
    · rw [hlog]
      show m.lastIncludedTerm = lastTerm (l.take m.lastIncludedIndex)
      rw [htake]
      exact hlabel hF (hlabels hF)
    · rw [hlog]
      show m.lastIncludedIndex ≤ _ ∧ Settled _ _ _ (l.take m.lastIncludedIndex)
      rw [htake, hlen]
      exact ⟨le_rfl, (hsettled hF).mono hnode.term.le hf.toGrows⟩
    · -- a snapshot is not a command
      have hold : Committed.command k command ∈ (c.nodes dst).committed := by
        have hmem : Committed.command k command ∈
            (c.nodes dst).committed ++ [Committed.snapshot m.data] := hmem
        simpa using hmem
      exact (hnode.decided hF k command hold).mono hf.toGrows
  · intro env henv
    obtain rfl := List.mem_singleton.mp henv
    exact ⟨l.length, Or.inr ⟨rfl, hnode.term.symm, rfl⟩⟩
  · rintro u T k (hold | ⟨rfl, rfl, -⟩)
    · exact Or.inl ⟨k, hold⟩
    · refine Or.inr (Or.inr ⟨rfl, _, List.mem_singleton_self _, ?_⟩)
      simp [Message.affirms, hnode.term]

theorem Refines.handleInstallSnapshot (h : Refines F S c a) (hmay : Admits F may)
    {m : InstallSnapshot} (hp : ⟨src, dst, .installSnapshot m⟩ ∈ c.sent) (hdst : dst ∈ S.members)
    (hinstall : (c.nodes dst).currentTerm ≤ m.term →
      may (a.observe dst m.term) dst m.lastIncludedIndex ∧ (F.settled → F.labels)) :
    ∃ a', Reaches F S may a (c.setNode dst ((c.nodes dst).handleInstallSnapshot m)) a' := by
  unfold RaftNode.handleInstallSnapshot
  split
  · rw [setNode_nodes]
    exact ⟨a, .refl, h⟩
  · next hle =>
    have hle := not_lt.mp hle
    have hwin : a.winner m.term = some src :=
      (h.tells src (h.wf.sent_src _ hp) _ (mem_emittedBy_of_sent hp)).1
    have hdown := h.becomeFollower hmay hdst hle (h.winner_ne_of_sent hp hwin) (some m.leaderId)
    have haccept := hdown.refines.acceptSnapshot hmay hp hdst
    simp only [setNode_setNode, nodes_setNode_self] at haccept
    obtain ⟨a', ha'⟩ := haccept rfl rfl (hinstall hle).1 (hinstall hle).2
    exact ⟨a', hdown.trans ha'⟩

/-! ### Replies -/

/-- A leader records what a peer reports. -/
theorem Refines.recordMatch (h : Refines F S c a) (hmay : Admits F may) (hi : i ∈ S.members)
    (hs : Steps (F.rules may) (quorums S) a a') (hf : TermLog.Frame i a a')
    (hacks : ∀ u T k, a'.acks u T k → ∃ k', a.acks u T k') (hnode : Follows F S a' i (c.nodes i))
    {k : ℕ}
    (hmatched : F.settled → k ≤ (c.nodes i).log.snapshotIndex ∨
      Acked a' src (c.nodes i).currentTerm k)
    (hsynced : F.synced → (c.nodes i).currentTerm < a'.term src ∨
      Acked a' src (c.nodes i).currentTerm k)
    (hwon : ∀ T, a'.winner T = some i → a.winner T = some i) :
    Reaches F S may a (c.setNode i ((c.nodes i).recordMatch src k)) a' := by
  refine h.setNode (o := []) hmay hs hf (h.wf.setNode_of_silent hi rfl rfl rfl rfl rfl rfl rfl)
    (List.append_nil _).symm ?_ (fun _ henv => by simp at henv)
    (fun T hw => Or.inl (hwon T hw)) fun u T k hk => Or.inl (hacks u T k hk)
  refine { hnode with matched := fun hF hr p hp => ?_, synced := fun hF hr p hp => ?_ }
  · simp only [RaftNode.recordMatch, LeaderProgress.matchIndex_setNextIndex,
      LeaderProgress.matchIndex_setMatchIndex]
    split
    · next hsrc => exact hsrc ▸ hmatched hF
    · exact hnode.matched hF hr p hp
  · simp only [RaftNode.recordMatch, LeaderProgress.matchIndex_setNextIndex,
      LeaderProgress.matchIndex_setMatchIndex]
    split
    · next hsrc => exact Or.inr (hsrc ▸ hsynced hF)
    · exact hnode.synced hF hr p hp

theorem Refines.handleAppendEntriesReply (h : Refines F S c a) (hmay : Admits F may)
    {m : AppendEntriesReply} (hp : ⟨src, dst, .appendEntriesReply m⟩ ∈ c.sent)
    (hdst : dst ∈ S.members)
    (hlabel : F.labels → LabelsSnapshots c (.deliver ⟨src, dst, .appendEntriesReply m⟩)) :
    ∃ a', Reaches F S may a (c.setNode dst ((c.nodes dst).handleAppendEntriesReply src m)) a' := by
  have hsrc := h.wf.sent_src _ hp
  have hne : src ≠ dst := (h.wf.addressed src hsrc _ (mem_emittedBy_of_sent hp)).2.1.symm
  unfold RaftNode.handleAppendEntriesReply
  split
  · rw [setNode_nodes]
    exact ⟨a, .refl, h⟩
  · next hopen =>
    rw [not_or, not_not, not_not] at hopen
    obtain ⟨hrole, hterm⟩ := hopen
    split
    · next hsuccess =>
      have hacked : F.whole → Acked a src (c.nodes dst).currentTerm m.matchIndex := by
        rw [← hterm]
        exact h.tells src hsrc _ (mem_emittedBy_of_sent hp) hsuccess
      have hrec := h.recordMatch hmay hdst .refl (TermLog.Frame.refl dst a)
        (fun _ _ k hk => ⟨k, hk⟩)
        (h.node dst hdst) (fun hF => Or.inr (hacked (hmay.strict hF).whole))
        (fun hF => Or.inr (hacked (hmay.keepsAcked hF).whole)) fun _ hw => hw
      have hcommit := hrec.trans (hrec.refines.advanceCommit hmay hdst)
      simp only [setNode_setNode, nodes_setNode_self] at hcommit
      exact ⟨a, hcommit⟩
    · next hfail =>
      have hback : Reaches F S may a (c.setNode dst
          { c.nodes dst with
            progress := (c.nodes dst).progress.setNextIndex src (max m.conflictIndex 1) }) a :=
        h.setNode_of_silent hmay (h.wf.setNode_of_silent hdst rfl rfl rfl rfl rfl rfl rfl) rfl
          { h.node dst hdst with }
      have hsend := hback.refines.sendAppend hmay hdst (by rwa [nodes_setNode_self]) hsrc hne
      simp only [setNode_setNode, nodes_setNode_self] at hsend
      refine ⟨a, hback.trans (hsend fun hL hnext => ?_)⟩
      have hnext' : max m.conflictIndex 1 ≤ (c.nodes dst).log.snapshotIndex := by
        simpa [LeaderProgress.nextIndex, LeaderProgress.setNextIndex] using hnext
      exact hlabel hL hrole hterm (by simpa using hfail) hnext'

/-- The leader credits the peer with its own snapshot. That is harmless for counting, which is
about entries above the snapshot; for the match index to be true the peer must have as much. -/
theorem Refines.handleInstallSnapshotReply (h : Refines F S c a) (hmay : Admits F may)
    {m : InstallSnapshotReply} (hp : ⟨src, dst, .installSnapshotReply m⟩ ∈ c.sent)
    (hdst : dst ∈ S.members)
    (hcovers : F.synced →
      SnapshotReplyCovers c (.deliver ⟨src, dst, .installSnapshotReply m⟩)) :
    ∃ a', Reaches F S may a
      (c.setNode dst ((c.nodes dst).handleInstallSnapshotReply src m)) a' := by
  have hsrc := h.wf.sent_src _ hp
  have hne : src ≠ dst := (h.wf.addressed src hsrc _ (mem_emittedBy_of_sent hp)).2.1.symm
  obtain ⟨k, hk⟩ := h.tells src hsrc _ (mem_emittedBy_of_sent hp)
  have hnode := h.node dst hdst
  unfold RaftNode.handleInstallSnapshotReply
  split
  · rw [setNode_nodes]
    exact ⟨a, .refl, h⟩
  · next hopen =>
    rw [not_or, not_not, not_not] at hopen
    obtain ⟨hrole, hterm⟩ := hopen
    rw [hterm] at hk
    by_cases hstill : F.synced ∧ a.term src = (c.nodes dst).currentTerm
    · -- the peer is still in the term, and holds what it is credited with
      obtain ⟨hF, hcur⟩ := hstill
      have hwin : a.winner (a.term src) = some dst := hcur ▸ hnode.leader hrole
      have hother : a.winner (a.term src) ≠ some src := by
        rw [hwin]
        exact fun heq => hne (Option.some.inj heq).symm
      have hlog := (h.allSynced hF src k (hcur.symm ▸ hk) hother).1
      have hlen : (c.nodes dst).log.snapshotIndex ≤ (a.log src).length := by
        rw [(h.node src hsrc).covers.length_eq]
        exact hcovers hF hrole hterm ((h.node src hsrc).term.symm.trans (hcur.trans hterm.symm))
      have hf := frame_affirm (a := a) dst src (c.nodes dst).log.snapshotIndex
      refine ⟨_, h.recordMatch hmay hdst
        (.single (.affirm src _ ⟨dst, hwin, hne.symm⟩ hlog hlen)) hf ?_
        (hnode.mono hf.toGrows rfl rfl fun _ hw => hw) (fun _ => Or.inl le_rfl)
        (fun _ => Or.inr ⟨_, le_rfl, Or.inr ⟨rfl, hcur.symm, rfl⟩⟩) fun _ hw => hw⟩
      rintro u T k' (hold | ⟨rfl, rfl, -⟩)
      · exact ⟨k', hold⟩
      · exact ⟨k, hcur.symm ▸ hk⟩
    · refine ⟨a, h.recordMatch hmay hdst .refl (TermLog.Frame.refl dst a)
        (fun _ _ k hk => ⟨k, hk⟩) hnode
        (fun _ => Or.inl le_rfl) (fun hF => Or.inl ?_) fun _ hw => hw⟩
      have hle := h.consistent.acks_term src _ k hk
      exact hle.lt_of_ne fun heq => hstill ⟨hF, heq.symm⟩

end Cluster

end Ferrium
