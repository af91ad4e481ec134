import Ferrium.Cluster.Conditions
import Ferrium.Cluster.Election
import Ferrium.Lib.Completeness

/-!
# The cluster as an abstract replicated log

`Refines F S c a` relates a cluster to a state of the abstract log of `TermLog`: every node is in
the term that `a` says and keeps what is left of the log that `a` says, and every message that has
been produced states facts of `a`.

How much a message is known to say depends on the conditions that the run respects; the `Checks` `F`
select the parts of the relation that are claimed.
-/

namespace Ferrium

open TermLog Branch RaftLog

/-- Which parts of the correspondence are claimed. -/
structure Checks where
  /-- A positive reply is about the whole log of its sender (`NoStaleSuffix`). -/
  whole : Prop
  /-- Labels of logs are true, and what is committed is settled. -/
  settled : Prop
  /-- Labels of snapshots on their way are true (`LabelsSnapshots`). -/
  labels : Prop
  /-- Match indices are true while the peer is in the leader's term (`SnapshotReplyCovers`). -/
  synced : Prop

/-- The rules of the abstract log that correspond to the checks. -/
def Checks.rules (F : Checks) (may : State NodeId LogEntry → NodeId → ℕ → Prop) :
    Rules NodeId LogEntry where
  upToDate := F.settled
  whole := F.whole
  mayInstall := may

namespace Cluster

variable {S : Setup} {F : Checks} {c : Cluster} {i j : NodeId} {n : RaftNode}
variable {a a' : State NodeId LogEntry} {o : List Envelope}

/-- The command at index `k` of a settled prefix is `command`. -/
def Decided (S : Setup) (a : State NodeId LogEntry) (k : ℕ) (command : List UInt8) : Prop :=
  ∃ t l e, Settled (quorums S) a t l ∧ 0 < k ∧ l[k - 1]? = some e ∧ e.command = command

/-- What an AppendEntries says of the branch of its term: the branch is known up to the previous
index and goes on with the entries; or the previous index is past its end, and the term sent for it
is `0`. -/
def Window (a : State NodeId LogEntry) (m : AppendEntries) : Prop :=
  (m.prevLogIndex ≤ (a.branch m.term).length ∧
      (a.branch m.term).take m.prevLogIndex <+: a.branch m.prevLogTerm ∧
      (a.branch m.term).take m.prevLogIndex ++ m.entries <+: a.branch m.term) ∨
    (m.prevLogTerm = 0 ∧ 0 < m.prevLogIndex ∧ m.entries = [])

/-- What a message from node `i` to `dst` tells. -/
def Tells (F : Checks) (S : Setup) (a : State NodeId LogEntry) (i dst : NodeId) : Message → Prop
  | .requestVote m => ∃ l, a.bid i m.term = some l ∧
      (F.settled → m.lastLogIndex = l.length ∧ m.lastLogTerm = lastTerm l)
  | .requestVoteReply m => m.voteGranted = true → a.votes i m.term dst
  | .appendEntries m => a.winner m.term = some i ∧ Window a m ∧
      (F.settled → m.leaderCommit ≤ (a.branch m.term).length ∧
        Settled (quorums S) a m.term ((a.branch m.term).take m.leaderCommit))
  | .appendEntriesReply m => m.success = true → F.whole → Acked a i m.term m.matchIndex
  | .installSnapshot m => a.winner m.term = some i ∧
      m.lastIncludedIndex ≤ (a.branch m.term).length ∧
      (a.branch m.term).take m.lastIncludedIndex <+: a.branch m.lastIncludedTerm ∧
      (F.settled → Settled (quorums S) a m.term ((a.branch m.term).take m.lastIncludedIndex)) ∧
      (F.settled → F.labels →
        m.lastIncludedTerm = lastTerm ((a.branch m.term).take m.lastIncludedIndex))
  | .installSnapshotReply m => ∃ k, a.acks i m.term k

/-- Node `i` is in the state `n`. -/
structure Follows (F : Checks) (S : Setup) (a : State NodeId LogEntry) (i : NodeId)
    (n : RaftNode) : Prop where
  term : a.term i = n.currentTerm
  covers : Covers a.branch (a.log i) n.log
  leader : n.role = .leader → a.winner n.currentTerm = some i
  office : a.winner n.currentTerm = some i → n.role = .leader
  candidate : n.role = .candidate → a.bid i n.currentTerm = some (a.log i)
  ballots : n.role ≠ .follower → ∀ u ∈ n.votes.granted, a.votes u n.currentTerm i
  label : F.settled → TrueLabel (a.log i) n.log
  applied : F.settled → n.log.snapshotIndex ≤ n.lastApplied ∧ n.lastApplied ≤ n.commitIndex
  commit : F.settled → n.commitIndex ≤ (a.log i).length ∧
    Settled (quorums S) a n.currentTerm ((a.log i).take n.commitIndex)
  decided : F.settled → ∀ k command, .command k command ∈ n.committed → Decided S a k command
  /-- A match index above the leader's own snapshot point has been acknowledged. -/
  matched : F.settled → n.role = .leader → ∀ p ∈ S.peers i,
    n.progress.matchIndex p ≤ n.log.snapshotIndex ∨
      Acked a p n.currentTerm (n.progress.matchIndex p)
  /-- A match index has been acknowledged, unless the peer has left the term. -/
  synced : F.synced → n.role = .leader → ∀ p ∈ S.peers i,
    n.progress.matchIndex p = 0 ∨ n.currentTerm < a.term p ∨
      Acked a p n.currentTerm (n.progress.matchIndex p)

/-- What is to be shown of a follower: the rest is about candidates and leaders. -/
theorem follows_of_follower (hrole : n.role = .follower) (hterm : a.term i = n.currentTerm)
    (hcovers : Covers a.branch (a.log i) n.log) (hoffice : a.winner n.currentTerm ≠ some i)
    (hlabel : F.settled → TrueLabel (a.log i) n.log)
    (happlied : F.settled → n.log.snapshotIndex ≤ n.lastApplied ∧ n.lastApplied ≤ n.commitIndex)
    (hcommit : F.settled → n.commitIndex ≤ (a.log i).length ∧
      Settled (quorums S) a n.currentTerm ((a.log i).take n.commitIndex))
    (hdecided : F.settled → ∀ k command, .command k command ∈ n.committed →
      Decided S a k command) : Follows F S a i n where
  term := hterm
  covers := hcovers
  leader hr := by simp [hrole] at hr
  office hw := absurd hw hoffice
  candidate hr := by simp [hrole] at hr
  ballots hr := absurd hrole hr
  label := hlabel
  applied := happlied
  commit := hcommit
  decided := hdecided
  matched _ hr := by simp [hrole] at hr
  synced _ hr := by simp [hrole] at hr

/-- The cluster `c` is in the state `a` of the abstract log. -/
structure Refines (F : Checks) (S : Setup) (c : Cluster) (a : State NodeId LogEntry) : Prop where
  wf : WellFormed S True c
  consistent : Consistent (quorums S) F.whole a
  complete : F.settled → Complete (quorums S) a
  allSynced : F.synced → Synced a
  node : ∀ i ∈ S.members, Follows F S a i (c.nodes i)
  tells : ∀ i ∈ S.members, ∀ env ∈ c.emittedBy i, Tells F S a i env.dst env.message
  won : ∀ T w, a.winner T = some w → w ∈ S.members ∧ Won S c w T
  acker : ∀ u T k, a.acks u T k →
    a.winner T = some u ∨ ∃ env ∈ c.emittedBy u, env.message.affirms = some T
  handed : F.settled → ∀ i k command, (i, .command k command) ∈ c.handed → Decided S a k command

/-! ### Facts stay -/

theorem Decided.mono {k : ℕ} {command : List UInt8} (h : Decided S a k command)
    (hg : Grows a a') : Decided S a' k command := by
  obtain ⟨t, l, e, hl, hpos, he, hcmd⟩ := h
  exact ⟨t, l, e, hl.mono le_rfl hg, hpos, he, hcmd⟩

/-- A part of a branch that has been reached stays the same. -/
theorem take_branch_of_grows (hg : Grows a a') {T k : ℕ} (hk : k ≤ (a.branch T).length) :
    (a'.branch T).take k = (a.branch T).take k := by
  obtain ⟨rest, hrest⟩ := hg.branch T
  rw [← hrest, List.take_append_of_le_length hk]

theorem Window.mono {m : AppendEntries} (h : Window a m) (hg : Grows a a') : Window a' m := by
  rcases h with ⟨hle, hpre, hwin⟩ | hpast
  · refine Or.inl ⟨hle.trans (hg.branch _).length_le, ?_, ?_⟩
    · rw [take_branch_of_grows hg hle]
      exact hpre.trans (hg.branch _)
    · rw [take_branch_of_grows hg hle]
      exact hwin.trans (hg.branch _)
  · exact Or.inr hpast

theorem Tells.mono {dst : NodeId} {message : Message} (h : Tells F S a i dst message)
    (hg : Grows a a') : Tells F S a' i dst message := by
  cases message with
  | requestVote m =>
    obtain ⟨l, hbid, hlast⟩ := h
    exact ⟨l, hg.bid _ _ _ hbid, hlast⟩
  | requestVoteReply m => exact fun hgrant => hg.votes _ _ _ (h hgrant)
  | appendEntries m =>
    obtain ⟨hwin, hwindow, hcommit⟩ := h
    refine ⟨hg.winner _ _ hwin, hwindow.mono hg, fun hF => ?_⟩
    obtain ⟨hle, hsettled⟩ := hcommit hF
    refine ⟨hle.trans (hg.branch _).length_le, ?_⟩
    rw [take_branch_of_grows hg hle]
    exact hsettled.mono le_rfl hg
  | appendEntriesReply m => exact fun hsuccess hF => (h hsuccess hF).mono hg
  | installSnapshot m =>
    obtain ⟨hwin, hle, hpre, hsettled, hlabel⟩ := h
    refine ⟨hg.winner _ _ hwin, hle.trans (hg.branch _).length_le, ?_⟩
    rw [take_branch_of_grows hg hle]
    exact ⟨hpre.trans (hg.branch _), fun hF => (hsettled hF).mono le_rfl hg, hlabel⟩
  | installSnapshotReply m =>
    obtain ⟨k, hk⟩ := h
    exact ⟨k, hg.acks _ _ _ hk⟩

/-- A change that leaves the term and the log of a node as they are, and does not make it a
winner. -/
theorem Follows.mono (h : Follows F S a i n) (hg : Grows a a') (hterm : a'.term i = a.term i)
    (hlog : a'.log i = a.log i) (hwin : ∀ T, a'.winner T = some i → a.winner T = some i) :
    Follows F S a' i n where
  term := hterm.trans h.term
  covers := by
    rw [hlog]
    exact h.covers.mono hg.branch
  leader hrole := hg.winner _ _ (h.leader hrole)
  office hw := h.office (hwin _ hw)
  candidate hrole := by
    rw [hlog]
    exact hg.bid _ _ _ (h.candidate hrole)
  ballots hrole u hu := hg.votes _ _ _ (h.ballots hrole u hu)
  label := by
    rw [hlog]
    exact h.label
  applied := h.applied
  commit hF := by
    rw [hlog]
    exact ⟨(h.commit hF).1, (h.commit hF).2.mono le_rfl hg⟩
  decided hF k command hmem := (h.decided hF k command hmem).mono hg
  matched hF hrole p hp := (h.matched hF hrole p hp).imp_right fun hk => hk.mono hg
  synced hF hrole p hp := (h.synced hF hrole p hp).imp_right fun hk =>
    hk.imp (fun hlt => hlt.trans_le (hg.term p)) fun hk => hk.mono hg

/-- A change at node `i` does not concern another node. -/
theorem Follows.frame (h : Follows F S a j n) (hf : TermLog.Frame i a a') (hj : j ≠ i) :
    Follows F S a' j n :=
  h.mono hf.toGrows (hf.term_eq j hj) (hf.log_eq j hj) (hf.winner_of j hj)

/-- What the rules must ensure for the parts that are claimed. -/
structure Admits (F : Checks) (may : State NodeId LogEntry → NodeId → ℕ → Prop) : Prop where
  strict : F.settled → (F.rules may).Strict
  keepsAcked : F.synced → (F.rules may).KeepsAcked

/-- The abstract log goes from `a` to `a'`, which is the state that `c` is in. -/
structure Reaches (F : Checks) (S : Setup) (may : State NodeId LogEntry → NodeId → ℕ → Prop)
    (a : State NodeId LogEntry) (c : Cluster) (a' : State NodeId LogEntry) : Prop where
  steps : Steps (F.rules may) (quorums S) a a'
  refines : Refines F S c a'

theorem Reaches.trans {may : State NodeId LogEntry → NodeId → ℕ → Prop} {c' : Cluster}
    {a'' : State NodeId LogEntry} (h : Reaches F S may a c a') (h' : Reaches F S may a' c' a'') :
    Reaches F S may a c' a'' :=
  ⟨h.steps.trans h'.steps, h'.refines⟩

/-- Node `i` is replaced by `n`, while the abstract log moves from `a` to `a'`. -/
theorem Refines.setNode {may : State NodeId LogEntry → NodeId → ℕ → Prop}
    (h : Refines F S c a) (hmay : Admits F may) (hs : Steps (F.rules may) (quorums S) a a')
    (hf : TermLog.Frame i a a') (hwf : WellFormed S True (c.setNode i n))
    (hout : n.outgoing = (c.nodes i).outgoing ++ o) (hnode : Follows F S a' i n)
    (htells : ∀ env ∈ o, Tells F S a' i env.dst env.message)
    (hwon : ∀ T, a'.winner T = some i → a.winner T = some i ∨
      (i ∈ S.members ∧ Won S (c.setNode i n) i T))
    (hacker : ∀ u T k, a'.acks u T k → (∃ k', a.acks u T k') ∨ a'.winner T = some u ∨
      (u = i ∧ ∃ env ∈ o, env.message.affirms = some T)) :
    Reaches F S may a (c.setNode i n) a' := by
  have hemit : ∀ j env, env ∈ c.emittedBy j → env ∈ (c.setNode i n).emittedBy j := by
    intro j env henv
    rw [emittedBy_setNode hout]
    split
    · next hj => exact List.mem_append_left _ (hj ▸ henv)
    · exact henv
  refine ⟨hs,
  { wf := hwf
    consistent := Steps.consistent hs h.consistent
    complete := fun hF => Steps.complete hs (hmay.strict hF) h.consistent (h.complete hF)
    allSynced := fun hF => Steps.synced hs (hmay.keepsAcked hF) h.consistent (h.allSynced hF)
    node := fun j hj => ?_
    tells := fun j hj env henv => ?_
    won := fun T w hw => ?_
    acker := fun u T k hk => ?_
    handed := fun hF j k command hmem => (h.handed hF j k command hmem).mono hf.toGrows }⟩
  · rcases eq_or_ne j i with rfl | hne
    · rwa [nodes_setNode_self]
    · rw [nodes_setNode_of_ne c n hne]
      exact (h.node j hj).frame hf hne
  · rw [emittedBy_setNode hout] at henv
    split at henv
    · next hji =>
      subst hji
      rcases List.mem_append.mp henv with hold | hnew
      · exact (h.tells j hj env hold).mono hf.toGrows
      · exact htells env hnew
    · exact (h.tells j hj env henv).mono hf.toGrows
  · have hold : ∀ {w}, a.winner T = some w → w ∈ S.members ∧ Won S (c.setNode i n) w T := by
      intro w hw
      obtain ⟨hmem, Q, hQ, hvoted⟩ := h.won T w hw
      exact ⟨hmem, Q, hQ, fun u hu => (hvoted u hu).imp_left fun hv => hv.setNode hout⟩
    rcases eq_or_ne w i with rfl | hne
    · exact (hwon T hw).elim hold id
    · exact hold (hf.winner_of w hne T hw)
  · rcases hacker u T k hk with ⟨k', hold⟩ | hwin | ⟨rfl, env, henv, haff⟩
    · refine (h.acker u T k' hold).imp (hf.winner T u) ?_
      rintro ⟨env, henv, haff⟩
      exact ⟨env, hemit u env henv, haff⟩
    · exact Or.inl hwin
    · refine Or.inr ⟨env, ?_, haff⟩
      rw [emittedBy_setNode hout, if_pos rfl]
      exact List.mem_append_right _ henv

end Cluster

end Ferrium
