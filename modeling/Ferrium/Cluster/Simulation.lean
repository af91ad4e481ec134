import Ferrium.Cluster.Refinement

/-!
# Every event of a cluster is a run of the abstract log

For each operation of a node, the steps of the abstract log that it corresponds to; then the same
for the events of a cluster, and for whole runs.

## Main results

* `Refines.step`: an event is simulated by steps of the abstract log, under the conditions that the
  claimed parts of the correspondence need;
* `Refines.run`: so is a run.
-/

namespace Ferrium

open TermLog Branch RaftLog

namespace Cluster

variable {S : Setup} {F : Checks} {c : Cluster} {i j : NodeId} {n : RaftNode}
variable {a a' : State NodeId LogEntry} {o : List Envelope}
variable {may : State NodeId LogEntry → NodeId → ℕ → Prop}

/-! ### Operations without an abstract step -/

/-- The abstract log stays where it is. -/
theorem Refines.setNode_of_tells (h : Refines F S c a) (hmay : Admits F may)
    (hwf : WellFormed S True (c.setNode i n))
    (hout : n.outgoing = (c.nodes i).outgoing ++ o) (hnode : Follows F S a i n)
    (htells : ∀ env ∈ o, Tells F S a i env.dst env.message) : Reaches F S may a (c.setNode i n) a :=
  h.setNode hmay .refl (TermLog.Frame.refl i a) hwf hout hnode htells (fun _ hw => Or.inl hw)
    fun _ _ k hk => Or.inl ⟨k, hk⟩

/-- The abstract log stays where it is, and nothing is sent. -/
theorem Refines.setNode_of_silent (h : Refines F S c a) (hmay : Admits F may)
    (hwf : WellFormed S True (c.setNode i n))
    (hout : n.outgoing = (c.nodes i).outgoing) (hnode : Follows F S a i n) :
    Reaches F S may a (c.setNode i n) a :=
  h.setNode_of_tells (o := []) hmay hwf (hout.trans (List.append_nil _).symm) hnode
    fun _ henv => by simp at henv

/-- The complete log of a leader is the branch of its term. -/
theorem Follows.log_eq_branch (h : Follows F S a i n) (hcon : Consistent (quorums S) F.whole a)
    (hrole : n.role = .leader) : a.log i = a.branch n.currentTerm := by
  have hwin := h.leader hrole
  rw [← h.term] at hwin ⊢
  exact hcon.winner_log i hwin

/-- What a leader sends to a peer is true. -/
theorem Follows.tells_appendFor (h : Follows F S a i n)
    (hcon : Consistent (quorums S) F.whole a) (hrole : n.role = .leader) (peer : NodeId)
    (hlabel : F.labels → n.progress.nextIndex peer ≤ n.log.snapshotIndex →
      n.log.lastTerm = n.log.snapshotTerm) (dst : NodeId) :
    Tells F S a i dst (n.appendFor peer) := by
  have hbranch := h.log_eq_branch hcon hrole
  unfold RaftNode.appendFor
  dsimp only
  split
  · next hnext =>
    -- the snapshot is the part of the leader's log that it has discarded
    refine ⟨h.leader hrole, ?_, ?_, fun hF => ?_, fun hF hL => ?_⟩ <;> dsimp only <;>
      rw [← hbranch]
    · exact h.covers.snapshotIndex_le
    · exact (List.take_prefix _ _).trans (h.covers.prefix_lastTerm (hcon.log_on i))
    · refine (h.commit hF).2.of_isPrefix (List.take_prefix_take_left ?_)
      exact (h.applied hF).1.trans (h.applied hF).2
    · rw [hlabel hL hnext]
      exact h.label hF
  · next hnext =>
    rw [not_le] at hnext
    refine ⟨h.leader hrole, ?_, fun hF => ?_⟩
    · unfold Window
      dsimp only
      rw [← hbranch, h.covers.entriesFrom_eq hnext]
      cases hterm : n.log.termAt (n.progress.nextIndex peer - 1) with
      | some t =>
        obtain ⟨hle, hpre⟩ := h.covers.of_termAt (hcon.log_on i) hterm
        refine Or.inl ⟨hle, hpre, ?_⟩
        rw [List.take_append_drop]
      | none =>
        -- the previous index is past the end of the log
        have hpast : (a.log i).length < n.progress.nextIndex peer - 1 := by
          by_contra hle
          rw [not_lt] at hle
          rcases (Nat.le_sub_one_of_lt hnext).eq_or_lt with heq | hlt
          · rw [← heq, termAt_snapshotIndex] at hterm
            cases hterm
          · obtain ⟨e, he⟩ := h.covers.exists_get hlt hle
            cases hterm.symm.trans (termAt_of_get he)
        exact Or.inr ⟨rfl, by omega, List.drop_eq_nil_of_le hpast.le⟩
    · dsimp only
      rw [← hbranch]
      exact h.commit hF

theorem Refines.broadcastAppend (h : Refines F S c a) (hmay : Admits F may)
    (hi : i ∈ S.members) (hrole : (c.nodes i).role = .leader)
    (hlabel : F.labels → (∃ p ∈ (c.nodes i).peers,
        (c.nodes i).progress.nextIndex p ≤ (c.nodes i).log.snapshotIndex) →
      (c.nodes i).log.lastTerm = (c.nodes i).log.snapshotTerm) :
    Reaches F S may a (c.setNode i (c.nodes i).broadcastAppend) a := by
  have hwf := h.wf.broadcastAppend hi
  have hnode := h.node i hi
  rw [RaftNode.broadcastAppend_eq] at hwf ⊢
  refine h.setNode_of_tells hmay hwf rfl { hnode with } fun env henv => ?_
  obtain ⟨peer, hpeer, rfl⟩ := List.mem_map.mp henv
  exact hnode.tells_appendFor h.consistent hrole peer
    (fun hL hnext => hlabel hL ⟨peer, hpeer, hnext⟩) peer

theorem Refines.sendAppend (h : Refines F S c a) (hmay : Admits F may)
    (hi : i ∈ S.members) (hrole : (c.nodes i).role = .leader) {peer : NodeId}
    (hpeer : peer ∈ S.members) (hne : peer ≠ i)
    (hlabel : F.labels → (c.nodes i).progress.nextIndex peer ≤ (c.nodes i).log.snapshotIndex →
      (c.nodes i).log.lastTerm = (c.nodes i).log.snapshotTerm) :
    Reaches F S may a (c.setNode i ((c.nodes i).sendAppend peer)) a := by
  refine h.setNode_of_tells hmay (h.wf.sendAppend hi hpeer hne) rfl { h.node i hi with }
    fun env henv => ?_
  obtain rfl := List.mem_singleton.mp henv
  exact (h.node i hi).tells_appendFor h.consistent hrole peer hlabel peer

/-! ### Committing -/

/-- The leader and the peers whose match index has reached `k`. -/
def replicators (n : RaftNode) (i : NodeId) (k : ℕ) : Finset NodeId :=
  insert i (n.peers.filter fun peer => k ≤ n.progress.matchIndex peer).toFinset

theorem isQuorum_replicators (hi : i ∈ S.members) (hpeers : n.peers = S.peers i) {k : ℕ}
    (hmaj : n.majority ≤ n.replicas k) : (quorums S).IsQuorum (replicators n i k) := by
  have hnot : i ∉ (n.peers.filter fun peer => k ≤ n.progress.matchIndex peer).toFinset := by
    simp [hpeers, S.mem_peers i hi i]
  have hnodup : (n.peers.filter fun peer => k ≤ n.progress.matchIndex peer).Nodup :=
    (hpeers ▸ S.nodup_peers i hi).filter _
  refine ⟨fun u hu => ?_, ?_⟩
  · rcases Finset.mem_insert.mp hu with rfl | hpeer
    · exact hi
    · have hmem : u ∈ S.peers i := by
        rw [← hpeers]
        exact (List.mem_filter.mp (List.mem_toFinset.mp hpeer)).1
      exact ((S.mem_peers i hi u).mp hmem).1
  · rw [replicators, Finset.card_insert_of_notMem hnot, List.toFinset_card_of_nodup hnodup,
      ← n.replicas_eq k, card_members hi, ← hpeers]
    exact hmaj

/-- The prefix that a leader commits has been acknowledged by those whom it counts. -/
theorem Follows.chosen (h : Follows F S a i n) (hcon : Consistent (quorums S) F.whole a)
    (hF : F.settled) (hi : i ∈ S.members) (hpeers : n.peers = S.peers i)
    (hrole : n.role = .leader) {k : ℕ} (hlt : n.commitIndex < k) (hle : k ≤ n.log.lastIndex)
    (hterm : n.log.termAt k = some n.currentTerm) (hmaj : n.majority ≤ n.replicas k) :
    Chosen (quorums S) a n.currentTerm ((a.log i).take k) := by
  have hsnap : n.log.snapshotIndex < k :=
    ((h.applied hF).1.trans (h.applied hF).2).trans_lt hlt
  rw [← h.covers.length_eq] at hle
  have hlen : ((a.log i).take k).length = k := by rw [List.length_take, min_eq_left hle]
  rw [h.covers.termAt_eq hsnap, Option.map_eq_some_iff] at hterm
  obtain ⟨e, he, hterm⟩ := hterm
  have htake : (a.log i).take k = (a.log i).take (k - 1) ++ [e] := by
    rw [← take_succ_eq_concat he, Nat.sub_add_cancel (by omega)]
  refine ⟨?_, ?_, ?_, replicators n i k, isQuorum_replicators hi hpeers hmaj, fun u hu => ?_⟩
  · rw [htake]
    simp
  · rw [htake, lastTerm_concat]
    exact hterm
  · rw [← h.log_eq_branch hcon hrole]
    exact List.take_prefix _ _
  · rw [hlen]
    rcases Finset.mem_insert.mp hu with rfl | hpeer
    · -- the leader holds all of its own log
      have hwin := h.leader hrole
      rw [← h.term] at hwin ⊢
      exact ⟨_, hle, hcon.winner_acks u hwin⟩
    · obtain ⟨hmem, hmatch⟩ := List.mem_filter.mp (List.mem_toFinset.mp hpeer)
      have hmatch : k ≤ n.progress.matchIndex u := by simpa using hmatch
      rcases h.matched hF hrole u (hpeers ▸ hmem) with hbelow | ⟨k', hk', hacks⟩
      · omega
      · exact ⟨k', hmatch.trans hk', hacks⟩

theorem Refines.advanceCommit (h : Refines F S c a) (hmay : Admits F may)
    (hi : i ∈ S.members) : Reaches F S may a (c.setNode i (c.nodes i).advanceCommit) a := by
  have hwf := h.wf.advanceCommit hi
  have hnode := h.node i hi
  rw [RaftNode.advanceCommit_eq] at hwf ⊢
  refine h.setNode_of_silent hmay hwf rfl
    { hnode with
      applied := fun hF => ?_
      commit := fun hF => ?_ }
  · refine ⟨(hnode.applied hF).1, (hnode.applied hF).2.trans ?_⟩
    dsimp only
    split
    · exact RaftNode.commitIndex_le_commitFrom _ _
    · exact le_rfl
  · dsimp only
    split
    · next hrole =>
      rcases (c.nodes i).commitFrom_cases (c.nodes i).log.lastIndex with
        hsame | ⟨hlt, hle, hterm, hmaj⟩
      · rw [hsame]
        exact hnode.commit hF
      · refine ⟨hnode.covers.length_eq ▸ hle, ?_⟩
        exact (hnode.chosen h.consistent hF hi (h.wf.peers_eq i hi) hrole hlt hle hterm
          hmaj).settled le_rfl
    · exact hnode.commit hF

/-! ### Elections -/

/-- Stepping down into a term that the node has not won. -/
theorem Refines.becomeFollower (h : Refines F S c a) (hmay : Admits F may)
    (hi : i ∈ S.members) {T : ℕ} (hle : (c.nodes i).currentTerm ≤ T)
    (hne : a.winner T ≠ some i) (leader : Option NodeId) :
    Reaches F S may a (c.setNode i ((c.nodes i).becomeFollower T leader)) (a.observe i T) := by
  have hnode := h.node i hi
  have hle' : a.term i ≤ T := hnode.term ▸ hle
  have hf : TermLog.Frame i a (a.observe i T) := frame_observe hle'
  refine h.setNode (o := []) hmay (.single (.observe i T hle')) hf
    (h.wf.becomeFollower hi hle leader) (List.append_nil _).symm ?_ (fun _ henv => by simp at henv)
    (fun _ hw => Or.inl hw) fun _ _ k hk => Or.inl ⟨k, hk⟩
  refine follows_of_follower rfl (Function.update_self _ _ _) hnode.covers hne hnode.label
    hnode.applied (fun hF => ?_) fun hF k command hmem => ?_
  · exact ⟨(hnode.commit hF).1, (hnode.commit hF).2.mono hle hf.toGrows⟩
  · exact (hnode.decided hF k command hmem).mono hf.toGrows

/-- A term that a node has not reached has not been won by it. -/
theorem Refines.winner_ne_of_lt (h : Refines F S c a) (hi : i ∈ S.members) {T : ℕ}
    (hlt : (c.nodes i).currentTerm < T) : a.winner T ≠ some i :=
  h.consistent.winner_ne_of_lt ((h.node i hi).term.symm ▸ hlt)

/-- A candidacy. -/
theorem Refines.requestVotes (h : Refines F S c a) (hmay : Admits F may) (hi : i ∈ S.members) :
    Reaches F S may a (c.setNode i (c.nodes i).standForElection.requestVotes) (a.stand i) := by
  have hnode := h.node i hi
  have hf : TermLog.Frame i a (a.stand i) := frame_stand h.consistent i
  have hterm : a.term i + 1 = (c.nodes i).currentTerm + 1 := by rw [hnode.term]
  have hbid : (a.stand i).bid i ((c.nodes i).currentTerm + 1) = some (a.log i) := by
    simp [State.stand, hterm]
  have hwf := h.wf.requestVotes hi
  rw [RaftNode.requestVotes_eq] at hwf ⊢
  refine h.setNode hmay (.single (.stand i)) hf hwf rfl ?_ (fun env henv => ?_)
    (fun _ hw => Or.inl hw) fun _ _ k hk => Or.inl ⟨k, hk⟩
  · exact
    { term := (Function.update_self _ _ _).trans hterm
      covers := hnode.covers
      leader := fun hrole => by cases hrole
      office := fun hwin => absurd hwin (h.winner_ne_of_lt hi (Nat.lt_succ_self _))
      candidate := fun _ => hbid
      ballots := fun _ u hu => by
        -- the only vote so far is the candidate's own
        obtain rfl : u = (c.nodes i).id := by
          simpa [RaftNode.standForElection, RaftNode.resetElectionTimer, VoteTally.record,
            VoteTally.empty] using hu
        rw [h.wf.id_eq i hi]
        exact Or.inr ⟨rfl, hterm.symm, rfl⟩
      label := hnode.label
      applied := hnode.applied
      commit := fun hF =>
        ⟨(hnode.commit hF).1, (hnode.commit hF).2.mono (Nat.le_succ _) hf.toGrows⟩
      decided := fun hF k command hmem => (hnode.decided hF k command hmem).mono hf.toGrows
      matched := fun _ hrole => by cases hrole
      synced := fun _ hrole => by cases hrole }
  · obtain ⟨peer, -, rfl⟩ := List.mem_map.mp henv
    refine ⟨a.log i, hbid, fun hF => ⟨hnode.covers.length_eq.symm, ?_⟩⟩
    exact hnode.covers.lastTerm_eq (hnode.label hF)

/-- A candidate that has a majority of the votes has no competitor that has won the term. -/
theorem Refines.winner_eq_none (h : Refines F S c a) (hi : i ∈ S.members)
    (hrole : (c.nodes i).role = .candidate)
    (hmaj : (c.nodes i).majority ≤ (c.nodes i).votes.count) :
    a.winner (c.nodes i).currentTerm = none := by
  have hcamp := h.wf.campaign i hi (by simp [hrole])
  have hwon : Won S c i (c.nodes i).currentTerm := by
    refine ⟨(c.nodes i).votes.granted, ⟨hcamp.voters_mem, ?_⟩, hcamp.voted⟩
    unfold RaftNode.majority RaftNode.clusterSize at hmaj
    rwa [h.wf.peers_eq i hi, ← card_members hi] at hmaj
  by_contra hsome
  obtain ⟨w, hw⟩ := Option.ne_none_iff_exists'.mp hsome
  obtain ⟨hmem, hwon'⟩ := h.won _ w hw
  obtain rfl := h.wf.won_unique hi hmem hwon hwon'
  have := (h.node i hi).office hw
  rw [hrole] at this
  cases this

theorem Refines.takeOffice (h : Refines F S c a) (hmay : Admits F may) (hi : i ∈ S.members)
    (hrole : (c.nodes i).role = .candidate)
    (hmaj : (c.nodes i).majority ≤ (c.nodes i).votes.count) :
    Reaches F S may a (c.setNode i (c.nodes i).takeOffice) (a.win i) := by
  have hnode := h.node i hi
  have hnone : a.winner (a.term i) = none := by
    rw [hnode.term]
    exact h.winner_eq_none hi hrole hmaj
  have hbid : a.bid i (a.term i) = some (a.log i) := by
    rw [hnode.term]
    exact hnode.candidate hrole
  have hquorum : ∃ Q, (quorums S).IsQuorum Q ∧ ∀ u ∈ Q, a.votes u (a.term i) i := by
    have hcamp := h.wf.campaign i hi (by simp [hrole])
    refine ⟨(c.nodes i).votes.granted, ⟨hcamp.voters_mem, ?_⟩, ?_⟩
    · unfold RaftNode.majority RaftNode.clusterSize at hmaj
      rwa [h.wf.peers_eq i hi, ← card_members hi] at hmaj
    · rw [hnode.term]
      exact hnode.ballots (by simp [hrole])
  have hf : TermLog.Frame i a (a.win i) := frame_win h.consistent hnone
  have hwin : (a.win i).winner (c.nodes i).currentTerm = some i := by
    rw [← hnode.term]
    simp
  have hwf := h.wf.takeOffice hi (by simp [hrole]) hmaj
  refine h.setNode (o := []) hmay (.single (.win i hnone hbid hquorum)) hf hwf
    (List.append_nil _).symm ?_ (fun _ henv => by simp at henv) (fun T hw => ?_) ?_
  · exact
    { term := hnode.term
      covers := hnode.covers.mono hf.branch
      leader := fun _ => hwin
      office := fun _ => rfl
      candidate := fun hr => by cases hr
      ballots := fun _ => hnode.ballots (by simp [hrole])
      label := hnode.label
      applied := hnode.applied
      commit := fun hF => ⟨(hnode.commit hF).1, (hnode.commit hF).2.mono le_rfl hf.toGrows⟩
      decided := fun hF k command hmem => (hnode.decided hF k command hmem).mono hf.toGrows
      matched := fun _ _ p _ => Or.inl (by simp [RaftNode.takeOffice])
      synced := fun _ _ p _ => Or.inl (by simp [RaftNode.takeOffice]) }
  · rcases eq_or_ne T (a.term i) with rfl | hne
    · refine Or.inr ⟨hi, ?_⟩
      have hwon := hwf.won hi (by rw [nodes_setNode_self]; rfl)
      rw [nodes_setNode_self] at hwon
      exact hnode.term ▸ hwon
    · exact Or.inl (by simpa [hne] using hw)
  · rintro u T k (hold | ⟨rfl, rfl, -⟩)
    · exact Or.inl ⟨k, hold⟩
    · exact Or.inr (Or.inl (by simp))

theorem Refines.becomeLeader (h : Refines F S c a) (hmay : Admits F may) (hi : i ∈ S.members)
    (hrole : (c.nodes i).role = .candidate)
    (hmaj : (c.nodes i).majority ≤ (c.nodes i).votes.count) :
    Reaches F S may a (c.setNode i (c.nodes i).becomeLeader) (a.win i) := by
  have hoffice := h.takeOffice hmay hi hrole hmaj
  have hcast := hoffice.refines.broadcastAppend hmay hi (by rw [nodes_setNode_self]; rfl) ?_
  · have hcommit := hoffice.trans (hcast.trans (hcast.refines.advanceCommit hmay hi))
    simpa only [setNode_setNode, nodes_setNode_self, RaftNode.becomeLeader] using hcommit
  · -- a new leader assumes that its peers have all of its log, and sends no snapshot
    rintro - ⟨p, hp, hnext⟩
    exfalso
    rw [nodes_setNode_self] at hp hnext
    have hlast : (c.nodes i).takeOffice.progress.nextIndex p = (c.nodes i).log.lastIndex + 1 := by
      have hp' : p ∈ (c.nodes i).peers := hp
      simp [RaftNode.takeOffice, LeaderProgress.nextIndex, LeaderProgress.reset, hp']
    rw [hlast] at hnext
    have : (c.nodes i).log.lastIndex + 1 ≤ (c.nodes i).log.snapshotIndex := hnext
    unfold RaftLog.lastIndex at this
    omega

theorem Refines.becomeCandidate (h : Refines F S c a) (hmay : Admits F may)
    (hi : i ∈ S.members) :
    ∃ a', Reaches F S may a (c.setNode i (c.nodes i).becomeCandidate) a' := by
  have hstood := h.requestVotes hmay hi
  unfold RaftNode.becomeCandidate
  dsimp only
  split
  · next hmaj =>
    -- one vote is a majority only if there is nobody to ask
    rw [RaftNode.requestVotes, RaftNode.peers_eq_nil_of_majority hmaj] at hstood
    have hlead := hstood.refines.becomeLeader hmay hi
    simp only [setNode_setNode, nodes_setNode_self] at hlead
    exact ⟨_, hstood.trans (hlead rfl hmaj)⟩
  · exact ⟨_, hstood⟩

/-- The voter's check of the candidate's log is the abstract one. -/
theorem Follows.upToDate (h : Follows F S a i n) (hF : F.settled) {m : RequestVote}
    {l : List LogEntry} (hindex : m.lastLogIndex = l.length) (hterm : m.lastLogTerm = lastTerm l)
    (hup : n.candidateIsUpToDate m.lastLogIndex m.lastLogTerm = true) :
    UpToDate l (a.log i) := by
  unfold RaftNode.candidateIsUpToDate at hup
  rw [h.covers.lastTerm_eq (h.label hF), ← h.covers.length_eq, hindex, hterm] at hup
  simpa [UpToDate] using hup

theorem Refines.handleRequestVote (h : Refines F S c a) (hmay : Admits F may)
    {src dst : NodeId} {m : RequestVote} (hp : ⟨src, dst, .requestVote m⟩ ∈ c.sent)
    (hdst : dst ∈ S.members) (hterm : m.term ≤ (c.nodes dst).currentTerm)
    (hwf : WellFormed S True (c.setNode dst ((c.nodes dst).handleRequestVote m))) :
    ∃ a', Reaches F S may a (c.setNode dst ((c.nodes dst).handleRequestVote m)) a' := by
  have hnode := h.node dst hdst
  have hsrc := h.wf.sent_src _ hp
  have hcand : m.candidateId = src := (h.wf.addressed src hsrc _ (mem_emittedBy_of_sent hp)).2.2
  obtain ⟨l, hbid, hlast⟩ := h.tells src hsrc _ (mem_emittedBy_of_sent hp)
  unfold RaftNode.handleRequestVote at hwf ⊢
  dsimp only at hwf ⊢
  split at hwf
  · next hgrant =>
    have hchecks := hgrant
    simp only [RaftNode.grantsVote, Bool.and_eq_true, decide_eq_true_eq] at hchecks
    obtain ⟨⟨hle, -⟩, hup⟩ := hchecks
    have hcur : m.term = a.term dst := (le_antisymm hterm hle).trans hnode.term.symm
    rw [hcand, if_pos hgrant] at *
    refine ⟨a.grant dst src, h.setNode hmay (.single (.grant dst src l (hcur ▸ hbid) fun hF => ?_))
      (frame_grant dst dst src) hwf rfl ?_ ?_ (fun _ hw => Or.inl hw)
      fun _ _ k hk => Or.inl ⟨k, hk⟩⟩
    · exact hnode.upToDate hF (hlast hF).1 (hlast hF).2 hup
    · have hsame : Follows F S (a.grant dst src) dst (c.nodes dst) :=
        hnode.mono (frame_grant dst dst src).toGrows rfl rfl fun _ hw => hw
      exact { hsame with }
    · intro env henv
      obtain rfl := List.mem_singleton.mp henv
      exact fun _ => Or.inr ⟨rfl, hnode.term.symm, rfl⟩
  · next hgrant =>
    rw [if_neg hgrant]
    refine ⟨a, h.setNode_of_tells hmay hwf rfl { hnode with } fun env henv => ?_⟩
    obtain rfl := List.mem_singleton.mp henv
    exact fun hgranted => absurd hgranted hgrant

theorem Refines.handleRequestVoteReply (h : Refines F S c a) (hmay : Admits F may)
    {src dst : NodeId} {m : RequestVoteReply} (hp : ⟨src, dst, .requestVoteReply m⟩ ∈ c.sent)
    (hdst : dst ∈ S.members) :
    ∃ a', Reaches F S may a (c.setNode dst ((c.nodes dst).handleRequestVoteReply m)) a' := by
  unfold RaftNode.handleRequestVoteReply
  split
  · rw [setNode_nodes]
    exact ⟨a, .refl, h⟩
  · next hopen =>
    rw [not_or, not_not, not_not] at hopen
    obtain ⟨hrole, hterm⟩ := hopen
    split
    · next hgrant =>
      have hnode := h.node dst hdst
      have hsrc := h.wf.sent_src _ hp
      have hvoter : m.voterId = src := (h.wf.addressed src hsrc _ (mem_emittedBy_of_sent hp)).2.2
      have hvote : a.votes src m.term dst :=
        h.tells src hsrc _ (mem_emittedBy_of_sent hp) hgrant
      have hvoted : Voted c src (c.nodes dst).currentTerm dst := by
        refine ⟨_, mem_emittedBy_of_sent hp, ?_⟩
        simp [Envelope.ballot, hgrant, hterm]
      have hrec : Reaches F S may a (c.setNode dst
          { c.nodes dst with votes := (c.nodes dst).votes.record src }) a := by
        refine h.setNode_of_silent hmay (h.wf.recordVote hdst hsrc (by simp [hrole]) hvoted) rfl
          { hnode with ballots := fun hr u hu => ?_ }
        rcases Finset.mem_insert.mp hu with rfl | hold
        · exact hterm ▸ hvote
        · exact hnode.ballots hr u hold
      rw [← hvoter] at hrec
      dsimp only
      split
      · next hmaj =>
        have hlead := hrec.refines.becomeLeader hmay hdst
        simp only [setNode_setNode, nodes_setNode_self] at hlead
        exact ⟨_, hlead hrole hmaj⟩
      · exact ⟨a, hrec⟩
    · rw [setNode_nodes]
      exact ⟨a, .refl, h⟩

/-! ### Replication -/

/-- A leader appends an entry. -/
theorem Refines.append (h : Refines F S c a) (hmay : Admits F may) (hi : i ∈ S.members)
    (hrole : (c.nodes i).role = .leader) (command : List UInt8) :
    Reaches F S may a
      (c.setNode i
        { c.nodes i with log := (c.nodes i).log.append [(c.nodes i).newEntry command] })
      (a.append i ((c.nodes i).newEntry command)) := by
  have hnode := h.node i hi
  have hwin : a.winner (a.term i) = some i := by
    rw [hnode.term]
    exact hnode.leader hrole
  have hentry : Termed.term ((c.nodes i).newEntry command) = a.term i := hnode.term.symm
  have hf := frame_append h.consistent hwin ((c.nodes i).newEntry command)
  have hlog : (a.append i ((c.nodes i).newEntry command)).log i =
      a.log i ++ [(c.nodes i).newEntry command] := by simp
  refine h.setNode (o := []) hmay (.single (.append i _ hwin hentry)) hf
    (h.wf.setNode_of_silent hi rfl rfl rfl rfl rfl rfl rfl) (List.append_nil _).symm ?_
    (fun _ henv => by simp at henv) (fun _ hw => Or.inl hw) ?_
  · exact
    { term := hnode.term
      covers := by
        rw [hlog]
        exact (hnode.covers.append _).mono hf.branch
      leader := hnode.leader
      office := hnode.office
      candidate := fun hr => by
        rw [show (c.nodes i).role = .candidate from hr] at hrole
        cases hrole
      ballots := hnode.ballots
      label := fun hF => by
        rw [hlog]
        have hle := hnode.covers.snapshotIndex_le
        simpa [TrueLabel, RaftLog.append, List.take_append_of_le_length hle] using hnode.label hF
      applied := hnode.applied
      commit := fun hF => by
        obtain ⟨hle, hsettled⟩ := hnode.commit hF
        rw [hlog, List.length_append, List.take_append_of_le_length hle]
        exact ⟨hle.trans (Nat.le_add_right _ _), hsettled.mono le_rfl hf.toGrows⟩
      decided := fun hF k command hmem => (hnode.decided hF k command hmem).mono hf.toGrows
      matched := fun hF hr p hp =>
        (hnode.matched hF hr p hp).imp_right fun hk => hk.mono hf.toGrows
      synced := fun hF hr p hp => (hnode.synced hF hr p hp).imp_right fun hk =>
        hk.imp id fun hk => hk.mono hf.toGrows }
  · rintro u T k (hold | ⟨rfl, rfl, -⟩)
    · exact Or.inl ⟨k, hold⟩
    · exact Or.inr (Or.inl hwin)

theorem Refines.propose (h : Refines F S c a) (hmay : Admits F may) (hi : i ∈ S.members)
    (command : List UInt8)
    (hlabel : F.labels → LabelsSnapshots c (.propose i command)) :
    ∃ a', Reaches F S may a (c.setNode i ((c.nodes i).propose command).2) a' := by
  unfold RaftNode.propose
  split
  · rw [setNode_nodes]
    exact ⟨a, .refl, h⟩
  · next hrole =>
    rw [not_not] at hrole
    have happend := h.append hmay hi hrole command
    have hcast := happend.refines.broadcastAppend hmay hi (by rwa [nodes_setNode_self]) ?_
    · have hcommit := happend.trans (hcast.trans (hcast.refines.advanceCommit hmay hi))
      simp only [setNode_setNode, nodes_setNode_self] at hcommit
      exact ⟨_, hcommit⟩
    · rw [nodes_setNode_self]
      intro hL hnext
      -- the new entry is the last one, of the leader's term
      have hlast : ((c.nodes i).log.append [(c.nodes i).newEntry command]).lastTerm =
          (c.nodes i).currentTerm := by
        simp [RaftLog.lastTerm, RaftLog.append, RaftNode.newEntry]
      exact hlast.trans (hlabel hL hrole hnext)

end Cluster

end Ferrium
