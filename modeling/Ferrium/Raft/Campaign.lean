import Ferrium.Raft.Overflow
import Ferrium.Raft.Reference
import Mathlib.Data.List.Find

/-!
# A campaign for votes

What a node does with the messages of an election, when it gets them one after the other: requests
of several candidates of one term, and the replies to its own request. A node that is free votes for
the first candidate whose log is up to date, and refuses all others. A candidate becomes leader with
the reply that completes a majority, and takes no notice of further ones.

## Main results

* `receiveAll_requests_of_newer`: the requests, for a node of an older term;
* `receiveAll_requests_of_voted`: the requests, for a node that has voted already;
* `receiveAll_replies`: the replies, for a candidate.
-/

namespace Ferrium

open RaftLog

theorem RaftLog.lastTerm_compact (log : RaftLog) (i : ℕ) :
    (log.compact i).lastTerm = log.lastTerm := by
  have hend : (log.compact i).termAt (log.compact i).lastIndex = log.termAt log.lastIndex := by
    have hsnap : (log.compact i).snapshotIndex ≤ (log.compact i).lastIndex := Nat.le_add_right _ _
    rw [termAt_compact hsnap, lastIndex_compact]
  rw [termAt_lastIndex, termAt_lastIndex] at hend
  exact Option.some.inj hend

namespace RaftNode

variable {n n' n'' : RaftNode} {T : ℕ}

/-- The node after it has received messages, one after the other. -/
def receiveAll (self : RaftNode) (messages : List (NodeId × Message)) : RaftNode :=
  messages.foldl (fun node m => node.step m.1 m.2) self

@[simp]
theorem receiveAll_nil (n : RaftNode) : n.receiveAll [] = n := rfl

@[simp]
theorem receiveAll_cons (n : RaftNode) (m : NodeId × Message) (ms : List (NodeId × Message)) :
    n.receiveAll (m :: ms) = (n.step m.1 m.2).receiveAll ms := rfl

theorem receiveAll_append (n : RaftNode) (ms ms' : List (NodeId × Message)) :
    n.receiveAll (ms ++ ms') = (n.receiveAll ms).receiveAll ms' :=
  List.foldl_append

/-- The request for votes that a candidate sends to its peers. -/
def voteRequest (n : RaftNode) : RequestVote where
  term := n.currentTerm
  candidateId := n.id
  lastLogIndex := n.log.lastIndex
  lastLogTerm := n.log.lastTerm

/-- The reply to a request for votes in the term of the node. -/
def voteReply (n : RaftNode) (voteGranted : Bool) : Message :=
  .requestVoteReply { term := n.currentTerm, voterId := n.id, voteGranted }

/-! ### What draining leaves -/

@[simp]
theorem id_takeReady (n : RaftNode) : n.takeReady.id = n.id := by
  rw [takeReady_eq]

@[simp]
theorem peers_takeReady (n : RaftNode) : n.takeReady.peers = n.peers := by
  rw [takeReady_eq]

@[simp]
theorem config_takeReady (n : RaftNode) : n.takeReady.config = n.config := by
  rw [takeReady_eq]

@[simp]
theorem role_takeReady (n : RaftNode) : n.takeReady.role = n.role := by
  rw [takeReady_eq]

@[simp]
theorem currentTerm_takeReady (n : RaftNode) : n.takeReady.currentTerm = n.currentTerm := by
  rw [takeReady_eq]

@[simp]
theorem votedFor_takeReady (n : RaftNode) : n.takeReady.votedFor = n.votedFor := by
  rw [takeReady_eq]

@[simp]
theorem commitIndex_takeReady (n : RaftNode) : n.takeReady.commitIndex = n.commitIndex := by
  rw [takeReady_eq]

@[simp]
theorem progress_takeReady (n : RaftNode) : n.takeReady.progress = n.progress := by
  rw [takeReady_eq]

@[simp]
theorem votes_takeReady (n : RaftNode) : n.takeReady.votes = n.votes := by
  rw [takeReady_eq]

@[simp]
theorem electionElapsed_takeReady (n : RaftNode) :
    n.takeReady.electionElapsed = n.electionElapsed := by
  rw [takeReady_eq]

@[simp]
theorem electionTimeout_takeReady (n : RaftNode) :
    n.takeReady.electionTimeout = n.electionTimeout := by
  rw [takeReady_eq]

@[simp]
theorem outgoing_takeReady (n : RaftNode) : n.takeReady.outgoing = [] := by
  rw [takeReady_eq]

@[simp]
theorem committed_takeReady (n : RaftNode) : n.takeReady.committed = [] := by
  rw [takeReady_eq]

@[simp]
theorem log_takeReady (n : RaftNode) : n.takeReady.log = n.appliedLog := by
  rw [takeReady_eq]

@[simp]
theorem lastApplied_takeReady (n : RaftNode) : n.takeReady.lastApplied = n.appliedIndex := by
  rw [takeReady_eq]

/-! ### Timeouts -/

theorem tick_of_not_due (hrole : n.role ≠ .leader) (h : n.electionElapsed + 1 < n.electionTimeout) :
    n.tick = { n with electionElapsed := n.electionElapsed + 1 } := by
  rw [tick_of_ne_leader hrole, if_neg (not_le.mpr h)]

/-- A node with peers whose timeout has come is a candidate with its own vote. -/
theorem tick_of_due (hrole : n.role ≠ .leader) (hpeers : n.peers ≠ [])
    (h : n.electionTimeout ≤ n.electionElapsed + 1) :
    n.tick = { n.standForElection with
      outgoing := n.outgoing ++
        n.peers.map fun peer => ⟨peer, .requestVote n.standForElection.voteRequest⟩ } := by
  have halone : ¬n.standForElection.majority ≤ n.standForElection.votes.count := fun hmajority =>
    hpeers (peers_eq_nil_of_majority hmajority)
  have hcandidate : { n with electionElapsed := n.electionElapsed + 1 }.becomeCandidate =
      n.standForElection.requestVotes := if_neg halone
  rw [tick_of_ne_leader hrole, if_pos h, hcandidate, requestVotes_eq]
  rfl

/-- A timeout that is drawn is not below the minimum. -/
theorem electionTimeoutMin_le_resetElectionTimer (n : RaftNode) :
    n.config.electionTimeoutMin ≤ n.resetElectionTimer.electionTimeout :=
  Nat.le_add_right _ _

/-! ### Requests -/

/-- A message of a newer term makes the node a follower before anything else. -/
theorem step_of_newer {message : Message} (sender : NodeId) (h : n.currentTerm < message.term) :
    n.step sender message = (n.becomeFollower message.term none).step sender message := by
  have hsame : (n.becomeFollower message.term none).observeTerm message.term =
      n.becomeFollower message.term none := if_neg (lt_irrefl _)
  rw [step, step, observeTerm, if_pos h, hsame]

/-- A node that has voted for somebody else refuses. -/
theorem step_requestVote_of_voted {m : RequestVote} {w : NodeId} (sender : NodeId)
    (hterm : n.currentTerm = m.term) (hvoted : n.votedFor = some w) (hne : w ≠ m.candidateId) :
    n.step sender (.requestVote m) = n.send m.candidateId (n.voteReply false) := by
  have hrefused : n.grantsVote m = false := by
    simp [grantsVote, hvoted, hne]
  rw [step_eq_handle sender (show Message.term (.requestVote m) ≤ n.currentTerm from hterm.ge),
    handle, handleRequestVote, hrefused]
  rfl

/-- A node that has not voted yet votes for a candidate whose log is up to date. -/
theorem step_requestVote_of_free {m : RequestVote} (sender : NodeId)
    (hterm : n.currentTerm = m.term) (hfree : n.votedFor = none) :
    n.step sender (.requestVote m) =
      if n.candidateIsUpToDate m.lastLogIndex m.lastLogTerm then
        { n with votedFor := some m.candidateId }.resetElectionTimer.send m.candidateId
          (n.voteReply true)
      else n.send m.candidateId (n.voteReply false) := by
  have hgrants : n.grantsVote m = n.candidateIsUpToDate m.lastLogIndex m.lastLogTerm := by
    simp [grantsVote, hfree, hterm]
  rw [step_eq_handle sender (show Message.term (.requestVote m) ≤ n.currentTerm from hterm.ge),
    handle, handleRequestVote, hgrants]
  split
  · next hyes => rw [hyes]; rfl
  · next hno => rw [Bool.eq_false_iff.mpr hno]; rfl

variable {request : NodeId → RequestVote} {cs : List NodeId}

/-- The requests of candidates, one after the other. -/
def requests (request : NodeId → RequestVote) (cs : List NodeId) : List (NodeId × Message) :=
  cs.map fun c => (c, .requestVote (request c))

/-- The candidate is up to date in the eyes of the node. -/
def approves (n : RaftNode) (request : NodeId → RequestVote) (c : NodeId) : Bool :=
  n.candidateIsUpToDate (request c).lastLogIndex (request c).lastLogTerm

/-- Who has voted for none of the candidates but for somebody else refuses all of them. -/
theorem receiveAll_requests_of_voted {w : NodeId}
    (hterm : ∀ c ∈ cs, (request c).term = n.currentTerm)
    (hname : ∀ c ∈ cs, (request c).candidateId = c) (hvoted : n.votedFor = some w) (hw : w ∉ cs) :
    n.receiveAll (requests request cs) =
      { n with outgoing := n.outgoing ++ cs.map fun c => ⟨c, n.voteReply false⟩ } := by
  induction cs generalizing n with
  | nil => rw [requests, List.map_nil, List.map_nil, List.append_nil]; rfl
  | cons c cs ih =>
    have hne : w ≠ (request c).candidateId := by
      rw [hname c List.mem_cons_self]
      exact fun heq => hw (heq ▸ List.mem_cons_self)
    have hfirst := step_requestVote_of_voted c (hterm c List.mem_cons_self).symm hvoted hne
    rw [hname c List.mem_cons_self] at hfirst
    rw [requests, List.map_cons, receiveAll_cons, hfirst]
    refine (ih (n := n.send c (n.voteReply false))
      (fun c' hc' => hterm c' (List.mem_cons_of_mem c hc'))
      (fun c' hc' => hname c' (List.mem_cons_of_mem c hc')) hvoted
      fun hmem => hw (List.mem_cons_of_mem c hmem)).trans ?_
    simp only [send, List.map_cons, List.append_assoc, List.cons_append, List.nil_append]
    rfl

/-- Who is free votes for the first candidate that it approves of. -/
theorem receiveAll_requests_of_free (hcs : cs.Nodup)
    (hterm : ∀ c ∈ cs, (request c).term = n.currentTerm)
    (hname : ∀ c ∈ cs, (request c).candidateId = c) (hfree : n.votedFor = none)
    (helapsed : n.electionElapsed = 0)
    (htimeout : n.config.electionTimeoutMin ≤ n.electionTimeout) :
    ∃ rng timeout, n.config.electionTimeoutMin ≤ timeout ∧
      n.receiveAll (requests request cs) =
        { n with
          rng
          electionElapsed := 0
          electionTimeout := timeout
          votedFor := cs.find? (n.approves request)
          outgoing := n.outgoing ++
            cs.map fun c => ⟨c, n.voteReply (cs.find? (n.approves request) = some c)⟩ } := by
  induction cs generalizing n with
  | nil =>
    refine ⟨n.rng, n.electionTimeout, htimeout, ?_⟩
    rw [List.find?_nil, List.map_nil, List.append_nil, ← hfree, ← helapsed]
    rfl
  | cons c cs ih =>
    obtain ⟨hc, hcs⟩ := List.nodup_cons.mp hcs
    have hterm' := fun c' hc' => hterm c' (List.mem_cons_of_mem c hc')
    have hname' := fun c' hc' => hname c' (List.mem_cons_of_mem c hc')
    have hfirst := step_requestVote_of_free c (hterm c List.mem_cons_self).symm hfree
    rw [hname c List.mem_cons_self] at hfirst
    change _ = if n.approves request c = true then _ else _ at hfirst
    by_cases happroves : n.approves request c = true
    · -- the others come too late
      have hchoice : (c :: cs).find? (n.approves request) = some c :=
        List.find?_cons_of_pos happroves
      have hothers : cs.map (fun c' => (⟨c', n.voteReply (some c = some c')⟩ : Envelope)) =
          cs.map fun c' => ⟨c', n.voteReply false⟩ := by
        refine List.map_congr_left fun c' hc' => ?_
        have hne : c ≠ c' := fun heq => hc (heq ▸ hc')
        simp [hne]
      rw [hchoice]
      refine ⟨n.resetElectionTimer.rng, _, electionTimeoutMin_le_resetElectionTimer n, ?_⟩
      rw [requests, List.map_cons, receiveAll_cons, hfirst, if_pos happroves]
      refine (receiveAll_requests_of_voted
        (n := { n with votedFor := some c }.resetElectionTimer.send c (n.voteReply true))
        hterm' hname' rfl hc).trans ?_
      rw [List.map_cons, hothers]
      simp only [send, resetElectionTimer, List.append_assoc, List.cons_append, List.nil_append,
        decide_true]
      rfl
    · have hchoice : (c :: cs).find? (n.approves request) = cs.find? (n.approves request) :=
        List.find?_cons_of_neg happroves
      have hrefused : decide (cs.find? (n.approves request) = some c) = false :=
        decide_eq_false fun heq => hc (List.mem_of_find?_eq_some heq)
      obtain ⟨rng, timeout, hmin, heq⟩ := ih (n := n.send c (n.voteReply false)) hcs hterm' hname'
        hfree helapsed htimeout
      refine ⟨rng, timeout, hmin, ?_⟩
      rw [requests, List.map_cons, receiveAll_cons, hfirst, if_neg happroves]
      refine heq.trans ?_
      rw [hchoice, List.map_cons, hrefused]
      simp only [send, List.append_assoc, List.cons_append, List.nil_append]
      rfl

/-- **The requests of one newer term**: the node follows the term, and votes for the first candidate
that it approves of. -/
theorem receiveAll_requests_of_newer (hcs : cs.Nodup) (hne : cs ≠ [])
    (hterm : ∀ c ∈ cs, (request c).term = T) (hname : ∀ c ∈ cs, (request c).candidateId = c)
    (hnewer : n.currentTerm < T) :
    ∃ rng timeout, n.config.electionTimeoutMin ≤ timeout ∧
      n.receiveAll (requests request cs) =
        { n with
          currentTerm := T
          role := .follower
          leaderId := none
          rng
          electionElapsed := 0
          electionTimeout := timeout
          votedFor := cs.find? (n.approves request)
          outgoing := n.outgoing ++ cs.map fun c => ⟨c, .requestVoteReply
            { term := T
              voterId := n.id
              voteGranted := cs.find? (n.approves request) = some c }⟩ } := by
  have hfollower : n.receiveAll (requests request cs) =
      (n.becomeFollower T none).receiveAll (requests request cs) := by
    obtain ⟨c, cs, rfl⟩ := List.exists_cons_of_ne_nil hne
    have hfirst : (request c).term = T := hterm c List.mem_cons_self
    have hnewer' : n.currentTerm < Message.term (.requestVote (request c)) :=
      hnewer.trans_eq hfirst.symm
    rw [requests, List.map_cons, receiveAll_cons, receiveAll_cons, step_of_newer c hnewer']
    rw [show Message.term (.requestVote (request c)) = T from hfirst]
  rw [hfollower]
  exact receiveAll_requests_of_free (n := n.becomeFollower T none) hcs hterm hname rfl rfl
    (electionTimeoutMin_le_resetElectionTimer n)

/-! ### Replies -/

/-- Nothing more is committed than the peers are known to have. -/
theorem commitFrom_le_of_matchIndex_le {b : ℕ} (hpeers : n.peers ≠ []) (hb : n.commitIndex ≤ b)
    (hmatch : ∀ peer ∈ n.peers, n.progress.matchIndex peer ≤ b) (k : ℕ) : n.commitFrom k ≤ b := by
  rcases n.commitFrom_cases k with heq | ⟨-, -, -, hmajority⟩
  · exact heq.le.trans hb
  · by_contra hlt
    have hnobody : n.peers.filter (fun peer => n.commitFrom k ≤ n.progress.matchIndex peer) = [] :=
      List.filter_eq_nil_iff.mpr fun peer hpeer hle =>
        hlt ((of_decide_eq_true hle).trans (hmatch peer hpeer))
    have hpos : 0 < n.peers.length := List.length_pos_of_ne_nil hpeers
    rw [replicas_eq, hnobody, List.length_nil, majority, clusterSize] at hmajority
    omega

/-- A new leader with peers sends its first messages, and commits nothing by that. -/
theorem becomeLeader_eq (hpeers : n.peers ≠ []) :
    n.becomeLeader = { n.takeOffice with
      outgoing := n.outgoing ++ n.peers.map fun peer => ⟨peer, n.takeOffice.appendFor peer⟩ } := by
  let office : RaftNode := { n.takeOffice with
    outgoing := n.outgoing ++ n.peers.map fun peer => ⟨peer, n.takeOffice.appendFor peer⟩ }
  have hcommit : office.commitFrom n.log.lastIndex = n.commitIndex := by
    refine le_antisymm (commitFrom_le_of_matchIndex_le (n := office) hpeers le_rfl ?_ _)
      (commitIndex_le_commitFrom office _)
    intro peer _
    exact (LeaderProgress.matchIndex_reset n.peers n.log.lastIndex peer).le.trans (Nat.zero_le _)
  have hoffice : n.takeOffice.broadcastAppend = office := broadcastAppend_eq _
  rw [becomeLeader, hoffice, advanceCommit_eq]
  show { office with commitIndex := office.commitFrom n.log.lastIndex } = office
  rw [hcommit]
  rfl

/-- Who is not a candidate takes no notice of replies. -/
theorem step_requestVoteReply_of_ne_candidate {m : RequestVoteReply} (sender : NodeId)
    (hrole : n.role ≠ .candidate) (hterm : m.term ≤ n.currentTerm) :
    n.step sender (.requestVoteReply m) = n := by
  rw [step_eq_handle sender (show Message.term (.requestVoteReply m) ≤ n.currentTerm from hterm),
    handle, handleRequestVoteReply, if_pos (Or.inl hrole)]

/-- Replies of the term `T`, one after the other. -/
def replies (T : ℕ) (rs : List (NodeId × Bool)) : List (NodeId × Message) :=
  rs.map fun r => (r.1, .requestVoteReply { term := T, voterId := r.1, voteGranted := r.2 })

/-- The votes that replies are added to. -/
def tally (votes : VoteTally) (rs : List (NodeId × Bool)) : VoteTally :=
  rs.foldl (fun votes r => if r.2 then votes.record r.1 else votes) votes

theorem granted_tally (votes : VoteTally) (rs : List (NodeId × Bool)) :
    (tally votes rs).granted = votes.granted ∪ ((rs.filter (·.2)).map Prod.fst).toFinset := by
  induction rs generalizing votes with
  | nil => simp [tally]
  | cons r rs ih =>
    obtain ⟨voter, granted⟩ := r
    cases granted with
    | false => exact (ih votes).trans (by simp)
    | true =>
      refine (ih (votes.record voter)).trans ?_
      simp [VoteTally.record, Finset.insert_union, Finset.union_insert]

theorem count_le_tally (votes : VoteTally) (rs : List (NodeId × Bool)) :
    votes.count ≤ (tally votes rs).count := by
  unfold VoteTally.count
  rw [granted_tally]
  exact Finset.card_le_card Finset.subset_union_left

theorem receiveAll_replies_of_ne_candidate (rs : List (NodeId × Bool))
    (hrole : n.role ≠ .candidate) (hterm : n.currentTerm = T) :
    n.receiveAll (replies T rs) = n := by
  induction rs with
  | nil => rfl
  | cons r rs ih =>
    rw [replies, List.map_cons, receiveAll_cons,
      step_requestVoteReply_of_ne_candidate r.1 hrole hterm.ge]
    exact ih

/-- **The replies to a candidate**: it becomes leader if and only if they complete a majority. -/
theorem receiveAll_replies (rs : List (NodeId × Bool)) (hrole : n.role = .candidate)
    (hterm : n.currentTerm = T) (hopen : n.votes.count < n.majority) :
    ((tally n.votes rs).count < n.majority →
        n.receiveAll (replies T rs) = { n with votes := tally n.votes rs }) ∧
      (n.majority ≤ (tally n.votes rs).count →
        ∃ votes, n.receiveAll (replies T rs) = { n with votes }.becomeLeader) := by
  induction rs generalizing n with
  | nil => exact ⟨fun _ => rfl, fun hmajority => absurd hmajority (not_le.mpr hopen)⟩
  | cons r rs ih =>
    obtain ⟨voter, granted⟩ := r
    have hmine : ¬(n.role ≠ .candidate ∨ T ≠ n.currentTerm) := by
      simp [hrole, hterm]
    have hold : Message.term (.requestVoteReply ⟨T, voter, granted⟩) ≤ n.currentTerm := hterm.ge
    rw [replies, List.map_cons, receiveAll_cons, step_eq_handle voter hold, handle,
      handleRequestVoteReply, if_neg hmine]
    cases granted with
    | false => exact ih hrole hterm hopen
    | true =>
      rw [if_pos rfl]
      dsimp only
      split
      · next hmajority =>
        -- the rest of the replies find a leader
        have hleader : { n with votes := n.votes.record voter }.becomeLeader.role ≠ .candidate := by
          rw [becomeLeader, advanceCommit_eq, broadcastAppend_eq]
          exact (by decide : Role.leader ≠ .candidate)
        have hrest := receiveAll_replies_of_ne_candidate (T := T) rs hleader
          ((currentTerm_becomeLeader _).trans hterm)
        refine ⟨fun hfew => absurd (hmajority.trans ?_) (not_le.mpr hfew), fun _ => ⟨_, hrest⟩⟩
        exact count_le_tally _ rs
      · next hmajority =>
        exact ih (n := { n with votes := n.votes.record voter }) hrole hterm (not_le.mp hmajority)

/-! ### What an election leaves alone -/

theorem lastTerm_appliedLog (n : RaftNode) : n.appliedLog.lastTerm = n.log.lastTerm := by
  rcases n.appliedLog_cases with heq | heq
  · rw [heq]
  · rw [heq, lastTerm_compact]

/-- Applying and compacting do not change whom a node finds up to date. -/
theorem candidateIsUpToDate_takeReady (n : RaftNode) (lastIndex lastTerm : ℕ) :
    n.takeReady.candidateIsUpToDate lastIndex lastTerm =
      n.candidateIsUpToDate lastIndex lastTerm := by
  rw [takeReady_eq, candidateIsUpToDate, candidateIsUpToDate]
  simp only [lastTerm_appliedLog, lastIndex_appliedLog]

/-- The configuration of a node never changes. -/
theorem config_input (n : RaftNode) (e : Input) : (n.input e).config = n.config := by
  cases e with
  | tick =>
    rcases n.tick_cases with ⟨-, heq⟩ | ⟨-, -, heq⟩ | ⟨-, heq⟩ | ⟨-, heq⟩ <;> rw [input, heq]
    · rw [broadcastAppend_eq]
    · exact (U64.keepsTimers_becomeCandidate n _).config
  | propose command => exact (U64.keepsTimers_propose n command).config
  | takeReady => exact (U64.keepsTimers_takeReady n).config
  | step sender message =>
    exact ((U64.keepsTimers_observeTerm n message.term).trans
      (U64.keepsTimers_handle _ sender message)).config

/-- What a node is created with stays. -/
structure Stays (n n' : RaftNode) : Prop extends SameIdentity n n' where
  config_eq : n'.config = n.config

theorem Stays.trans (h : Stays n n') (h' : Stays n' n'') : Stays n n'' where
  id_eq := h'.id_eq.trans h.id_eq
  peers_eq := h'.peers_eq.trans h.peers_eq
  config_eq := h'.config_eq.trans h.config_eq

theorem stays_input (n : RaftNode) (e : Input) : Stays n (n.input e) where
  toSameIdentity := (electionStep_input n e).sameIdentity
  config_eq := config_input n e

theorem stays_tick (n : RaftNode) : Stays n n.tick :=
  stays_input n .tick

theorem stays_receiveAll (n : RaftNode) (messages : List (NodeId × Message)) :
    Stays n (n.receiveAll messages) := by
  induction messages generalizing n with
  | nil => exact ⟨⟨rfl, rfl⟩, rfl⟩
  | cons m messages ih => exact (stays_input n (.step m.1 m.2)).trans (ih _)

/-- The log and what has been done with it are the same. -/
structure SameLog (n n' : RaftNode) : Prop where
  log : n'.log = n.log
  commitIndex : n'.commitIndex = n.commitIndex
  lastApplied : n'.lastApplied = n.lastApplied
  committed : n'.committed = n.committed

namespace SameLog

theorem trans (h : SameLog n n') (h' : SameLog n' n'') : SameLog n n'' where
  log := h'.log.trans h.log
  commitIndex := h'.commitIndex.trans h.commitIndex
  lastApplied := h'.lastApplied.trans h.lastApplied
  committed := h'.committed.trans h.committed

theorem ready (h : SameLog n n') : n'.ready.committed = n.ready.committed := by
  have hat : n'.appliedAt = n.appliedAt := by
    funext index
    unfold appliedAt
    rw [h.log]
  rw [committed_ready, committed_ready, newlyApplied, newlyApplied, hat, h.committed, h.lastApplied,
    h.commitIndex]

theorem takeReady (h : SameLog n n') (hconfig : n'.config = n.config) :
    SameLog n.takeReady n'.takeReady := by
  have hindex : n'.appliedIndex = n.appliedIndex := by
    rw [appliedIndex, appliedIndex, h.lastApplied, h.commitIndex]
  have hlog : n'.appliedLog = n.appliedLog := by
    rw [appliedLog, appliedLog, hindex, h.log, hconfig]
  rw [takeReady_eq, takeReady_eq]
  exact ⟨hlog, h.commitIndex, hindex, rfl⟩

theorem of_tick (hrole : n.role ≠ .leader) (hpeers : n.peers ≠ []) : SameLog n n.tick := by
  rcases Nat.lt_or_ge (n.electionElapsed + 1) n.electionTimeout with hlater | hdue
  · rw [tick_of_not_due hrole hlater]
    exact ⟨rfl, rfl, rfl, rfl⟩
  · rw [tick_of_due hrole hpeers hdue]
    exact ⟨rfl, rfl, rfl, rfl⟩

theorem of_becomeLeader (hpeers : n.peers ≠ []) : SameLog n n.becomeLeader := by
  rw [becomeLeader_eq hpeers]
  exact ⟨rfl, rfl, rfl, rfl⟩

end SameLog

end RaftNode

end Ferrium
