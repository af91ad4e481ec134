import Ferrium.Raft.Campaign
import Ferrium.Raft.CatchUp
import Ferrium.Raft.Commit

/-!
# Streaming a log to a follower

A leader sends its log `F` to a follower that has a part of it already, in messages that all start
at the same position and reach different ends. The follower takes them in one after the other, and
answers each of them with the end of its log; the leader records the answers.

## Main results

* `RaftLog.RestOf.splice`: splicing a window of the complete log into a log that is a part of it;
* `RaftNode.streamed_receiveAll`: a follower that takes in such messages;
* `RaftNode.receiveAll_acks`: a leader that takes in the answers.
-/

namespace Ferrium

open Branch

namespace RaftLog

variable {F : List LogEntry} {log : RaftLog} {i k prev : ℕ}

/-- `log` is what is left of the complete log `F`. -/
structure RestOf (F : List LogEntry) (log : RaftLog) : Prop where
  length_eq : F.length = log.lastIndex
  entries_eq : log.entries = F.drop log.snapshotIndex
  label : TrueLabel F log

theorem onBranch_of_isPrefix {l : List LogEntry} (h : l <+: F) : OnBranch (fun _ => F) l :=
  fun _ _ hp => hp.trans h

namespace RestOf

theorem covers (h : RestOf F log) : Covers (fun _ => F) F log :=
  ⟨h.length_eq, h.entries_eq, List.take_prefix _ _⟩

theorem covers_take (h : RestOf (F.take k) log) : Covers (fun _ => F) (F.take k) log :=
  ⟨h.length_eq, h.entries_eq, (List.take_prefix _ _).trans (List.take_prefix _ _)⟩

theorem compact (h : RestOf F log) (i : ℕ) : RestOf F (log.compact i) where
  length_eq := h.length_eq.trans (lastIndex_compact log i).symm
  entries_eq := (h.covers.compact (onBranch_of_isPrefix List.prefix_rfl) i).entries_eq
  label := h.covers.trueLabel_compact h.label i

theorem append (h : RestOf F log) (es : List LogEntry) : RestOf (F ++ es) (log.append es) where
  length_eq := (h.covers.append es).length_eq
  entries_eq := (h.covers.append es).entries_eq
  label := by
    show log.snapshotTerm = Branch.lastTerm ((F ++ es).take log.snapshotIndex)
    rw [List.take_append_of_le_length h.covers.snapshotIndex_le]
    exact h.label

theorem termAt_eq (h : RestOf F log) (hsnap : log.snapshotIndex ≤ i) (hi : i ≤ F.length) :
    log.termAt i = some (Branch.lastTerm (F.take i)) :=
  h.covers.termAt_eq_lastTerm h.label hsnap hi

theorem matches_eq (h : RestOf F log) (hsnap : log.snapshotIndex ≤ i) (hi : i ≤ F.length) :
    log.matches i (Branch.lastTerm (F.take i)) = true := by
  unfold «matches»
  rw [h.termAt_eq hsnap hi]
  exact beq_self_eq_true _

/-- **Splicing a window of the complete log** into a log that is a part of it extends it to the end
of the window. -/
theorem splice {es : List LogEntry} (h : RestOf (F.take k) log) (hk : k ≤ F.length)
    (hsnap : log.snapshotIndex ≤ prev) (hprev : prev ≤ k) (hes : es <+: F.drop prev) :
    RestOf (F.take (max k (prev + es.length))) (log.splice prev es) := by
  have hlen : (F.take k).length = k := List.length_take_of_le hk
  have htake : (F.take k).take prev = F.take prev := by rw [List.take_take, min_eq_left hprev]
  have hwindow : F.take prev ++ es = F.take (prev + es.length) := by
    rw [List.take_add, ← List.prefix_iff_eq_take.mp hes]
  have hend : prev + es.length ≤ F.length := by
    have := hes.length_le
    rw [List.length_drop] at this
    omega
  obtain ⟨l, hcov, hwin, hkept, hlabel, hcases⟩ := h.covers_take.splice
    (onBranch_of_isPrefix (List.take_prefix k F)) (onBranch_of_isPrefix List.prefix_rfl)
    (hlen.symm ▸ hprev) htake (hwindow ▸ List.take_prefix _ _) (Or.inl hsnap)
  have hl : l = F.take (max k (prev + es.length)) := by
    rw [hwindow] at hwin
    rcases hcases with ⟨-, rfl⟩ | ⟨-, rfl⟩
    · have hle := hwin.length_le
      rw [hlen, List.length_take_of_le hend] at hle
      rw [max_eq_left hle]
    · have hle := (hkept _ List.prefix_rfl (List.take_prefix k F)).length_le
      rw [hlen, hwindow, List.length_take_of_le hend] at hle
      rw [max_eq_right hle, hwindow]
  subst hl
  exact ⟨hcov.length_eq, hcov.entries_eq, hlabel h.label⟩

end RestOf

end RaftLog

namespace RaftNode

open RaftLog

variable {n n' : RaftNode} {F : List LogEntry} {T prev k k' : ℕ} {i j : NodeId}

/-! ### The follower -/

/-- The message has a window of the log `F` of the leader `i`, from `prev` on. -/
structure Carries (F : List LogEntry) (T : ℕ) (i : NodeId) (prev : ℕ) (m : AppendEntries) :
    Prop where
  term : m.term = T
  leaderId : m.leaderId = i
  prevLogIndex : m.prevLogIndex = prev
  prevLogTerm : m.prevLogTerm = Branch.lastTerm (F.take prev)
  entries : m.entries <+: F.drop prev

theorem Carries.end_le {m : AppendEntries} (h : Carries F T i prev m) (hprev : prev ≤ F.length) :
    prev + m.entries.length ≤ F.length := by
  have hle := h.entries.length_le
  rw [List.length_drop] at hle
  omega

/-- A leader whose log grows has sent windows of its new log, too. -/
theorem Carries.append {m : AppendEntries} (h : Carries F T i prev m) (hprev : prev ≤ F.length)
    (es : List LogEntry) : Carries (F ++ es) T i prev m where
  term := h.term
  leaderId := h.leaderId
  prevLogIndex := h.prevLogIndex
  prevLogTerm := by rw [List.take_append_of_le_length hprev, h.prevLogTerm]
  entries := by
    rw [List.drop_append_of_le_length hprev]
    exact List.prefix_append_of_prefix h.entries

/-- The answer of node `j` to the leader: its log goes up to `index`. -/
def ack (T : ℕ) (j : NodeId) (index : ℕ) : Message :=
  .appendEntriesReply
    { term := T, followerId := j, success := true, matchIndex := index, conflictIndex := 0 }

/-- What taking in messages with windows of `F` from `prev` on makes of a follower whose log goes
up to `k`: afterwards it goes up to `k'`. -/
structure Streamed (F : List LogEntry) (T : ℕ) (i : NodeId) (prev : ℕ) (n : RaftNode) (k : ℕ)
    (ms : List AppendEntries) (n' : RaftNode) (k' : ℕ) : Prop extends Stays n n' where
  term : n'.currentTerm = T
  log : RestOf (F.take k') n'.log
  snapshotIndex : n'.log.snapshotIndex = n.log.snapshotIndex
  lastApplied : n'.lastApplied = n.lastApplied
  committed : n'.committed = n.committed
  le_end : k ≤ k'
  end_le : k' ≤ F.length
  reaches : ∀ m ∈ ms, prev + m.entries.length ≤ k'
  follows : n'.role = .follower ∧ n'.electionElapsed = 0 ∧
      n.config.electionTimeoutMin ≤ n'.electionTimeout ∨
    ms = [] ∧ n'.role = n.role ∧ n'.electionElapsed = n.electionElapsed ∧
      n'.electionTimeout = n.electionTimeout
  commit_le : n.commitIndex ≤ n'.commitIndex
  le_commit : ∀ m ∈ ms, m.leaderCommit ≤ n'.commitIndex
  commit_bound : ∀ b, n.commitIndex ≤ b → (∀ m ∈ ms, m.leaderCommit ≤ b) → n'.commitIndex ≤ b
  answers : ∃ rs : List ℕ, n'.outgoing = n.outgoing ++ rs.map (fun r => ⟨i, ack T n.id r⟩) ∧
    rs.length = ms.length ∧ (∀ r ∈ rs, r ≤ k') ∧ (rs = [] ∧ k' = k ∨ rs.getLast? = some k')

/-- One message. -/
theorem streamed_step {m : AppendEntries} (sender : NodeId) (hm : Carries F T i prev m)
    (hterm : n.currentTerm = T) (hlog : RestOf (F.take k) n.log) (hk : k ≤ F.length)
    (hsnap : n.log.snapshotIndex ≤ prev) (hprev : prev ≤ k) (hcommit : m.leaderCommit ≤ prev) :
    Streamed F T i prev n k [m] (n.step sender (.appendEntries m))
      (max k (prev + m.entries.length)) := by
  have hlen : (F.take k).length = k := List.length_take_of_le hk
  have hend : prev + m.entries.length ≤ F.length := hm.end_le (hprev.trans hk)
  have hacc : n.Accepts (.appendEntries m) := by
    refine ⟨(hterm.trans hm.term.symm).le, ?_⟩
    have hmatch := hlog.matches_eq hsnap (hprev.trans hlen.ge)
    rwa [List.take_take, min_eq_left hprev, ← hm.prevLogTerm, ← hm.prevLogIndex] at hmatch
  have hs := splices_step n sender hacc
  have hspliced := hlog.splice hk hsnap hprev hm.entries
  rw [← hm.prevLogIndex, ← hs.log] at hspliced
  have hlast : (n.step sender (.appendEntries m)).log.lastIndex =
      max k (prev + m.entries.length) := by
    rw [← hm.prevLogIndex, ← hspliced.length_eq, List.length_take_of_le]
    rw [hm.prevLogIndex]
    exact max_le hk hend
  have hcommit' : (n.step sender (.appendEntries m)).commitIndex =
      max n.commitIndex m.leaderCommit := by
    have hle : m.leaderCommit ≤ max k (prev + m.entries.length) :=
      hcommit.trans (hprev.trans (le_max_left _ _))
    rw [hs.commit, hlast]
    split
    · next hlt => rw [min_eq_left hle, max_eq_right hlt.le]
    · next hge => rw [max_eq_left (not_lt.mp hge)]
  have hstep := step_appendEntries n sender hacc.1 hacc.2
  have hsame : n.observeTerm m.term = n := by
    unfold observeTerm
    rw [if_neg (by rw [hm.term, hterm]; exact lt_irrefl T)]
  rw [hsame] at hstep
  exact {
    toStays := stays_input n (.step sender (.appendEntries m))
    term := by rw [hstep]; exact hm.term
    log := hm.prevLogIndex ▸ hspliced
    snapshotIndex := by rw [hs.log, snapshotIndex_splice]
    lastApplied := hs.lastApplied
    committed := hs.committed
    le_end := le_max_left _ _
    end_le := max_le hk hend
    reaches := by
      rintro m' hm'
      obtain rfl := List.mem_singleton.mp hm'
      exact le_max_right _ _
    follows := by
      rw [hstep]
      exact Or.inl ⟨rfl, rfl, electionTimeoutMin_le_resetElectionTimer { n with
        currentTerm := m.term, role := .follower, votedFor := none, leaderId := some m.leaderId }⟩
    commit_le := hcommit' ▸ le_max_left _ _
    le_commit := by
      rintro m' hm'
      obtain rfl := List.mem_singleton.mp hm'
      exact hcommit' ▸ le_max_right _ _
    commit_bound := fun b hb hms => hcommit' ▸ max_le hb (hms m List.mem_cons_self)
    answers := by
      refine ⟨[max k (prev + m.entries.length)], ?_, rfl, fun r hr => (List.mem_singleton.mp hr).le,
        Or.inr rfl⟩
      rw [← hlast, ← hm.leaderId, ← hm.term, hstep]
      rfl }

theorem Streamed.refl (hterm : n.currentTerm = T) (hlog : RestOf (F.take k) n.log)
    (hk : k ≤ F.length) : Streamed F T i prev n k [] n k where
  id_eq := rfl
  peers_eq := rfl
  config_eq := rfl
  term := hterm
  log := hlog
  snapshotIndex := rfl
  lastApplied := rfl
  committed := rfl
  le_end := le_rfl
  end_le := hk
  reaches _ hm := nomatch hm
  follows := Or.inr ⟨rfl, rfl, rfl, rfl⟩
  commit_le := le_rfl
  le_commit _ hm := nomatch hm
  commit_bound _ hb _ := hb
  answers := ⟨[], (List.append_nil _).symm, rfl, fun _ hr => (nomatch hr), Or.inl ⟨rfl, rfl⟩⟩

theorem Streamed.trans {n'' : RaftNode} {k'' : ℕ} {ms ms' : List AppendEntries}
    (h : Streamed F T i prev n k ms n' k') (h' : Streamed F T i prev n' k' ms' n'' k'') :
    Streamed F T i prev n k (ms ++ ms') n'' k'' where
  toStays := h.toStays.trans h'.toStays
  term := h'.term
  log := h'.log
  snapshotIndex := h'.snapshotIndex.trans h.snapshotIndex
  lastApplied := h'.lastApplied.trans h.lastApplied
  committed := h'.committed.trans h.committed
  le_end := h.le_end.trans h'.le_end
  end_le := h'.end_le
  reaches m hm := (List.mem_append.mp hm).elim (fun hm => (h.reaches m hm).trans h'.le_end)
    (h'.reaches m)
  follows := by
    rcases h'.follows with hfollows | ⟨rfl, hrole, helapsed, htimeout⟩
    · exact Or.inl (h.config_eq ▸ hfollows)
    · rw [List.append_nil, hrole, helapsed, htimeout]
      exact h.follows
  commit_le := h.commit_le.trans h'.commit_le
  le_commit m hm := (List.mem_append.mp hm).elim (fun hm => (h.le_commit m hm).trans h'.commit_le)
    (h'.le_commit m)
  commit_bound b hb hms := h'.commit_bound b
    (h.commit_bound b hb fun m hm => hms m (List.mem_append_left _ hm))
    fun m hm => hms m (List.mem_append_right _ hm)
  answers := by
    obtain ⟨rs, hout, hlen, hle, hlast⟩ := h.answers
    obtain ⟨rs', hout', hlen', hle', hlast'⟩ := h'.answers
    refine ⟨rs ++ rs', ?_, by rw [List.length_append, List.length_append, hlen, hlen'],
      fun r hr => ?_, ?_⟩
    · rw [hout', hout, h.id_eq, List.map_append, List.append_assoc]
    · exact (List.mem_append.mp hr).elim (fun hr => (hle r hr).trans h'.le_end) (hle' r)
    · rcases hlast' with ⟨rfl, rfl⟩ | hsome
      · rwa [List.append_nil]
      · exact Or.inr (by rw [List.getLast?_append, hsome, Option.some_or])

/-- **A follower that takes in messages** with windows of the log of its leader. -/
theorem streamed_receiveAll {ms : List AppendEntries} (sender : NodeId)
    (hms : ∀ m ∈ ms, Carries F T i prev m ∧ m.leaderCommit ≤ prev) (hterm : n.currentTerm = T)
    (hlog : RestOf (F.take k) n.log) (hk : k ≤ F.length) (hsnap : n.log.snapshotIndex ≤ prev)
    (hprev : prev ≤ k) :
    ∃ k', Streamed F T i prev n k ms
      (n.receiveAll (ms.map fun m => (sender, .appendEntries m))) k' := by
  induction ms generalizing n k with
  | nil => exact ⟨k, .refl hterm hlog hk⟩
  | cons m ms ih =>
    obtain ⟨hm, hcommit⟩ := hms m List.mem_cons_self
    have hfirst := streamed_step sender hm hterm hlog hk hsnap hprev hcommit
    obtain ⟨k', hrest⟩ := ih (fun m' hm' => hms m' (List.mem_cons_of_mem m hm')) hfirst.term
      hfirst.log hfirst.end_le (hfirst.snapshotIndex.trans_le hsnap) (hprev.trans hfirst.le_end)
    exact ⟨k', hfirst.trans hrest⟩

/-! ### The leader -/

/-- Answers from several nodes, one after the other. -/
def acks (T : ℕ) (as : List (NodeId × ℕ)) : List (NodeId × Message) :=
  as.map fun a => (a.1, ack T a.1 a.2)

/-- What a leader records of them. -/
def recordAll (progress : LeaderProgress) (as : List (NodeId × ℕ)) : LeaderProgress :=
  as.foldl (fun p a => (p.setMatchIndex a.1 a.2).setNextIndex a.1 (a.2 + 1)) progress

/-- Only the last answer of a node counts. -/
theorem recordAll_apply (progress : LeaderProgress) (as : List (NodeId × ℕ)) (p : NodeId) :
    (recordAll progress as).matchIndex p =
        ((as.filter (·.1 = p)).getLast?.map Prod.snd).getD (progress.matchIndex p) ∧
      (recordAll progress as).nextIndex p =
        ((as.filter (·.1 = p)).getLast?.map (·.2 + 1)).getD (progress.nextIndex p) := by
  induction as using List.reverseRecOn with
  | nil => exact ⟨rfl, rfl⟩
  | append_singleton as a ih =>
    rw [recordAll, List.foldl_append, List.foldl_cons, List.foldl_nil, ← recordAll,
      List.filter_append]
    by_cases hp : a.1 = p
    · simp [hp]
    · simp [hp, Ne.symm hp, ih]

/-- What a leader sends to a node that has its log up to `K`, as far as it knows. -/
theorem appendFor_of_restOf {K : ℕ} (hlog : RestOf F n.log) (hterm : n.currentTerm = T)
    (hnext : n.progress.nextIndex j = K + 1) (hsnap : n.log.snapshotIndex ≤ K) (hK : K ≤ F.length) :
    ∃ m, n.appendFor j = .appendEntries m ∧ Carries F T n.id K m ∧
      K + m.entries.length = F.length ∧ m.leaderCommit = n.commitIndex := by
  have hentries : n.log.entriesFrom (K + 1) = F.drop K :=
    hlog.covers.entriesFrom_eq (Nat.lt_succ_of_le hsnap)
  have hcarries : Carries F T n.id K (n.entriesFor j) := by
    refine ⟨hterm, rfl, ?_, ?_, ?_⟩
    · show n.progress.nextIndex j - 1 = K
      rw [hnext, Nat.add_sub_cancel]
    · show (n.log.termAt (n.progress.nextIndex j - 1)).getD 0 = _
      rw [hnext, Nat.add_sub_cancel, hlog.termAt_eq hsnap hK]
      rfl
    · show n.log.entriesFrom (n.progress.nextIndex j) <+: _
      rw [hnext, hentries]
  refine ⟨n.entriesFor j, appendFor_of_lt (by rw [hnext]; omega), hcarries, ?_, rfl⟩
  show K + (n.log.entriesFrom (n.progress.nextIndex j)).length = _
  rw [hnext, hentries, List.length_drop]
  omega

/-- After a leader has looked for something to commit, there is nothing left. -/
theorem not_committable_advanceCommit (hrole : n.role = .leader) (N : ℕ) :
    ¬n.advanceCommit.Committable N := by
  rw [advanceCommit, if_neg (not_not.mpr hrole)]
  intro hN
  have hle := commitIndex_le_commitFrom n n.log.lastIndex
  have hold : n.Committable N := ⟨hle.trans_lt hN.lt, hN.le, hN.term, hN.held⟩
  rcases picks_commitFrom n le_rfl with hgreatest | ⟨hnone, -⟩
  · exact not_lt.mpr (hgreatest.2 ⟨Nat.lt_succ_of_le hN.le, hold⟩) hN.lt
  · exact hnone N ⟨Nat.lt_succ_of_le hN.le, hold⟩

/-- **A leader that takes in answers** records the last one of each node, and commits what it can
commit then, but nothing that nobody else has. -/
theorem receiveAll_acks {b : ℕ} {as : List (NodeId × ℕ)} (hrole : n.role = .leader)
    (hterm : n.currentTerm = T) (hpeers : n.peers ≠ []) (hb : n.commitIndex ≤ b)
    (hmatch : ∀ p ∈ n.peers, n.progress.matchIndex p ≤ b) (has : ∀ a ∈ as, a.2 ≤ b) :
    ∃ c, n.receiveAll (acks T as) =
        { n with progress := recordAll n.progress as, commitIndex := c } ∧
      n.commitIndex ≤ c ∧ c ≤ b ∧
      (as ≠ [] → ∀ N, ¬(n.receiveAll (acks T as)).Committable N) := by
  induction as using List.reverseRecOn with
  | nil => exact ⟨n.commitIndex, rfl, le_rfl, hb, fun hne => absurd rfl hne⟩
  | append_singleton as a ih =>
    obtain ⟨c, heq, hle, hc, -⟩ := ih fun a' ha' => has a' (List.mem_append_left _ ha')
    let n' : RaftNode := { n with progress := recordAll n.progress as, commitIndex := c }
    have hstep : n.receiveAll (acks T (as ++ [a])) =
        (n'.recordMatch a.1 a.2).advanceCommit := by
      rw [acks, List.map_append, receiveAll_append, ← acks, heq]
      exact step_success (n := n') a.1 hrole hterm.symm rfl
    have hrecord : (n'.recordMatch a.1 a.2).progress = recordAll n.progress (as ++ [a]) := by
      rw [recordAll, List.foldl_append]
      rfl
    have hbound : (n'.recordMatch a.1 a.2).commitFrom n.log.lastIndex ≤ b := by
      refine commitFrom_le_of_matchIndex_le (n := n'.recordMatch a.1 a.2) hpeers hc ?_ _
      intro p hp
      rw [hrecord, (recordAll_apply _ _ p).1]
      cases hlast : ((as ++ [a]).filter (·.1 = p)).getLast? with
      | none => exact hmatch p hp
      | some a' => exact has a' (List.mem_filter.mp (List.mem_of_getLast? hlast)).1
    refine ⟨(n'.recordMatch a.1 a.2).commitFrom n.log.lastIndex, ?_,
      hle.trans (commitIndex_le_commitFrom (n'.recordMatch a.1 a.2) _), hbound, fun _ N => ?_⟩
    · have hleads : (n'.recordMatch a.1 a.2).role = .leader := hrole
      rw [hstep, advanceCommit, if_neg (not_not.mpr hleads), ← hrecord]
      rfl
    · rw [hstep]
      exact not_committable_advanceCommit (n := n'.recordMatch a.1 a.2) hrole N

/-- A leader with one more entry. -/
def appended (n : RaftNode) (command : List UInt8) : RaftNode :=
  { n with log := n.log.append [n.newEntry command] }

/-- A leader that gets a proposal appends it and sends it to its peers, and commits nothing that
nobody else has. -/
theorem propose_of_leader {b : ℕ} (command : List UInt8) (hrole : n.role = .leader)
    (hpeers : n.peers ≠ []) (hb : n.commitIndex ≤ b)
    (hmatch : ∀ p ∈ n.peers, n.progress.matchIndex p ≤ b) :
    ∃ c, (n.propose command).2 = { n.appended command with
        commitIndex := c
        outgoing := n.outgoing ++ n.peers.map fun peer =>
          ⟨peer, (n.appended command).appendFor peer⟩ } ∧
      n.commitIndex ≤ c ∧ c ≤ b := by
  let sent : RaftNode := { n.appended command with
    outgoing := n.outgoing ++ n.peers.map fun peer => ⟨peer, (n.appended command).appendFor peer⟩ }
  have hsent : (n.appended command).broadcastAppend = sent := broadcastAppend_eq _
  have heq : (n.propose command).2 = sent.advanceCommit := by
    rw [← hsent]
    unfold propose
    rw [if_neg (not_not.mpr hrole)]
    rfl
  refine ⟨sent.commitFrom sent.log.lastIndex, ?_, commitIndex_le_commitFrom sent _,
    commitFrom_le_of_matchIndex_le (n := sent) hpeers hb hmatch _⟩
  have hleads : sent.role = .leader := hrole
  rw [heq, advanceCommit, if_neg (not_not.mpr hleads)]

end RaftNode

end Ferrium
