import Ferrium.Raft.Effects
import Ferrium.Raft.FullLog

/-!
# What an input changes

Of all inputs only a proposal, an accepted AppendEntries and an accepted InstallSnapshot touch the
log; the others leave it, and what has been applied, and at most raise the commit index
(`KeepsLog`). Messages with entries or a snapshot are read off the log that the input leaves
(`Message.Reads`).

What a message can do to the log is said once (`RaftNode.receives_step`). An invariant of a single
node is proved from it, without another look at the handlers; the first one is that the indices of a
node are in order (`Chained`).
-/

namespace Ferrium

/-- The message is read off `log`, as far as it is about a log at all. -/
def Message.Reads (log : RaftLog) : Message → Prop
  | .appendEntries m => m.entries = log.entriesFrom (m.prevLogIndex + 1)
  | .installSnapshot m => m.lastIncludedIndex = log.snapshotIndex ∧ m.data = []
  | _ => True

namespace RaftLog

variable {log : RaftLog} {e : LogEntry}

/-! ### Where the entries of a log come from -/

theorem mem_of_mem_entriesFrom {start : ℕ} (h : e ∈ log.entriesFrom start) : e ∈ log.entries := by
  unfold entriesFrom at h
  split at h
  · exact h
  · exact List.mem_of_mem_drop h

theorem mem_of_mem_compact {index : ℕ} (h : e ∈ (log.compact index).entries) :
    e ∈ log.entries := by
  rcases log.compact_cases index with heq | ⟨_, -, heq⟩ <;> rw [heq] at h
  · exact h
  · exact List.mem_of_mem_drop h

theorem mem_of_mem_truncateFrom {index : ℕ} (h : e ∈ (log.truncateFrom index).entries) :
    e ∈ log.entries := by
  unfold truncateFrom at h
  split at h
  · simp at h
  · exact List.mem_of_mem_take h

/-- After a splice an entry was there before, or is one of the incoming ones. -/
theorem mem_of_mem_splice {prev : ℕ} {incoming : List LogEntry}
    (h : e ∈ (log.splice prev incoming).entries) : e ∈ log.entries ∨ e ∈ incoming := by
  rcases log.spliceFrom_cases (prev + 1) incoming with
    ⟨-, hsame⟩ | ⟨es₁, x, es₂, rfl, -, -, hres⟩
  · exact Or.inl (hsame ▸ h)
  · unfold splice at h
    rw [hres] at h
    rcases List.mem_append.mp h with hold | hnew
    · exact Or.inl (mem_of_mem_truncateFrom hold)
    · exact Or.inr (List.mem_append_right _ hnew)

/-- Above the point of a compaction nothing changes. -/
theorem get_compact_of_lt {i k : ℕ} (h : k < i) : (log.compact k).get i = log.get i := by
  rcases log.compact_cases k with heq | ⟨x, hx, heq⟩ <;> rw [heq]
  have hlt := snapshotIndex_lt_of_get hx
  rw [get_of_lt (hlt.trans h), get_of_lt h, List.getElem?_drop]
  dsimp only
  congr 1
  omega

/-- From the point of a compaction on, the terms are those that were there. -/
theorem termAt_compact {i k : ℕ} (h : (log.compact k).snapshotIndex ≤ i) :
    (log.compact k).termAt i = log.termAt i := by
  rcases log.compact_cases k with heq | ⟨x, hx, heq⟩
  · rw [heq]
  · have hpoint : (log.compact k).snapshotIndex = k := by rw [heq]
    rw [hpoint] at h
    rcases h.eq_or_lt with rfl | hlt
    · -- the term of the snapshot point is that of the last entry that is discarded
      rw [termAt_of_get hx, heq]
      exact termAt_snapshotIndex
    · have hne : i ≠ log.snapshotIndex := ((snapshotIndex_lt_of_get hx).trans hlt).ne'
      have hne' : i ≠ (log.compact k).snapshotIndex := (hpoint.trans_ne hlt.ne).symm
      rw [termAt_of_ne hne', termAt_of_ne hne, get_compact_of_lt hlt]

/-- Appending changes nothing that is there. -/
theorem get_append_of_get {i : ℕ} (h : log.get i = some e) (es : List LogEntry) :
    (log.append es).get i = some e := by
  have hlt := snapshotIndex_lt_of_get h
  have hlt' : (log.append es).snapshotIndex < i := hlt
  rw [get_of_lt hlt] at h
  rw [get_of_lt hlt']
  exact (List.getElem?_append_left (List.getElem?_eq_some_iff.mp h).1).trans h

/-- What is appended stands behind the last index. -/
theorem get_append_singleton (log : RaftLog) (e : LogEntry) :
    (log.append [e]).get (log.lastIndex + 1) = some e := by
  have hlt : (log.append [e]).snapshotIndex < log.lastIndex + 1 :=
    Nat.lt_succ_of_le (Nat.le_add_right _ _)
  rw [get_of_lt hlt]
  simp [append, lastIndex, Nat.add_assoc]

/-- Compaction does not move the end of the log. -/
@[simp]
theorem lastIndex_compact (log : RaftLog) (index : ℕ) :
    (log.compact index).lastIndex = log.lastIndex := by
  rcases log.compact_cases index with heq | ⟨e, he, heq⟩ <;> rw [heq]
  have hlt := snapshotIndex_lt_of_get he
  have hle := le_lastIndex_of_get he
  simp only [lastIndex, List.length_drop] at hle ⊢
  omega

/-- Entries that all agree change nothing. -/
theorem splice_eq_self {prev : ℕ} {es : List LogEntry} (h : log.agreesFrom (prev + 1) es) :
    log.splice prev es = log := by
  rcases log.spliceFrom_cases (prev + 1) es with ⟨-, hsame⟩ | ⟨es₁, x, es₂, rfl, -, hconf, -⟩
  · exact hsame
  · exact absurd h.termAt_eq hconf

/-- Entries that fit are put behind `prev`: a log with which they do not all agree is cut at the
first conflict, above the snapshot point, and the rest of them is appended. -/
theorem splice_of_fitsAt {prev : ℕ} {es : List LogEntry} (hprev : prev ≤ log.lastIndex)
    (hfits : log.fitsAt prev es) :
    (log.agreesFrom (prev + 1) es ∧ log.splice prev es = log) ∨
      ∃ es₁ e es₂, es = es₁ ++ e :: es₂ ∧ log.agreesFrom (prev + 1) es₁ ∧
        log.termAt (prev + 1 + es₁.length) ≠ some e.term ∧
        log.snapshotIndex ≤ prev + es₁.length ∧ prev + es₁.length ≤ log.lastIndex ∧
        log.splice prev es = { log with
          entries := log.entries.take (prev + es₁.length - log.snapshotIndex) ++ e :: es₂ } := by
  rcases log.spliceFrom_cases (prev + 1) es with hsame | ⟨es₁, e, es₂, rfl, hagree, hconf, hres⟩
  · exact Or.inl hsame
  · have hsnap := hfits.snapshotIndex_le hconf
    refine Or.inr ⟨es₁, e, es₂, rfl, hagree, hconf, hsnap, ?_, ?_⟩
    · rcases List.eq_nil_or_concat es₁ with rfl | ⟨rest, last, rfl⟩
      · exact hprev
      · rw [List.concat_eq_append] at hagree ⊢
        have hle := le_lastIndex_of_termAt hagree.termAt_eq
        simp only [List.length_append, List.length_singleton] at hle ⊢
        omega
    · have hbelow : ¬prev + 1 + es₁.length ≤ log.snapshotIndex := by omega
      have hoffset : prev + 1 + es₁.length - log.snapshotIndex - 1 =
          prev + es₁.length - log.snapshotIndex := by omega
      rw [splice, hres, truncateFrom, if_neg hbelow, hoffset]

/-- A log that is cut at `k` and continued with `es` holds up to `k` what it held, and `es` behind
it. -/
theorem get_replaceFrom {k : ℕ} (hsnap : log.snapshotIndex ≤ k) (hle : k ≤ log.lastIndex)
    (es : List LogEntry) (w : ℕ) :
    ({ log with entries := log.entries.take (k - log.snapshotIndex) ++ es } : RaftLog).get w =
      if w ≤ k then log.get w else es[w - k - 1]? := by
  have hlen : (log.entries.take (k - log.snapshotIndex)).length = k - log.snapshotIndex := by
    simp only [lastIndex] at hle
    rw [List.length_take]
    omega
  rcases Nat.lt_or_ge log.snapshotIndex w with hlt | hge
  · rw [get_of_lt (by exact hlt)]
    dsimp only
    split
    · rw [List.getElem?_append_left (by omega), List.getElem?_take, if_pos (by omega),
        get_of_lt hlt]
    · rw [List.getElem?_append_right (by omega), hlen]
      congr 1
      omega
  · rw [if_pos (hge.trans hsnap), get_eq_none_of_le hge, get_eq_none_of_le (by exact hge)]

/-- A splice does not cut off the position `k` if all entries agree, or if they fit and reach it. -/
theorem le_lastIndex_splice {prev t k : ℕ} {es : List LogEntry}
    (hmatch : log.matches prev t = true) (hk : k ≤ log.lastIndex)
    (h : log.agreesFrom (prev + 1) es ∨ (log.fitsAt prev es ∧ k ≤ prev + es.length)) :
    k ≤ (log.splice prev es).lastIndex := by
  rcases h with hagree | ⟨hfits, hreach⟩
  · rwa [splice_eq_self hagree]
  · rcases splice_of_fitsAt (le_lastIndex_of_matches hmatch) hfits with
      ⟨-, hsame⟩ | ⟨es₁, e, es₂, rfl, -, -, hsnap, hle, hres⟩
    · rwa [hsame]
    · rw [hres]
      simp only [lastIndex, List.length_append, List.length_take] at hle hreach ⊢
      omega

/-- After a splice of entries that fit, an entry was there before, or is the incoming one for its
position. -/
theorem get_splice {prev t w : ℕ} {es : List LogEntry} (hmatch : log.matches prev t = true)
    (hfits : log.fitsAt prev es) (h : (log.splice prev es).get w = some e) :
    log.get w = some e ∨ (prev < w ∧ es[w - prev - 1]? = some e) := by
  rcases splice_of_fitsAt (le_lastIndex_of_matches hmatch) hfits with
    ⟨-, hsame⟩ | ⟨es₁, x, es₂, rfl, -, -, hsnap, hle, hres⟩
  · exact Or.inl (hsame ▸ h)
  · rw [hres, get_replaceFrom hsnap hle] at h
    split at h
    · exact Or.inl h
    · refine Or.inr ⟨by omega, ?_⟩
      rw [List.getElem?_append_right (by omega), ← h]
      congr 1
      omega

end RaftLog

namespace RaftNode

variable {n n' n'' : RaftNode}

/-- From `n` to `n'` the log and what has been applied stay, the commit index only rises, and not
beyond the log, and what is sent is read off the log. -/
structure KeepsLog (n n' : RaftNode) : Prop where
  log : n'.log = n.log
  lastApplied : n'.lastApplied = n.lastApplied
  committed : n'.committed = n.committed
  commit : n'.commitIndex = n.commitIndex ∨
    (n.commitIndex < n'.commitIndex ∧ n'.commitIndex ≤ n.log.lastIndex)
  queue : ∀ env ∈ n'.outgoing, env ∈ n.outgoing ∨ env.message.Reads n.log

namespace KeepsLog

theorem refl (n : RaftNode) : KeepsLog n n :=
  ⟨rfl, rfl, rfl, Or.inl rfl, fun _ h => Or.inl h⟩

theorem trans (h : KeepsLog n n') (h' : KeepsLog n' n'') : KeepsLog n n'' where
  log := h'.log.trans h.log
  lastApplied := h'.lastApplied.trans h.lastApplied
  committed := h'.committed.trans h.committed
  commit := by
    have hlog := h.log
    rcases h.commit with hc | ⟨hlt, hle⟩ <;> rcases h'.commit with hc' | ⟨hlt', hle'⟩ <;>
      rw [hlog] at * <;> omega
  queue env henv := by
    rcases h'.queue env henv with hold | hnew
    · exact h.queue env hold
    · exact Or.inr (h.log ▸ hnew)

end KeepsLog

/-! ### The parts of the handlers -/

theorem keepsLog_send (n : RaftNode) (dst : NodeId) {message : Message}
    (h : message.Reads n.log) : KeepsLog n (n.send dst message) where
  log := rfl
  lastApplied := rfl
  committed := rfl
  commit := Or.inl rfl
  queue env henv := by
    rcases List.mem_append.mp henv with hold | hnew
    · exact Or.inl hold
    · obtain rfl := List.mem_singleton.mp hnew
      exact Or.inr h

theorem reads_appendFor (n : RaftNode) (peer : NodeId) : (n.appendFor peer).Reads n.log := by
  unfold appendFor
  dsimp only
  split
  · exact ⟨rfl, rfl⟩
  · next hnext =>
    show _ = n.log.entriesFrom (n.progress.nextIndex peer - 1 + 1)
    rw [Nat.sub_add_cancel (by omega)]

theorem keepsLog_broadcastAppend (n : RaftNode) : KeepsLog n n.broadcastAppend := by
  rw [broadcastAppend_eq]
  refine ⟨rfl, rfl, rfl, Or.inl rfl, fun env henv => ?_⟩
  rcases List.mem_append.mp henv with hold | hnew
  · exact Or.inl hold
  · obtain ⟨peer, -, rfl⟩ := List.mem_map.mp hnew
    exact Or.inr (n.reads_appendFor peer)

theorem keepsLog_advanceCommit (n : RaftNode) : KeepsLog n n.advanceCommit := by
  rw [advanceCommit_eq]
  refine ⟨rfl, rfl, rfl, ?_, fun _ h => Or.inl h⟩
  dsimp only
  split
  · exact (n.commitFrom_cases n.log.lastIndex).imp_right fun ⟨hlt, hle, _⟩ => ⟨hlt, hle⟩
  · exact Or.inl rfl

theorem keepsLog_becomeFollower (n : RaftNode) (term : ℕ) (leader : Option NodeId) :
    KeepsLog n (n.becomeFollower term leader) :=
  ⟨rfl, rfl, rfl, Or.inl rfl, fun _ h => Or.inl h⟩

theorem keepsLog_observeTerm (n : RaftNode) (term : ℕ) : KeepsLog n (n.observeTerm term) := by
  unfold observeTerm
  split
  · exact n.keepsLog_becomeFollower term none
  · exact KeepsLog.refl n

theorem keepsLog_becomeLeader (n : RaftNode) : KeepsLog n n.becomeLeader := by
  have hoffice : KeepsLog n n.takeOffice :=
    ⟨rfl, rfl, rfl, Or.inl rfl, fun _ h => Or.inl h⟩
  exact (hoffice.trans (keepsLog_broadcastAppend _)).trans (keepsLog_advanceCommit _)

theorem keepsLog_becomeCandidate (n : RaftNode) : KeepsLog n n.becomeCandidate := by
  have hstand : KeepsLog n n.standForElection :=
    ⟨rfl, rfl, rfl, Or.inl rfl, fun _ h => Or.inl h⟩
  unfold becomeCandidate
  dsimp only
  split
  · exact hstand.trans (keepsLog_becomeLeader _)
  · refine hstand.trans ?_
    rw [requestVotes_eq]
    refine ⟨rfl, rfl, rfl, Or.inl rfl, fun env henv => ?_⟩
    rcases List.mem_append.mp henv with hold | hnew
    · exact Or.inl hold
    · obtain ⟨peer, -, rfl⟩ := List.mem_map.mp hnew
      exact Or.inr trivial

/-! ### Applying -/

/-- The compaction that follows the apply loop does not go beyond what is applied. -/
theorem snapshotIndex_appliedLog_le (n : RaftNode)
    (h : n.log.snapshotIndex ≤ n.lastApplied) :
    n.appliedLog.snapshotIndex ≤ n.appliedIndex := by
  have hle : n.lastApplied ≤ n.appliedIndex := Nat.le_add_right _ _
  rcases n.appliedLog_cases with heq | heq <;> rw [heq]
  · exact h.trans hle
  · rcases (n.log.snapshotIndex_compact n.appliedIndex).2 with hs | hs <;> omega

@[simp]
theorem lastIndex_appliedLog (n : RaftNode) : n.appliedLog.lastIndex = n.log.lastIndex := by
  rcases n.appliedLog_cases with heq | heq <;> rw [heq]
  exact n.log.lastIndex_compact n.appliedIndex

/-- What is not applied yet stays in the log. -/
theorem get_appliedLog (n : RaftNode) {i : ℕ} (h : n.appliedIndex < i) :
    n.appliedLog.get i = n.log.get i := by
  rcases n.appliedLog_cases with heq | heq <;> rw [heq]
  exact RaftLog.get_compact_of_lt h

/-! ### The inputs -/

theorem keepsLog_tick (n : RaftNode) : KeepsLog n n.tick := by
  have hbeat : ∀ k, KeepsLog n { n with heartbeatElapsed := k } := fun k =>
    ⟨rfl, rfl, rfl, Or.inl rfl, fun _ h => Or.inl h⟩
  have hwait : KeepsLog n { n with electionElapsed := n.electionElapsed + 1 } :=
    ⟨rfl, rfl, rfl, Or.inl rfl, fun _ h => Or.inl h⟩
  rcases n.tick_cases with ⟨-, heq⟩ | ⟨-, -, heq⟩ | ⟨-, heq⟩ | ⟨-, heq⟩ <;> rw [heq]
  · exact hbeat _
  · exact (hbeat 0).trans (keepsLog_broadcastAppend _)
  · exact hwait
  · exact hwait.trans (keepsLog_becomeCandidate _)

/-- A leader appends the proposed command. -/
theorem keepsLog_propose (n : RaftNode) (command : List UInt8) (hrole : n.role = .leader) :
    KeepsLog { n with log := n.log.append [n.newEntry command] } (n.propose command).2 := by
  unfold propose
  rw [if_neg (not_not.mpr hrole)]
  exact (keepsLog_broadcastAppend _).trans (keepsLog_advanceCommit _)

/-- The index that is given out is that of the appended entry. -/
theorem propose_fst (n : RaftNode) (command : List UInt8) (hrole : n.role = .leader) :
    (n.propose command).1 = .ok (n.log.lastIndex + 1) := by
  unfold propose
  rw [if_neg (not_not.mpr hrole)]
  simp [RaftLog.append, RaftLog.lastIndex, Nat.add_assoc]

/-- Any other node does nothing. -/
theorem propose_of_ne_leader (n : RaftNode) (command : List UInt8) (hrole : n.role ≠ .leader) :
    n.propose command = (.error ⟨n.leaderId⟩, n) :=
  if_pos hrole

/-- The message changes the log: it has entries or a snapshot of a term that is not older, and the
entries pass the consistency check. -/
def Accepts (n : RaftNode) : Message → Prop
  | .appendEntries m =>
    n.currentTerm ≤ m.term ∧ n.log.matches m.prevLogIndex m.prevLogTerm = true
  | .installSnapshot m => n.currentTerm ≤ m.term
  | _ => False

instance decidableAccepts (n : RaftNode) : ∀ message, Decidable (n.Accepts message)
  | .appendEntries m => inferInstanceAs (Decidable (n.currentTerm ≤ m.term ∧
      n.log.matches m.prevLogIndex m.prevLogTerm = true))
  | .installSnapshot m => inferInstanceAs (Decidable (n.currentTerm ≤ m.term))
  | .requestVote _ | .requestVoteReply _ | .appendEntriesReply _ | .installSnapshotReply _ =>
    isFalse fun h => h

/-- A message that is not accepted leaves the log. -/
theorem keepsLog_step (n : RaftNode) (sender : NodeId) {message : Message}
    (h : ¬n.Accepts message) : KeepsLog n (n.step sender message) := by
  have hobs := n.keepsLog_observeTerm message.term
  refine hobs.trans ?_
  unfold step
  cases message with
  | requestVote m =>
    simp only [handle, handleRequestVote]
    split
    · refine KeepsLog.trans ?_ (keepsLog_send _ _ trivial)
      exact ⟨rfl, rfl, rfl, Or.inl rfl, fun _ h => Or.inl h⟩
    · exact keepsLog_send _ _ trivial
  | requestVoteReply m =>
    simp only [handle, handleRequestVoteReply]
    split
    · exact KeepsLog.refl _
    · split
      · have hrecord : ∀ n : RaftNode, KeepsLog n { n with votes := n.votes.record m.voterId } :=
          fun _ => ⟨rfl, rfl, rfl, Or.inl rfl, fun _ h => Or.inl h⟩
        split
        · exact (hrecord _).trans (keepsLog_becomeLeader _)
        · exact hrecord _
      · exact KeepsLog.refl _
  | appendEntries m =>
    simp only [handle, handleAppendEntries]
    split
    · exact keepsLog_send _ _ trivial
    · next hcur =>
      have hdown := (n.observeTerm m.term).keepsLog_becomeFollower m.term (some m.leaderId)
      refine hdown.trans ?_
      split
      · next hmatch =>
        -- not an older term, and the check is passed
        refine absurd ⟨?_, ?_⟩ h
        · rw [Message.term, currentTerm_observeTerm, not_lt, max_le_iff] at hcur
          exact hcur.1
        · have hlog := hdown.log.trans hobs.log
          exact hlog ▸ hmatch
      · exact keepsLog_send _ _ trivial
  | appendEntriesReply m =>
    simp only [handle, handleAppendEntriesReply]
    split
    · exact KeepsLog.refl _
    · split
      · refine KeepsLog.trans ?_ (keepsLog_advanceCommit _)
        exact ⟨rfl, rfl, rfl, Or.inl rfl, fun _ h => Or.inl h⟩
      · refine KeepsLog.trans ?_ (keepsLog_send _ _ (reads_appendFor _ _))
        exact ⟨rfl, rfl, rfl, Or.inl rfl, fun _ h => Or.inl h⟩
  | installSnapshot m =>
    simp only [handle, handleInstallSnapshot]
    split
    · exact KeepsLog.refl _
    · next hcur =>
      refine absurd ?_ h
      rw [Message.term, currentTerm_observeTerm, not_lt, max_le_iff] at hcur
      exact hcur.1
  | installSnapshotReply m =>
    simp only [handle, handleInstallSnapshotReply]
    split
    · exact KeepsLog.refl _
    · exact ⟨rfl, rfl, rfl, Or.inl rfl, fun _ h => Or.inl h⟩

/-- What an accepted AppendEntries leaves. -/
structure Splices (n n' : RaftNode) (m : AppendEntries) : Prop where
  log : n'.log = n.log.splice m.prevLogIndex m.entries
  commit : n'.commitIndex =
    if n.commitIndex < m.leaderCommit then min m.leaderCommit n'.log.lastIndex else n.commitIndex
  lastApplied : n'.lastApplied = n.lastApplied
  committed : n'.committed = n.committed
  queue : ∀ env ∈ n'.outgoing, env ∈ n.outgoing ∨ env.message.Reads n'.log
  role : n'.role = .follower

theorem splices_step (n : RaftNode) (sender : NodeId) {m : AppendEntries}
    (h : n.Accepts (.appendEntries m)) : Splices n (n.step sender (.appendEntries m)) m := by
  obtain ⟨hterm, hmatch⟩ := h
  have hobs := n.keepsLog_observeTerm m.term
  have hcommit : (n.observeTerm m.term).commitIndex = n.commitIndex := by
    unfold observeTerm
    split <;> rfl
  rw [step_appendEntries n sender hterm hmatch]
  refine ⟨?_, ?_, hobs.lastApplied, hobs.committed, fun env henv => ?_, rfl⟩
  · show (n.observeTerm m.term).log.splice _ _ = _
    rw [hobs.log]
  · show (if (n.observeTerm m.term).commitIndex < _ then _
      else (n.observeTerm m.term).commitIndex) = _
    rw [hcommit]
    rfl
  · rcases List.mem_append.mp henv with hold | hreply
    · exact Or.inl (outgoing_observeTerm n m.term ▸ hold)
    · obtain rfl := List.mem_singleton.mp hreply
      exact Or.inr trivial

/-- What an accepted InstallSnapshot leaves. -/
structure Installs (n n' : RaftNode) (m : InstallSnapshot) : Prop where
  log : n'.log = n.log.installSnapshot m.lastIncludedIndex m.lastIncludedTerm
  commit : n'.commitIndex = m.lastIncludedIndex
  lastApplied : n'.lastApplied = m.lastIncludedIndex
  committed : n'.committed = n.committed ++ [.snapshot m.data]
  queue : ∀ env ∈ n'.outgoing, env ∈ n.outgoing ∨ env.message.Reads n'.log
  role : n'.role = .follower

theorem installs_step (n : RaftNode) (sender : NodeId) {m : InstallSnapshot}
    (h : n.Accepts (.installSnapshot m)) : Installs n (n.step sender (.installSnapshot m)) m := by
  rw [step_installSnapshot n sender h]
  refine ⟨rfl, rfl, rfl, ?_, fun env henv => ?_, rfl⟩
  · exact congrArg (· ++ _) (n.keepsLog_observeTerm m.term).committed
  · rcases List.mem_append.mp henv with hold | hreply
    · exact Or.inl (outgoing_observeTerm n m.term ▸ hold)
    · obtain rfl := List.mem_singleton.mp hreply
      exact Or.inr trivial

/-- What a message can do to the log: it is not accepted and leaves the log, or its entries are
spliced in, or its snapshot is installed. -/
inductive Receives (n n' : RaftNode) : Message → Prop
  | keeps {message : Message} (refused : ¬n.Accepts message) (h : KeepsLog n n') :
    Receives n n' message
  | splices {m : AppendEntries} (accepted : n.Accepts (.appendEntries m)) (h : Splices n n' m) :
    Receives n n' (.appendEntries m)
  | installs {m : InstallSnapshot} (accepted : n.Accepts (.installSnapshot m))
      (h : Installs n n' m) : Receives n n' (.installSnapshot m)

theorem receives_step (n : RaftNode) (sender : NodeId) (message : Message) :
    Receives n (n.step sender message) message := by
  by_cases hacc : n.Accepts message
  · cases message with
    | appendEntries m => exact .splices hacc (n.splices_step sender hacc)
    | installSnapshot m => exact .installs hacc (n.installs_step sender hacc)
    | requestVote m => cases hacc
    | requestVoteReply m => cases hacc
    | appendEntriesReply m => cases hacc
    | installSnapshotReply m => cases hacc
  · exact .keeps hacc (n.keepsLog_step sender hacc)

/-- A round of the apply loop hands out the command at its index, if there is one. -/
theorem appliedAt_of_get {index : ℕ} {e : LogEntry} (hget : n.log.get index = some e)
    (hfilled : e.command ≠ []) : n.appliedAt index = [.command index e.command] := by
  unfold appliedAt
  rw [hget]
  exact if_neg hfilled

/-! ### The order of the positions -/

/-- What is discarded is applied, what is applied is committed, and what is committed is in the
log. -/
structure Chained (n : RaftNode) : Prop where
  snapshot_le : n.log.snapshotIndex ≤ n.lastApplied
  applied_le : n.lastApplied ≤ n.commitIndex
  commit_le : n.commitIndex ≤ n.log.lastIndex

theorem Chained.keepsLog (h : n.Chained) (hk : KeepsLog n n') : n'.Chained where
  snapshot_le := by
    rw [hk.log, hk.lastApplied]
    exact h.snapshot_le
  applied_le := by
    have := h.applied_le
    rw [hk.lastApplied]
    rcases hk.commit with heq | ⟨hlt, -⟩ <;> omega
  commit_le := by
    have := h.commit_le
    rw [hk.log]
    rcases hk.commit with heq | ⟨-, hle⟩ <;> omega

theorem Chained.append (h : n.Chained) (entries : List LogEntry) :
    Chained { n with log := n.log.append entries } where
  snapshot_le := h.snapshot_le
  applied_le := h.applied_le
  commit_le := by
    have := h.commit_le
    simp only [RaftLog.lastIndex, RaftLog.append, List.length_append] at this ⊢
    omega

theorem Chained.propose (h : n.Chained) (command : List UInt8) :
    (n.propose command).2.Chained := by
  by_cases hrole : n.role = .leader
  · exact (h.append [n.newEntry command]).keepsLog (n.keepsLog_propose command hrole)
  · rw [propose_of_ne_leader n command hrole]
    exact h

/-- A commit index that is still in the log after the splice stays where it is, or follows the
leader's within the log. -/
theorem Splices.commit_bounds {m : AppendEntries} (hs : Splices n n' m)
    (hkeep : n.commitIndex ≤ (n.log.splice m.prevLogIndex m.entries).lastIndex) :
    n.commitIndex ≤ n'.commitIndex ∧ n'.commitIndex ≤ n'.log.lastIndex := by
  rw [← hs.log] at hkeep
  rw [hs.commit]
  split <;> omega

theorem Chained.splices {m : AppendEntries} (h : n.Chained) (hs : Splices n n' m)
    (hkeep : n.commitIndex ≤ (n.log.splice m.prevLogIndex m.entries).lastIndex) :
    n'.Chained where
  snapshot_le := by
    rw [hs.log, hs.lastApplied, RaftLog.snapshotIndex_splice]
    exact h.snapshot_le
  applied_le := hs.lastApplied.trans_le (h.applied_le.trans (hs.commit_bounds hkeep).1)
  commit_le := (hs.commit_bounds hkeep).2

/-- A snapshot resets all positions, wherever it ends. -/
theorem Installs.chained {m : InstallSnapshot} (hi : Installs n n' m) : n'.Chained where
  snapshot_le := by
    rw [hi.log, hi.lastApplied]
    exact le_rfl
  applied_le := by rw [hi.lastApplied, hi.commit]
  commit_le := by
    rw [hi.commit, hi.log]
    exact Nat.le_add_right _ _

theorem Chained.appliedIndex_eq (h : n.Chained) : n.appliedIndex = n.commitIndex := by
  have := h.applied_le
  unfold appliedIndex
  omega

theorem Chained.applyCommitted (h : n.Chained) : n.applyCommitted.Chained := by
  rw [applyCommitted_eq]
  refine ⟨n.snapshotIndex_appliedLog_le h.snapshot_le, h.appliedIndex_eq.le, ?_⟩
  exact h.commit_le.trans n.lastIndex_appliedLog.ge

theorem Chained.takeReady (h : n.Chained) : n.takeReady.Chained :=
  { h.applyCommitted with }

end RaftNode

end Ferrium
