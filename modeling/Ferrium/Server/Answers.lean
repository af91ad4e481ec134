import Ferrium.Server.Driver

/-!
# What clients are told

A client that waits for a log index is told that its write is committed when something is applied at
this index. The entry that was appended for it is still there then, unless the node has in the same
round stopped to be leader and accepted an entry of its successor at that index as committed: the
waiting clients are failed only after what is committed has been applied.

## Main results

* `Driver.answersOwnWrite_of_keepsWaited`: in every run in which no accepted message replaces what a
  client waits for, a positive answer is for the client's own write;
* `Driver.not_answersOwnWrite_replaced`: not in every run.
-/

namespace Ferrium

open StorageEngine RaftLog

namespace Driver

variable {σ δ : Type*} [StorageEngine σ] {codec : Codec} {d : Driver σ δ}

/-! ### The loop over what is committed -/

/-- An answer of the loop is for somebody who waits for the index of a command that has just been
applied. -/
theorem mem_answers_applyAll {items : List Committed} {d : Driver σ δ} {ans : Answer δ}
    (h : ans ∈ (applyAll codec d items).2) :
    ∃ index bytes, .command index bytes ∈ items ∧ ⟨index, ans.done⟩ ∈ d.waiters ∧
      ans = ⟨ans.done, .committed, some index, some (.command index bytes)⟩ := by
  induction items generalizing d with
  | nil => cases h
  | cons item items ih =>
    rcases List.mem_append.mp h with hfirst | hrest
    · cases item with
      | command index bytes =>
        obtain ⟨waiter, hwaiter, rfl⟩ := List.mem_map.mp hfirst
        obtain ⟨hmem, hindex⟩ := List.mem_filter.mp hwaiter
        obtain rfl : waiter.index = index := by simpa using hindex
        exact ⟨_, bytes, List.mem_cons_self, hmem, rfl⟩
      | snapshot data => cases hfirst
    · obtain ⟨index, bytes, hmem, hwaiter, hanswer⟩ := ih hrest
      have hone : ⟨index, ans.done⟩ ∈ (applyAll codec d [item]).1.waiters := hwaiter
      exact ⟨index, bytes, List.mem_cons_of_mem _ hmem, (mem_waiters_applyAll hone).1, hanswer⟩

/-! ### Who waits and who is answered -/

/-- Who still waits after a round has waited before, for an index at which nothing was applied, and
the node is leader. -/
theorem mem_waiters_processReady {waiter : Waiter δ}
    (h : waiter ∈ (d.processReady codec).1.waiters) :
    waiter ∈ d.waiters ∧ (∀ bytes, .command waiter.index bytes ∉ d.node.ready.committed) ∧
      d.node.takeReady.role = .leader := by
  have hnode := node_applyAll codec d.node.ready.committed
    { d with node := d.node.takeReady }
  replace h : waiter ∈ (failWaiters (applyAll codec { d with node := d.node.takeReady }
    d.node.ready.committed).1).1.waiters := h
  unfold failWaiters at h
  split at h
  · next hleader =>
    rw [hnode] at hleader
    obtain ⟨hold, hnot⟩ := mem_waiters_applyAll h
    exact ⟨hold, hnot, by simpa [RaftNode.isLeader] using hleader⟩
  · cases h

/-- Who is answered when what is ready is processed: those who wait for what has just been applied,
and, if the node is not leader, all others. -/
theorem mem_answers_processReady {ans : Answer δ} (h : ans ∈ (d.processReady codec).2.answers) :
    (∃ index bytes, .command index bytes ∈ d.node.ready.committed ∧
        ⟨index, ans.done⟩ ∈ d.waiters ∧
        ans = ⟨ans.done, .committed, some index, some (.command index bytes)⟩) ∨
      ∃ index, ⟨index, ans.done⟩ ∈ d.waiters ∧
        (∀ bytes, .command index bytes ∉ d.node.ready.committed) ∧
        d.node.takeReady.role ≠ .leader ∧
        ans = ⟨ans.done, .notLeader d.node.takeReady.leaderId, some index, none⟩ := by
  rcases List.mem_append.mp h with happlied | hfailed
  · left
    obtain ⟨index, bytes, hmem, hwaiter, hanswer⟩ := mem_answers_applyAll happlied
    exact ⟨index, bytes, hmem, hwaiter, hanswer⟩
  · right
    -- the role is looked at after the apply loop, which does not change it
    have hnode := node_applyAll codec d.node.ready.committed
      { d with node := d.node.takeReady }
    replace hfailed : ans ∈ (failWaiters (applyAll codec { d with node := d.node.takeReady }
      d.node.ready.committed).1).2 := hfailed
    unfold failWaiters at hfailed
    split at hfailed
    · cases hfailed
    · next hleader =>
      rw [hnode] at hleader hfailed
      obtain ⟨waiter, hwaiter, rfl⟩ := List.mem_map.mp hfailed
      obtain ⟨hold, hnot⟩ := mem_waiters_applyAll hwaiter
      exact ⟨waiter.index, hold, hnot, by simpa [RaftNode.isLeader] using hleader, rfl⟩

omit [StorageEngine σ] in
/-- The event of a round is answered only if it is a proposal to a node that is not leader. -/
theorem mem_answers_handle {event : DriverEvent δ} {ans : Answer δ}
    (h : ans ∈ (d.handle codec event).2) :
    ∃ command, event = .request (.propose command ans.done) ∧ d.node.role ≠ .leader ∧
      ans = ⟨ans.done, .notLeader d.node.leaderId, none, none⟩ := by
  match event with
  | .tick | .inbound _ _ | .request (.peer _ _) | .request .status => cases h
  | .request (.propose command done) =>
    simp only [handle, handleRequest] at h
    by_cases hrole : d.node.role = .leader
    · have hok := d.node.propose_fst (codec.encode command) hrole
      split at h
      · cases h
      · next heq =>
        rw [heq] at hok
        cases hok
    · rw [d.node.propose_of_ne_leader _ hrole] at h
      obtain rfl := List.mem_singleton.mp h
      exact ⟨command, rfl, hrole, rfl⟩

omit [StorageEngine σ] in
/-- The event of a round lets a client wait only if it is a proposal to the leader. -/
theorem mem_waiters_handle {event : DriverEvent δ} {waiter : Waiter δ}
    (h : waiter ∈ (d.handle codec event).1.waiters) :
    waiter ∈ d.waiters ∨ ∃ command, event = .request (.propose command waiter.done) ∧
      d.node.role = .leader ∧ waiter.index = d.node.log.lastIndex + 1 := by
  match event with
  | .tick | .inbound _ _ | .request (.peer _ _) | .request .status => exact Or.inl h
  | .request (.propose command done) =>
    simp only [handle, handleRequest] at h
    by_cases hrole : d.node.role = .leader
    · have hok := d.node.propose_fst (codec.encode command) hrole
      split at h
      · next index node heq =>
        rw [heq] at hok
        obtain rfl := Except.ok.inj hok
        rcases List.mem_append.mp h with hold | hnew
        · exact Or.inl hold
        · obtain rfl := List.mem_singleton.mp hnew
          exact Or.inr ⟨command, rfl, hrole, rfl⟩
      · exact Or.inl h
    · rw [d.node.propose_of_ne_leader _ hrole] at h
      exact Or.inl h

/-! ### What is kept for a waiting client -/

variable (codec) (owner : δ → WriteCommand)

/-- At the log index the command of the client's write stands. -/
def HoldsWrite (log : RaftLog) (waiter : Waiter δ) : Prop :=
  ∃ e, log.get waiter.index = some e ∧ e.command = codec.encode (owner waiter.done)

/-- Between two rounds: everything that is committed has been applied, only a leader has waiting
clients, and what they wait for is in the log. -/
structure Rests (d : Driver σ δ) : Prop where
  snapshot_le : d.node.log.snapshotIndex ≤ d.node.lastApplied
  commit_le : d.node.commitIndex ≤ d.node.lastApplied
  drained : d.node.committed = []
  leads : ∀ waiter ∈ d.waiters, d.node.role = .leader
  holds : ∀ waiter ∈ d.waiters, d.node.lastApplied < waiter.index →
    HoldsWrite codec owner d.node.log waiter

/-- Within a round, after the event. -/
structure Handled (d : Driver σ δ) : Prop where
  snapshot_le : d.node.log.snapshotIndex ≤ d.node.lastApplied
  queued : ∀ index bytes, .command index bytes ∉ d.node.committed
  own : ∀ waiter ∈ d.waiters, d.node.lastApplied < waiter.index →
    waiter.index ≤ d.node.commitIndex → ∀ e, d.node.log.get waiter.index = some e →
    e.command = codec.encode (owner waiter.done)
  holds : d.node.role = .leader → ∀ waiter ∈ d.waiters, d.node.lastApplied < waiter.index →
    HoldsWrite codec owner d.node.log waiter

/-- An answer that is positive only for the write of its client. -/
def Answer.Honest (ans : Answer δ) : Prop :=
  ans.outcome = .committed → ∃ index, ans.index = some index ∧
    ans.applied = some (.command index (codec.encode (owner ans.done)))

variable {codec owner}

omit [StorageEngine σ] in
/-- A command among what is ready has just been committed. -/
theorem Handled.of_mem_ready (h : Handled codec owner d) {index : ℕ} {bytes : List UInt8}
    (hmem : .command index bytes ∈ d.node.ready.committed) :
    d.node.lastApplied < index ∧ index ≤ d.node.commitIndex ∧ bytes ≠ [] ∧
      ∃ e, d.node.log.get index = some e ∧ e.command = bytes := by
  rw [RaftNode.committed_ready] at hmem
  rcases List.mem_append.mp hmem with hold | hnew
  · exact absurd hold (h.queued index bytes)
  · exact RaftNode.mem_newlyApplied.mp hnew

omit [StorageEngine σ] in
/-- What is applied at an index that a client waits for is the write of this client. -/
theorem Handled.eq_encode (h : Handled codec owner d) {index : ℕ} {bytes : List UInt8} {done : δ}
    (hmem : .command index bytes ∈ d.node.ready.committed) (hwaiter : ⟨index, done⟩ ∈ d.waiters) :
    bytes = codec.encode (owner done) := by
  obtain ⟨hlt, hle, -, e, hget, rfl⟩ := h.of_mem_ready hmem
  exact h.own _ hwaiter hlt hle e hget

/-- **Processing what is ready** gives honest answers. -/
theorem Handled.honest (h : Handled codec owner d) :
    ∀ ans ∈ (d.processReady codec).2.answers, Answer.Honest codec owner ans := by
  intro ans hans hcommitted
  rcases mem_answers_processReady hans with ⟨index, bytes, hmem, hwaiter, heq⟩ | ⟨_, -, -, -, heq⟩
  · rw [h.eq_encode hmem hwaiter] at heq
    exact ⟨index, congrArg Answer.index heq, congrArg Answer.applied heq⟩
  · -- whoever is failed is not told that anything is committed
    rw [heq] at hcommitted
    cases hcommitted

/-- **Processing what is ready** leaves the driver between two rounds. -/
theorem Handled.rests (h : Handled codec owner d) : Rests codec owner (d.processReady codec).1 := by
  have hnode := node_processReady codec d
  have htake := d.node.takeReady_eq
  refine ⟨?_, ?_, ?_, fun waiter hwaiter => ?_, fun waiter hwaiter hlt => ?_⟩
  · rw [hnode, htake]
    exact d.node.snapshotIndex_appliedLog_le h.snapshot_le
  · rw [hnode, htake]
    show d.node.commitIndex ≤ d.node.lastApplied + (d.node.commitIndex - d.node.lastApplied)
    omega
  · rw [hnode, htake]
  · rw [hnode]
    exact (mem_waiters_processReady hwaiter).2.2
  · obtain ⟨hold, -, hrole⟩ := mem_waiters_processReady hwaiter
    rw [hnode, htake] at hlt ⊢
    rw [htake] at hrole
    have hbefore : d.node.lastApplied < waiter.index := (Nat.le_add_right _ _).trans_lt hlt
    obtain ⟨e, hget, hcommand⟩ := h.holds hrole waiter hold hbefore
    exact ⟨e, (d.node.get_appliedLog hlt).trans hget, hcommand⟩

/-! ### The events -/

/-- The entry that the message has for `index`, if it has one, carries the command that the log has
there. -/
def SameCommand (log : RaftLog) (m : AppendEntries) (index : ℕ) : Prop :=
  m.prevLogIndex < index → ∀ e ∈ log.get index,
    ∀ e' ∈ m.entries[index - m.prevLogIndex - 1]?, e'.command = e.command

instance decidableSameCommand (log : RaftLog) (m : AppendEntries) (index : ℕ) :
    Decidable (SameCommand log m index) :=
  inferInstanceAs (Decidable (_ → ∀ e ∈ _, ∀ e' ∈ _, _))

/-- If the message is an AppendEntries that is accepted, then for every index that a client waits
for and that the message declares to be committed, its entries all agree with the log, or they do
not fall into the discarded part of the log and have the same command for this index. -/
def Spares (d : Driver σ δ) : Message → Prop
  | .appendEntries m => d.node.Accepts (.appendEntries m) →
    ∀ waiter ∈ d.waiters, waiter.index ≤ m.leaderCommit →
      d.node.log.agreesFrom (m.prevLogIndex + 1) m.entries ∨
        (d.node.log.fitsAt m.prevLogIndex m.entries ∧ SameCommand d.node.log m waiter.index)
  | _ => True

instance decidableSpares (d : Driver σ δ) : ∀ message, Decidable (Spares d message)
  | .appendEntries m =>
    inferInstanceAs (Decidable (d.node.Accepts (.appendEntries m) →
      ∀ waiter ∈ d.waiters, waiter.index ≤ m.leaderCommit →
        d.node.log.agreesFrom (m.prevLogIndex + 1) m.entries ∨
          (d.node.log.fitsAt m.prevLogIndex m.entries ∧ SameCommand d.node.log m waiter.index)))
  | .requestVote _ | .requestVoteReply _ | .appendEntriesReply _ | .installSnapshot _
  | .installSnapshotReply _ => isTrue trivial

/-- No message replaces what a client waits for. -/
def KeepsWaited (d : Driver σ δ) : DriverEvent δ → Prop
  | .inbound _ message | .request (.peer _ message) => Spares d message
  | .tick | .request (.propose _ _) | .request .status => True

instance decidableKeepsWaited (d : Driver σ δ) : ∀ event, Decidable (KeepsWaited d event)
  | .inbound _ message | .request (.peer _ message) =>
    inferInstanceAs (Decidable (Spares d message))
  | .tick | .request (.propose _ _) | .request .status => isTrue trivial

/-- Whoever proposes a command waits for this command. -/
def OwnsProposal (owner : δ → WriteCommand) : DriverEvent δ → Prop
  | .request (.propose command done) => owner done = command
  | .tick | .inbound _ _ | .request (.peer _ _) | .request .status => True

instance decidableOwnsProposal (owner : δ → WriteCommand) :
    ∀ event, Decidable (OwnsProposal owner event)
  | .request (.propose command done) => inferInstanceAs (Decidable (owner done = command))
  | .tick | .inbound _ _ | .request (.peer _ _) | .request .status => isTrue trivial

omit [StorageEngine σ] in
/-- An input that leaves the log. -/
theorem Rests.keepsLog (h : Rests codec owner d) {n : RaftNode} (hk : d.node.KeepsLog n) :
    Handled codec owner { d with node := n } where
  snapshot_le := by
    rw [hk.log, hk.lastApplied]
    exact h.snapshot_le
  queued index bytes := by
    rw [hk.committed, h.drained]
    exact List.not_mem_nil
  own waiter hwaiter hlt _ e hget := by
    rw [hk.lastApplied] at hlt
    rw [hk.log] at hget
    obtain ⟨e', hget', hcommand⟩ := h.holds waiter hwaiter hlt
    rw [hget'] at hget
    exact Option.some.inj hget ▸ hcommand
  holds _ waiter hwaiter hlt := by
    rw [hk.lastApplied] at hlt
    rw [hk.log]
    exact h.holds waiter hwaiter hlt

omit [StorageEngine σ] in
/-- A message from a peer. -/
theorem Rests.receive (h : Rests codec owner d) (sender : NodeId) {message : Message}
    (hkeep : Spares d message) :
    Handled codec owner { d with node := d.node.step sender message } := by
  cases d.node.receives_step sender message with
  | keeps _ hk => exact h.keepsLog hk
  | @splices m hacc hs =>
    refine ⟨?_, fun index bytes => ?_, fun waiter hwaiter hlt hle e' hget => ?_,
      fun hleader => by cases hs.role.symm.trans hleader⟩
    · rw [hs.log, snapshotIndex_splice, hs.lastApplied]
      exact h.snapshot_le
    · rw [hs.committed, h.drained]
      exact List.not_mem_nil
    · rw [hs.lastApplied] at hlt
      rw [hs.log] at hget
      -- the index has become committed only now, so it is within the leader's commit index
      have hcommit : waiter.index ≤ m.leaderCommit := by
        have hold := h.commit_le
        rw [hs.commit] at hle
        split at hle <;> omega
      obtain ⟨e, hold, hcommand⟩ := h.holds waiter hwaiter hlt
      rw [← hcommand]
      rcases hkeep hacc waiter hwaiter hcommit with hagree | ⟨hfits, hsame⟩
      · rw [splice_eq_self hagree, hold] at hget
        rw [Option.some.inj hget]
      · rcases get_splice hacc.2 hfits hget with hkept | ⟨hlater, hnew⟩
        · rw [hold] at hkept
          rw [Option.some.inj hkept]
        · exact hsame hlater e hold e' hnew
  | installs _ hi =>
    refine ⟨?_, fun index bytes => ?_, fun waiter hwaiter hlt hle => ?_,
      fun hleader => by cases hi.role.symm.trans hleader⟩
    · rw [hi.log, hi.lastApplied]
      exact le_rfl
    · rw [hi.committed, h.drained]
      simp
    · rw [hi.lastApplied] at hlt
      rw [hi.commit] at hle
      omega

omit [StorageEngine σ] in
/-- A proposal. -/
theorem Rests.propose (h : Rests codec owner d) (done : δ) :
    Handled codec owner (d.handleRequest codec (.propose (owner done) done)).1 := by
  unfold handleRequest
  dsimp only
  by_cases hrole : d.node.role = .leader
  · have hk := d.node.keepsLog_propose (codec.encode (owner done)) hrole
    have hresult : d.node.propose (codec.encode (owner done)) =
        (.ok (d.node.log.lastIndex + 1), (d.node.propose (codec.encode (owner done))).2) :=
      Prod.ext (d.node.propose_fst _ hrole) rfl
    rw [hresult]
    -- with the entry appended and the client waiting for it, what is kept is kept
    have happended : Rests codec owner
        { d with
          node := { d.node with
            log := d.node.log.append [d.node.newEntry (codec.encode (owner done))] }
          waiters := d.waiters ++ [⟨d.node.log.lastIndex + 1, done⟩] } := by
      refine ⟨h.snapshot_le, h.commit_le, h.drained, fun _ _ => hrole, fun waiter hwaiter hlt => ?_⟩
      rcases List.mem_append.mp hwaiter with hold | hnew
      · obtain ⟨e, hget, hcommand⟩ := h.holds waiter hold hlt
        exact ⟨e, get_append_of_get hget _, hcommand⟩
      · obtain rfl := List.mem_singleton.mp hnew
        exact ⟨_, get_append_singleton _ _, rfl⟩
    exact happended.keepsLog hk
  · rw [d.node.propose_of_ne_leader _ hrole]
    exact h.keepsLog (RaftNode.KeepsLog.refl _)

omit [StorageEngine σ] in
/-- The event of a round. -/
theorem Rests.handled (h : Rests codec owner d) {event : DriverEvent δ}
    (howns : OwnsProposal owner event) (hkeep : KeepsWaited d event) :
    Handled codec owner (d.handle codec event).1 := by
  match event with
  | .tick => exact h.keepsLog d.node.keepsLog_tick
  | .inbound sender message => exact h.receive sender hkeep
  | .request (.peer sender message) => exact h.receive sender hkeep
  | .request (.propose command done) =>
    obtain rfl : owner done = command := howns
    exact h.propose done
  | .request .status => exact h.keepsLog (RaftNode.KeepsLog.refl _)

/-- **A round** is honest and leaves the driver between two rounds. -/
theorem Rests.step (h : Rests codec owner d) {event : DriverEvent δ}
    (howns : OwnsProposal owner event) (hkeep : KeepsWaited d event) :
    Rests codec owner (d.next codec event) ∧
      ∀ ans ∈ (d.step codec event).2.answers, Answer.Honest codec owner ans := by
  have hhandled := h.handled howns hkeep
  refine ⟨hhandled.rests, fun ans hans => ?_⟩
  rcases List.mem_append.mp hans with hnow | hready
  · -- the only answer that is given at once is the refusal of a proposal
    obtain ⟨command, -, -, heq⟩ := mem_answers_handle hnow
    intro hcommitted
    rw [heq] at hcommitted
    cases hcommitted
  · exact hhandled.honest ans hready

/-! ### Runs -/

variable (codec owner)

/-- In every round of the run a client that is told that its write is committed waits for the index
at which just this write has been applied. -/
def AnswersOwnWrite (d : Driver σ δ) (events : List (DriverEvent δ)) : Prop :=
  ∀ before event, before ++ [event] <+: events →
    ∀ ans ∈ ((Run.exec (next codec) d before).step codec event).2.answers,
      Answer.Honest codec owner ans

/-- A run of a driver in which every client waits for the command that it has proposed, and whose
events satisfy `cond`. -/
def IsRun (cond : Driver σ δ → DriverEvent δ → Prop) (d : Driver σ δ)
    (events : List (DriverEvent δ)) : Prop :=
  Run.Guarded (next codec) (fun d event => OwnsProposal owner event ∧ cond d event) d events

instance decidableIsRun (cond : Driver σ δ → DriverEvent δ → Prop) [∀ d e, Decidable (cond d e)]
    [DecidableEq δ] (d : Driver σ δ) (events : List (DriverEvent δ)) :
    Decidable (IsRun codec owner cond d events) :=
  inferInstanceAs (Decidable (Run.Guarded _ _ _ _))

variable {codec owner} {name : NodeId} {peers : List NodeId} {config : RaftConfig} {rng : StdRng}
variable {storage : σ} {events : List (DriverEvent δ)}

omit [StorageEngine σ] in
theorem rests_new : Rests codec owner (new (RaftNode.new name peers config rng) storage) where
  snapshot_le := le_rfl
  commit_le := le_rfl
  drained := rfl
  leads _ h := by cases h
  holds _ h := by cases h

/-- **An acknowledgement is for the client's own write** in every run in which no accepted message
replaces what a client waits for. -/
theorem answersOwnWrite_of_keepsWaited
    (h : IsRun codec owner KeepsWaited (new (RaftNode.new name peers config rng) storage) events) :
    AnswersOwnWrite codec owner (new (RaftNode.new name peers config rng) storage) events := by
  intro before event hp
  obtain ⟨hbefore, ⟨howns, hkeep⟩, -⟩ := Run.guarded_append.mp (Run.Guarded.of_isPrefix h hp)
  have hrests : Rests codec owner
      (Run.exec (next codec) (new (RaftNode.new name peers config rng) storage) before) :=
    Run.Guarded.invariant (fun d event hg hd => (hd.step hg.1 hg.2).1) hbefore rests_new
  exact (hrests.step howns hkeep).2

/-- The driver of the first one of three nodes, which always draws the shortest election timeout. -/
def firstOfThree : Driver MemoryEngine WriteCommand :=
  new (RaftNode.new "n1" ["n2", "n3"] raftCfg ⟨fun _ => 0⟩) MemoryEngine.new

/-- The node is elected, and a client proposes a write. -/
def proposed : List (DriverEvent WriteCommand) :=
  List.replicate 6 .tick ++
    [.inbound "n2" (.requestVoteReply ⟨1, "n2", true⟩),
      .request (.propose (.set "k" [1]) (.set "k" [1]))]

/-- Node `n2` acknowledges the write. -/
def acknowledged : DriverEvent WriteCommand :=
  .inbound "n2" (.appendEntriesReply ⟨1, "n2", true, 1, 0⟩)

theorem answersOwnWrite_acknowledged :
    IsRun Codec.tagged id KeepsWaited firstOfThree (proposed ++ [acknowledged]) ∧
      ((Run.exec (next Codec.tagged) firstOfThree proposed).step Codec.tagged
        acknowledged).2.answers =
        [⟨.set "k" [1], .committed, some 1,
          some (.command 1 (Codec.tagged.encode (.set "k" [1])))⟩] ∧
      AnswersOwnWrite Codec.tagged id firstOfThree (proposed ++ [acknowledged]) :=
  ⟨by decide +kernel, by decide +kernel, answersOwnWrite_of_keepsWaited (by decide +kernel)⟩

/-- While the client waits, `n2` has been elected in term 2 by `n3` and has committed another write
at the same index, of which the node now learns. -/
def replaced : DriverEvent WriteCommand :=
  .inbound "n2" (.appendEntries ⟨2, "n2", 0, 0, [⟨2, Codec.tagged.encode (.set "k" [2])⟩], 1⟩)

/-- A client is told that its write is committed although another write is. -/
theorem not_answersOwnWrite_replaced :
    IsRun Codec.tagged id (fun _ _ => True) firstOfThree (proposed ++ [replaced]) ∧
      ¬AnswersOwnWrite Codec.tagged id firstOfThree (proposed ++ [replaced]) := by
  refine ⟨by decide +kernel, fun h => ?_⟩
  have hans := h proposed replaced List.prefix_rfl
    ⟨.set "k" [1], .committed, some 1, some (.command 1 (Codec.tagged.encode (.set "k" [2])))⟩
    (by decide +kernel) rfl
  obtain ⟨index, hindex, happlied⟩ := hans
  obtain rfl : 1 = index := Option.some.inj hindex
  exact absurd happlied (by decide +kernel)

end Driver

end Ferrium
