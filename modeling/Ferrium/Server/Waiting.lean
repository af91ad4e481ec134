import Ferrium.Cluster.Indices
import Ferrium.Raft.Tenure
import Ferrium.Server.Answers
import Ferrium.Server.Fleet

/-!
# Who waits, and for what

A client waits for the index at which its write was appended. It is told the outcome when that index
is applied, or when the node is not leader any more. Whoever is left waits for an entry that is in
the log of a leader and has not been applied: as long as the node is leader, its log only grows, and
the apply loop comes to every index.

That a new entry has an index which has not been applied needs that the positions of the node are in
order. They are not after a message has cut the log below the commit index; if the node is elected
then, a client may be given an index that has been applied long ago, and nobody will ever tell it
anything.

## Main results

* `Driver.Awaits.next`: a round leaves only clients that wait for an open index;
* `Fleet.nobodyHangs_of_coreKeeps`: in every run in which no message cuts a log below the commit
  index, every client waits for an open index, and whoever stops waiting is answered;
* `Fleet.not_nobodyHangs_cutBelow`: not in every run.
-/

namespace Ferrium

open StorageEngine RaftLog

namespace RaftNode

/-- The index has not been applied, and the log has a command there. -/
def IsOpen (n : RaftNode) (index : ℕ) : Prop :=
  n.lastApplied < index ∧ ∃ e, n.log.get index = some e ∧ e.command ≠ []

variable {n n' : RaftNode} {index : ℕ}

theorem IsOpen.keepsLog (h : n.IsOpen index) (hk : n.KeepsLog n') : n'.IsOpen index := by
  unfold IsOpen
  rw [hk.lastApplied, hk.log]
  exact h

/-- The apply loop hands out what stands at an open index that is committed, and leaves the others
open. -/
theorem IsOpen.takeReady (h : n.IsOpen index) :
    (∃ bytes, .command index bytes ∈ n.ready.committed) ∨ n.takeReady.IsOpen index := by
  obtain ⟨hlt, e, hget, hne⟩ := h
  rcases Nat.lt_or_ge n.commitIndex index with hlater | hle
  · have happlied : n.appliedIndex < index := by
      unfold appliedIndex
      omega
    rw [takeReady_eq]
    exact Or.inr ⟨happlied, e, (n.get_appliedLog happlied).trans hget, hne⟩
  · rw [committed_ready]
    have hmem := mem_newlyApplied.mpr ⟨hlt, hle, hne, e, hget, rfl⟩
    exact Or.inl ⟨e.command, List.mem_append_right _ hmem⟩

end RaftNode

namespace Driver

variable {σ δ : Type*} [StorageEngine σ] {codec : Codec} {d : Driver σ δ}

/-! ### A round -/

/-- Between two rounds: only a leader has waiting clients, and they wait for open indices. -/
structure Awaits (d : Driver σ δ) : Prop where
  leads : ∀ waiter ∈ d.waiters, d.node.role = .leader
  waits : ∀ waiter ∈ d.waiters, d.node.IsOpen waiter.index

omit [StorageEngine σ] in
/-- A message from a peer closes an index only by taking the leadership away. -/
theorem Awaits.receive (h : d.Awaits) (sender : NodeId) (message : Message)
    (hrole : (d.node.step sender message).role = .leader) :
    ∀ waiter ∈ d.waiters, (d.node.step sender message).IsOpen waiter.index := by
  have hkeeps := d.node.keepsLog_step sender (RaftNode.not_accepts_of_role_step hrole)
  exact fun waiter hwaiter => (h.waits waiter hwaiter).keepsLog hkeeps

omit [StorageEngine σ] in
/-- A proposal to the leader opens an index, for which its client waits. -/
theorem Awaits.propose (h : d.Awaits) (hnode : d.node.Chained) (hcodec : codec.NonEmpty)
    (command : WriteCommand) (done : δ) :
    ∀ waiter ∈ (d.handle codec (.request (.propose command done))).1.waiters,
      (d.handle codec (.request (.propose command done))).1.node.IsOpen waiter.index := by
  intro waiter hwaiter
  rw [node_handle_propose]
  by_cases hrole : d.node.role = .leader
  · refine RaftNode.IsOpen.keepsLog ?_ (d.node.keepsLog_propose (codec.encode command) hrole)
    rcases mem_waiters_handle hwaiter with hold | ⟨_, -, -, hindex⟩
    · obtain ⟨hlt, e, hget, hne⟩ := h.waits waiter hold
      exact ⟨hlt, e, get_append_of_get hget _, hne⟩
    · -- everything applied is in the log, so the index behind the log is not applied
      have happlied := hnode.applied_le.trans hnode.commit_le
      rw [hindex]
      exact ⟨Nat.lt_succ_of_le happlied, _, get_append_singleton _ _, hcodec command⟩
  · rw [d.node.propose_of_ne_leader _ hrole]
    rcases mem_waiters_handle hwaiter with hold | ⟨_, -, hleader, -⟩
    · exact h.waits waiter hold
    · exact absurd hleader hrole

omit [StorageEngine σ] in
/-- After the event of a round that leaves the node in office, all clients wait for open indices. -/
theorem Awaits.handle (h : d.Awaits) (hnode : d.node.Chained) (hcodec : codec.NonEmpty)
    (event : DriverEvent δ) (hrole : (d.handle codec event).1.node.role = .leader) :
    ∀ waiter ∈ (d.handle codec event).1.waiters,
      (d.handle codec event).1.node.IsOpen waiter.index := by
  match event with
  | .tick => exact fun waiter hwaiter => (h.waits waiter hwaiter).keepsLog d.node.keepsLog_tick
  | .inbound sender message => exact h.receive sender message hrole
  | .request (.peer sender message) => exact h.receive sender message hrole
  | .request (.propose command done) => exact h.propose hnode hcodec command done
  | .request .status => exact h.waits

/-- **A round leaves only clients that wait for an open index.** -/
theorem Awaits.next (h : d.Awaits) (hnode : d.node.Chained) (hcodec : codec.NonEmpty)
    (event : DriverEvent δ) : (d.next codec event).Awaits := by
  have hafter := node_next codec d event
  have hrole : (d.handle codec event).1.node.takeReady.role =
      (d.handle codec event).1.node.role := by
    rw [RaftNode.takeReady_eq]
  refine ⟨fun waiter hwaiter => ?_, fun waiter hwaiter => ?_⟩
  · rw [hafter]
    exact (mem_waiters_processReady hwaiter).2.2
  · obtain ⟨hold, hnot, hleader⟩ := mem_waiters_processReady hwaiter
    have hopen := h.handle hnode hcodec event (hrole.symm.trans hleader) waiter hold
    rw [hafter]
    rcases hopen.takeReady with ⟨bytes, hbytes⟩ | hstill
    · exact absurd hbytes (hnot bytes)
    · exact hstill

/-! ### Who stops waiting -/

/-- Whoever does not wait after the loop has been told that the write is committed. -/
theorem answered_applyAll (codec : Codec) (items : List Committed) {d : Driver σ δ}
    {waiter : Waiter δ} (h : waiter ∈ d.waiters) :
    waiter ∈ (applyAll codec d items).1.waiters ∨
      ∃ ans ∈ (applyAll codec d items).2, ans.done = waiter.done ∧
        ans.index = some waiter.index ∧ ans.outcome = .committed := by
  induction items generalizing d with
  | nil => exact Or.inl h
  | cons item items ih =>
    have hfirst : waiter ∈ (applyOne codec d item).1.waiters ∨
        ∃ ans ∈ (applyOne codec d item).2, ans.done = waiter.done ∧
          ans.index = some waiter.index ∧ ans.outcome = .committed := by
      cases item with
      | snapshot data => exact Or.inl h
      | command index bytes =>
        by_cases hindex : waiter.index = index
        · refine Or.inr ⟨_, List.mem_map.mpr ⟨waiter, ?_, rfl⟩, rfl, ?_, rfl⟩
          · exact List.mem_filter.mpr ⟨h, by simpa using hindex⟩
          · rw [hindex]
        · exact Or.inl (List.mem_filter.mpr ⟨h, by simpa using hindex⟩)
    rcases hfirst with hwaits | ⟨ans, hans, hanswered⟩
    · rcases ih hwaits with hstill | ⟨ans, hans, hanswered⟩
      · exact Or.inl hstill
      · exact Or.inr ⟨ans, List.mem_append_right _ hans, hanswered⟩
    · exact Or.inr ⟨ans, List.mem_append_left _ hans, hanswered⟩

omit [StorageEngine σ] in
/-- Whoever still waits then is failed, unless the node is leader. -/
theorem answered_failWaiters {d : Driver σ δ} {waiter : Waiter δ} (h : waiter ∈ d.waiters) :
    waiter ∈ d.failWaiters.1.waiters ∨ (d.node.role ≠ .leader ∧
      ∃ ans ∈ d.failWaiters.2, ans.done = waiter.done ∧ ans.index = some waiter.index) := by
  unfold failWaiters
  split
  · exact Or.inl h
  · next hleader =>
    have hrole : d.node.role ≠ .leader := by simpa [RaftNode.isLeader] using hleader
    exact Or.inr ⟨hrole, _, List.mem_map_of_mem h, rfl, rfl⟩

/-- Whoever does not wait after what is ready has been processed has been answered. -/
theorem answered_processReady (codec : Codec) {d : Driver σ δ} {waiter : Waiter δ}
    (h : waiter ∈ d.waiters) :
    waiter ∈ (d.processReady codec).1.waiters ∨
      ∃ ans ∈ (d.processReady codec).2.answers, ans.done = waiter.done ∧
        ans.index = some waiter.index ∧
        (d.node.takeReady.role = .leader → ans.outcome = .committed) := by
  have hnode := node_applyAll codec d.node.ready.committed { d with node := d.node.takeReady }
  have hbefore : waiter ∈ ({ d with node := d.node.takeReady } : Driver σ δ).waiters := h
  rcases answered_applyAll codec d.node.ready.committed hbefore with
    hstill | ⟨ans, hans, hdone, hindex, houtcome⟩
  · rcases answered_failWaiters hstill with hwaits | ⟨hrole, ans, hans, hdone, hindex⟩
    · exact Or.inl hwaits
    · rw [hnode] at hrole
      exact Or.inr ⟨ans, List.mem_append_right _ hans, hdone, hindex,
        fun hleader => absurd hleader hrole⟩
  · exact Or.inr ⟨ans, List.mem_append_left _ hans, hdone, hindex, fun _ => houtcome⟩

variable (codec)

/-- Whoever waits after the event, but not after the round, has been answered: by a leader that the
write is committed. -/
def AnswersLeaving (d : Driver σ δ) (event : DriverEvent δ) : Prop :=
  ∀ waiter ∈ (d.handle codec event).1.waiters, waiter ∉ (d.next codec event).waiters →
    ∃ ans ∈ (d.step codec event).2.answers, ans.done = waiter.done ∧
      ans.index = some waiter.index ∧
      ((d.next codec event).node.role = .leader → ans.outcome = .committed)

/-- **Nobody is dropped without an answer.** -/
theorem answersLeaving (d : Driver σ δ) (event : DriverEvent δ) : d.AnswersLeaving codec event := by
  intro waiter hwaiter hleaves
  rcases answered_processReady codec hwaiter with hstill | ⟨ans, hans, hanswered⟩
  · exact absurd hstill hleaves
  · rw [node_next]
    exact ⟨ans, List.mem_append_right _ hans, hanswered⟩

end Driver

namespace Fleet

variable {σ δ : Type*} (codec : Codec)

/-- In the round no message cuts the log of the node below its commit index. -/
def CoreKeeps (f : Fleet σ δ) (e : FleetEvent δ) : Prop :=
  ∀ input ∈ coreInput codec e.node e.event, Cluster.KeepsCommitted f.core input

instance decidableCoreKeeps (f : Fleet σ δ) (e : FleetEvent δ) : Decidable (CoreKeeps codec f e) :=
  inferInstanceAs (Decidable (∀ input ∈ _, _))

variable [StorageEngine σ]

/-- After every round of the run: if the node is not leader, nobody waits; if it is, all wait for an
index that has not been applied and is in the log. Whoever stops waiting in the round has been
answered. -/
def NobodyHangs (S : Setup) (storage : σ) (events : List (FleetEvent δ)) : Prop :=
  ∀ before e, before ++ [e] <+: events →
    let d := (after codec S storage (before ++ [e])).drivers e.node
    (d.node.role ≠ .leader → d.waiters = []) ∧
      (d.node.role = .leader → ∀ waiter ∈ d.waiters,
        d.node.lastApplied < waiter.index ∧ waiter.index ≤ d.node.log.lastIndex) ∧
      ((after codec S storage before).drivers e.node).AnswersLeaving codec e.event

variable {codec} {f : Fleet σ δ} {e : FleetEvent δ} {S : Setup} {storage : σ}
  {events : List (FleetEvent δ)}

/-- The positions of all nodes are in order, and all clients wait for open indices. -/
structure Orderly (f : Fleet σ δ) : Prop where
  chained : f.core.AllChained
  awaits : ∀ i, (f.drivers i).Awaits

theorem Orderly.step (h : f.Orderly) (hcodec : codec.NonEmpty) (hkeeps : CoreKeeps codec f e) :
    (f.step codec e).Orderly := by
  constructor
  · have hinput : (f.afterInput codec e).AllChained := by
      unfold afterInput
      split
      · next input hcore => exact h.chained.step (hkeeps input hcore)
      · exact h.chained
    rw [core_step]
    exact hinput.step trivial
  · intro i
    rcases eq_or_ne i e.node with rfl | hne
    · rw [drivers_step_self]
      exact (h.awaits e.node).next (h.chained e.node) hcodec e.event
    · rw [drivers_step_of_ne codec f hne]
      exact h.awaits i

omit [StorageEngine σ] in
theorem orderly_init : (init S storage : Fleet σ δ).Orderly where
  chained := Cluster.allChained_init
  awaits _ := ⟨fun _ h => (List.not_mem_nil h).elim, fun _ h => (List.not_mem_nil h).elim⟩

/-- **No client is left hanging** in every run in which no message cuts a log below the commit
index. -/
theorem nobodyHangs_of_coreKeeps (hcodec : codec.NonEmpty)
    (h : IsRun codec S (CoreKeeps codec) storage events) : NobodyHangs codec S storage events := by
  intro before e hp
  have horderly : (after codec S storage (before ++ [e])).Orderly :=
    Run.Guarded.invariant (fun _ _ hg hf => hf.step hcodec hg.2) (Run.Guarded.of_isPrefix h hp)
      orderly_init
  have hawaits := horderly.awaits e.node
  refine ⟨fun hrole => ?_, fun _ waiter hwaiter => ?_, Driver.answersLeaving codec _ _⟩
  · refine List.eq_nil_iff_forall_not_mem.mpr fun waiter hwaiter => ?_
    exact hrole (hawaits.leads waiter hwaiter)
  · obtain ⟨hlt, e', hget, -⟩ := hawaits.waits waiter hwaiter
    exact ⟨hlt, le_lastIndex_of_get hget⟩

theorem nobodyHangs_threeWrites :
    IsRun Codec.tagged threeDrivers (CoreKeeps Codec.tagged) MemoryEngine.new threeWrites ∧
      ((after Codec.tagged threeDrivers MemoryEngine.new threeWrites.dropLast).drivers
        "n1").waiters = [⟨3, ()⟩] ∧
      NobodyHangs Codec.tagged threeDrivers MemoryEngine.new threeWrites :=
  ⟨by decide +kernel, by decide +kernel,
    nobodyHangs_of_coreKeeps Codec.nonEmpty_tagged (by decide +kernel)⟩

/-- Three nodes that compact their logs after three entries. -/
def patientDrivers : Setup :=
  Setup.ofNames ["n1", "n2", "n3"] nodup_threeNames { raftCfg with snapshotThreshold := 3 }
    fun _ => ⟨fun _ => 0⟩

/-- Node `n2` has discarded three writes of `n1` and applied two more, when the message that `n1`
had sent with the first write arrives and puts this write in their place. Then `n2` is elected by
`n3`, and a client writes to it. -/
def cutBelow : List (FleetEvent Unit) :=
  firstElected ++
    [writes "n1" 1, writes "n1" 2, writes "n1" 3,
      receives "n2" "n1"
        (.appendEntries ⟨1, "n1", 0, 0, [⟨1, bytes 1⟩, ⟨1, bytes 2⟩, ⟨1, bytes 3⟩], 0⟩),
      receives "n1" "n2" (.appendEntriesReply ⟨1, "n2", true, 3, 0⟩),
      writes "n1" 4, writes "n1" 5,
      receives "n2" "n1" (.appendEntries ⟨1, "n1", 3, 1, [⟨1, bytes 4⟩, ⟨1, bytes 5⟩], 3⟩),
      receives "n1" "n2" (.appendEntriesReply ⟨1, "n2", true, 5, 0⟩),
      ⟨"n1", .tick⟩, ⟨"n1", .tick⟩,
      receives "n2" "n1" (.appendEntries ⟨1, "n1", 5, 1, [], 5⟩),
      receives "n2" "n1" (.appendEntries ⟨1, "n1", 0, 0, [⟨1, bytes 1⟩], 0⟩)] ++
    List.replicate 6 ⟨"n2", .tick⟩ ++
    [receives "n3" "n2" (.requestVote ⟨2, "n2", 4, 1⟩),
      receives "n2" "n3" (.requestVoteReply ⟨2, "n3", true⟩), writes "n2" 6]

/-- A client waits for index 5, which has been applied. -/
theorem not_nobodyHangs_cutBelow :
    IsRun Codec.tagged patientDrivers (fun _ _ => True) MemoryEngine.new cutBelow ∧
      ¬NobodyHangs Codec.tagged patientDrivers MemoryEngine.new cutBelow := by
  refine ⟨by decide +kernel, fun h => ?_⟩
  obtain ⟨-, hleader, -⟩ := h cutBelow.dropLast (writes "n2" 6) (by decide)
  have hopen := hleader (by decide +kernel) ⟨5, ()⟩ (by decide +kernel)
  exact absurd hopen.1 (by decide +kernel)

end Fleet

end Ferrium
