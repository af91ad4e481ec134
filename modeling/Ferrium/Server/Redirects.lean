import Ferrium.Server.Answers
import Ferrium.Server.Fleet

/-!
# Writes that are redirected

A client whose proposal is answered with `NotLeader` is told to turn to another node. This happens
in two places. `handle_request` refuses a proposal to a node that is not leader, and nothing has
happened then. `process_ready` fails every client that still waits when the node is not leader any
more, so that clients are redirected instead of hanging; what was appended for them stays in the
logs that it has reached, and a later leader may commit it.

## Main results

* `Fleet.refusedOrPending`: in every run, a redirected write has either been refused at once, and
  the run is the same without it, or it was appended by the node that redirects it, which has
  applied nothing at its index since;
* `Fleet.not_redirectedHaveNoEffect_adopted`: a redirected write may be committed later.
-/

namespace Ferrium

open StorageEngine RaftLog

namespace Fleet

variable {σ δ : Type*} [StorageEngine σ] (codec : Codec)

/-! ### What a redirected write leaves behind -/

omit [StorageEngine σ] in
/-- In the round a client proposes a command to the leader, and `entry` is appended for it at
`index`. -/
def Creates (f : Fleet σ δ) (e : FleetEvent δ) (done : δ) (index : ℕ) (entry : LogEntry) : Prop :=
  ∃ command, e.event = .request (.propose command done) ∧
    (f.drivers e.node).node.role = .leader ∧
    index = (f.drivers e.node).node.log.lastIndex + 1 ∧
    entry = (f.drivers e.node).node.newEntry (codec.encode command)

omit [StorageEngine σ] in
/-- In the round the node hands out the log entry `entry` at `index`. -/
def HandsOut (f : Fleet σ δ) (e : FleetEvent δ) (index : ℕ) (entry : LogEntry) : Prop :=
  .command index entry.command ∈ handedOut codec f e ∧
    ((f.afterInput codec e).nodes e.node).log.get index = some entry

variable (S : Setup) (storage : σ)

/-- What was appended for a client that is told to turn to another node is not handed out by any
node later in the run. -/
def RedirectedHaveNoEffect (events : List (FleetEvent δ)) : Prop :=
  ∀ before proposal between redirect later round,
    before ++ proposal :: (between ++ redirect :: (later ++ [round])) <+: events →
    ∀ done index entry, Creates codec (after codec S storage before) proposal done index entry →
      redirect.node = proposal.node →
      ∀ ans ∈ (after codec S storage (before ++ proposal :: between)).answers codec redirect,
        ans.done = done → ans.index = some index → (∃ leader, ans.outcome = .notLeader leader) →
        ¬HandsOut codec
          (after codec S storage (before ++ proposal :: (between ++ redirect :: later)))
          round index entry

/-- The round is a proposal to a node that is not leader, and the run goes on as if it had been a
request for the status. -/
structure Refused (before : List (FleetEvent δ)) (round : FleetEvent δ) (done : δ) : Prop where
  proposed : ∃ command, round.event = .request (.propose command done)
  role : ((after codec S storage before).drivers round.node).node.role ≠ .leader
  noEffect : ∀ later, after codec S storage (before ++ round :: later) =
    after codec S storage (before ++ ⟨round.node, .request .status⟩ :: later)

/-- In the run an entry was appended for the waiting client, by the node `i` as the leader, and this
node has handed out nothing at its index since. -/
def Pending (events : List (FleetEvent δ)) (i : NodeId) (waiter : Waiter δ) : Prop :=
  ∃ before proposal later entry items, events = before ++ proposal :: later ∧ proposal.node = i ∧
    Creates codec (after codec S storage before) proposal waiter.done waiter.index entry ∧
    (after codec S storage events).handed = (after codec S storage before).handed ++ items ∧
    ∀ bytes, (i, .command waiter.index bytes) ∉ items

/-- A redirected write has been refused at once and without effect, or the node that redirects it,
which is not leader, has appended an entry for it and applied nothing at the index since. -/
def RefusedOrPending (events : List (FleetEvent δ)) : Prop :=
  ∀ before round, before ++ [round] <+: events →
    ∀ ans ∈ (after codec S storage before).answers codec round,
    ∀ leader, ans.outcome = .notLeader leader →
      (ans.index = none ∧ Refused codec S storage before round ans.done) ∨
        ∃ index, ans.index = some index ∧
          ((after codec S storage (before ++ [round])).drivers round.node).node.role ≠ .leader ∧
          Pending codec S storage (before ++ [round]) round.node ⟨index, ans.done⟩

variable {codec S storage} {f : Fleet σ δ} {e : FleetEvent δ} {events : List (FleetEvent δ)}
variable {i : NodeId} {waiter : Waiter δ}

/-! ### Proposals that are refused -/

/-- A proposal to a node that is not leader changes as little as a request for the status. -/
theorem step_eq_of_refused {done : δ} {command : WriteCommand}
    (hevent : e.event = .request (.propose command done))
    (hrole : (f.drivers e.node).node.role ≠ .leader) :
    f.step codec e = f.step codec ⟨e.node, .request .status⟩ := by
  have hhandle : ((f.drivers e.node).handle codec e.event).1 = f.drivers e.node := by
    rw [hevent]
    simp only [Driver.handle, Driver.handleRequest]
    rw [(f.drivers e.node).node.propose_of_ne_leader _ hrole]
  have hstatus : ((f.drivers e.node).handle codec (.request .status)).1 = f.drivers e.node := rfl
  simp only [step, Driver.step]
  rw [hhandle, hstatus]

theorem refused_of_ne_leader {before : List (FleetEvent δ)} {command : WriteCommand} {done : δ}
    (hevent : e.event = .request (.propose command done))
    (hrole : ((after codec S storage before).drivers e.node).node.role ≠ .leader) :
    Refused codec S storage before e done where
  proposed := ⟨command, hevent⟩
  role := hrole
  noEffect later := by
    have hsame : (after codec S storage before).step codec e =
        (after codec S storage before).step codec ⟨e.node, .request .status⟩ :=
      step_eq_of_refused hevent hrole
    unfold after at hsame ⊢
    rw [Run.exec_append, Run.exec_append, Run.exec_cons, Run.exec_cons, hsame]

/-! ### Proposals that are pending -/

omit [StorageEngine σ] in
/-- In a round nothing is handed out for an index by the node `i`, unless it is the round of this
node. -/
theorem notMem_handedOut {index : ℕ}
    (hnot : e.node = i → ∀ bytes, .command index bytes ∉ handedOut codec f e)
    (bytes : List UInt8) :
    (i, .command index bytes) ∉ (handedOut codec f e).map fun item => (e.node, item) := by
  intro hmem
  obtain ⟨item, hitem, heq⟩ := List.mem_map.mp hmem
  obtain ⟨hnode, rfl⟩ := Prod.mk.inj heq
  exact hnot hnode bytes hitem

/-- What is pending stays so while nothing is handed out for it. -/
theorem Pending.concat (h : Pending codec S storage events i waiter)
    (hnot : e.node = i → ∀ bytes, .command waiter.index bytes ∉
      handedOut codec (after codec S storage events) e) :
    Pending codec S storage (events ++ [e]) i waiter := by
  obtain ⟨before, proposal, later, entry, items, hevents, hnode, hcreates, hhanded, hitems⟩ := h
  refine ⟨before, proposal, later ++ [e], entry,
    items ++ (handedOut codec (after codec S storage events) e).map fun item => (e.node, item),
    by simp [hevents], hnode, hcreates, ?_, ?_⟩
  · rw [after_concat, handed_step, hhanded, List.append_assoc]
  · intro bytes hmem
    rcases List.mem_append.mp hmem with hold | hnew
    · exact hitems bytes hold
    · exact notMem_handedOut hnot bytes hnew

/-- Who waits in the middle of a round, and for whose index nothing is handed out in it, is
pending. -/
theorem pending_of_mem_handle
    (hall : ∀ waiter ∈ ((after codec S storage events).drivers e.node).waiters,
      Pending codec S storage events e.node waiter)
    (hmem : waiter ∈ (((after codec S storage events).drivers e.node).handle codec
      e.event).1.waiters)
    (hnot : ∀ bytes, .command waiter.index bytes ∉
      handedOut codec (after codec S storage events) e) :
    Pending codec S storage (events ++ [e]) e.node waiter := by
  rcases Driver.mem_waiters_handle hmem with hold | ⟨command, hevent, hrole, hindex⟩
  · exact (hall waiter hold).concat fun _ => hnot
  · refine ⟨events, e, [], _, _, rfl, rfl, ⟨command, hevent, hrole, hindex, rfl⟩, ?_,
      notMem_handedOut fun _ => hnot⟩
    rw [after_concat, handed_step]

/-- **Who waits is pending**, at every moment of every run. -/
theorem pending_of_mem_waiters
    (h : waiter ∈ ((after codec S storage events).drivers i).waiters) :
    Pending codec S storage events i waiter := by
  -- the last round either is that of another node, or has let the client wait, or has left it so
  induction events using List.reverseRecOn generalizing i waiter with
  | nil => cases h
  | append_singleton events e ih =>
    rw [after_concat] at h
    rcases eq_or_ne i e.node with rfl | hne
    · rw [drivers_step_self] at h
      obtain ⟨hmem, hnot, -⟩ := Driver.mem_waiters_processReady h
      exact pending_of_mem_handle (fun _ hwaiter => ih hwaiter) hmem hnot
    · rw [drivers_step_of_ne codec _ hne] at h
      exact (ih h).concat fun heq => absurd heq.symm hne

/-- **A redirected write has been refused at once and without effect, or it is pending.** -/
theorem refusedOrPending (events : List (FleetEvent δ)) :
    RefusedOrPending codec S storage events := by
  intro before round _ ans hans leader houtcome
  rcases List.mem_append.mp hans with hnow | hready
  · left
    obtain ⟨command, hevent, hrole, heq⟩ := Driver.mem_answers_handle hnow
    exact ⟨congrArg Answer.index heq, refused_of_ne_leader hevent hrole⟩
  · right
    rcases Driver.mem_answers_processReady hready with
      ⟨_, _, -, -, heq⟩ | ⟨index, hwaiter, hnot, hrole, heq⟩
    · rw [heq] at houtcome
      cases houtcome
    · refine ⟨index, congrArg Answer.index heq, ?_,
        pending_of_mem_handle (fun _ => pending_of_mem_waiters) hwaiter hnot⟩
      rw [after_concat, drivers_step_self, Driver.node_next]
      exact hrole

/-- A write that a client has proposed to `n1` reaches `n2`, which becomes a candidate. -/
def replicated : List (FleetEvent Unit) :=
  receives "n2" "n1" (.appendEntries ⟨1, "n1", 0, 0, [⟨1, bytes 1⟩], 0⟩) ::
    List.replicate 6 ⟨"n2", .tick⟩

/-- The vote request of `n2`, on which `n1` steps down. -/
def deposed : FleetEvent Unit :=
  receives "n1" "n2" (.requestVote ⟨2, "n2", 1, 1⟩)

/-- Node `n2` is elected by `n1` and appends a write of its own, which reaches `n1`. -/
def secondElected : List (FleetEvent Unit) :=
  [receives "n2" "n1" (.requestVoteReply ⟨2, "n1", true⟩),
    writes "n2" 2,
    receives "n1" "n2" (.appendEntries ⟨2, "n2", 1, 1, [⟨2, bytes 2⟩], 0⟩)]

/-- The reply on which `n2` commits both writes. -/
def adopting : FleetEvent Unit :=
  receives "n2" "n1" (.appendEntriesReply ⟨2, "n1", true, 2, 0⟩)

/-- The client of the first write is told to turn to another node, and the new leader commits what
was appended for it. -/
def adopted : List (FleetEvent Unit) :=
  firstElected ++ writes "n1" 1 ::
    (replicated ++ deposed :: (secondElected ++ [adopting]))

/-- A redirected write is committed later, in a run that follows the protocol. -/
theorem not_redirectedHaveNoEffect_adopted :
    IsRun Codec.tagged threeDrivers (InTime Codec.tagged) MemoryEngine.new adopted ∧
      ¬RedirectedHaveNoEffect Codec.tagged threeDrivers MemoryEngine.new adopted := by
  refine ⟨by decide +kernel, fun h => ?_⟩
  have hcreates : Creates Codec.tagged
      (after Codec.tagged threeDrivers MemoryEngine.new firstElected) (writes "n1" 1) () 1
      ⟨1, bytes 1⟩ :=
    ⟨.set "k" [1], rfl, by decide +kernel, by decide +kernel, by decide +kernel⟩
  refine h firstElected (writes "n1" 1) replicated deposed secondElected adopting List.prefix_rfl
    () 1 ⟨1, bytes 1⟩ hcreates rfl ⟨(), .notLeader none, some 1, none⟩ (by decide +kernel) rfl rfl
    ⟨none, rfl⟩ ⟨by decide +kernel, by decide +kernel⟩

end Fleet

end Ferrium
