import Ferrium.Cluster.LogMatching
import Ferrium.Cluster.Replicas
import Ferrium.Sim.SimCluster

/-!
# The stores of the simulation

The events of a call are events of the cluster of the simulated nodes, so the stores are those of
`Stored`. Nobody fills in the data of a snapshot, though: the message that `send_append` has queued
goes to the receiver as it is, and what is installed is the empty store. So the stores agree as long
as no snapshot is accepted.

## Main results

* `SimCluster.possible_events`: the events of a call can occur;
* `SimCluster.storesAgree_of_undisturbed`: stores with the same last applied index agree in every
  run that follows the protocol and accepts no snapshot;
* `SimCluster.not_storesAgree_emptySnapshot`: not in every run that follows the protocol.
-/

namespace Ferrium

open StorageEngine TermLog RaftLog

/-- A message that is read off a log has no data yet. -/
theorem Message.Reads.fillSnapshot_nil {log : RaftLog} {message : Message}
    (h : message.Reads log) : message.fillSnapshot [] = message := by
  cases message with
  | installSnapshot m =>
    obtain ⟨-, hdata⟩ := h
    simp only [fillSnapshot, ← hdata]
  | _ => rfl

namespace Cluster

/-- A message in the queue of a node was there before, or is read off a log. -/
theorem mem_outgoing_step {c : Cluster} {e : Event} {j : NodeId} {env : Envelope}
    (h : env ∈ ((c.step e).nodes j).outgoing) :
    env ∈ (c.nodes j).outgoing ∨ ∃ log, env.message.Reads log := by
  -- an event touches the queue of its node only
  have hnode : ∀ i n, (∀ env ∈ n.outgoing, env ∈ (c.nodes i).outgoing ∨
      ∃ log, env.message.Reads log) → env ∈ ((c.setNode i n).nodes j).outgoing →
      env ∈ (c.nodes j).outgoing ∨ ∃ log, env.message.Reads log := by
    intro i n hn henv
    rcases eq_or_ne j i with rfl | hne
    · rw [nodes_setNode_self] at henv
      exact hn env henv
    · rw [nodes_setNode_of_ne c n hne] at henv
      exact Or.inl henv
  cases e with
  | tick i =>
    exact hnode i _ (fun env henv => ((c.nodes i).keepsLog_tick.queue env henv).imp_right
      fun hreads => ⟨_, hreads⟩) h
  | propose i command =>
    refine hnode i _ (fun env henv => ?_) h
    by_cases hrole : (c.nodes i).role = .leader
    · exact (((c.nodes i).keepsLog_propose command hrole).queue env henv).imp_right
        fun hreads => ⟨_, hreads⟩
    · rw [(c.nodes i).propose_of_ne_leader command hrole] at henv
      exact Or.inl henv
  | takeReady i data => exact hnode i _ (fun env henv => by cases henv) h
  | deliver p =>
    obtain ⟨src, i, message⟩ := p
    refine hnode i _ (fun env henv => ?_) h
    cases (c.nodes i).receives_step src message with
    | keeps _ hk => exact (hk.queue env henv).imp_right fun hreads => ⟨_, hreads⟩
    | splices _ hs => exact (hs.queue env henv).imp_right fun hreads => ⟨_, hreads⟩
    | installs _ hi => exact (hi.queue env henv).imp_right fun hreads => ⟨_, hreads⟩

/-- The code follows the protocol, and no snapshot is accepted. -/
def Undisturbed (c : Cluster) (e : Event) : Prop :=
  KeepsPaths c e ∧ NoStaleSuffix c e ∧ NoInstall c e

instance decidableUndisturbed (c : Cluster) (e : Event) : Decidable (Undisturbed c e) :=
  inferInstanceAs (Decidable (_ ∧ _))

/-- Positive replies are about whole logs, and what is committed is settled; nothing is said about
the labels of snapshots, since none is accepted. -/
def appendChecks : Checks where
  whole := True
  settled := True
  labels := False
  synced := False

theorem admits_appendChecks : Admits appendChecks fun _ _ _ => False :=
  ⟨fun _ => ⟨trivial, trivial, fun _ _ _ h => h.elim⟩, fun h => h.elim⟩

theorem ensures_undisturbed {S : Setup} :
    Ensures appendChecks S (fun _ _ _ => False) Undisturbed :=
  fun _ _ _ ⟨henabled, ⟨hvotes, hsplices⟩, hstale, hinstall⟩ _ =>
    { enabled := henabled
      votes := hvotes
      splices := hsplices
      stale := fun _ => hstale
      labels := fun h => h.elim
      covers := fun h => h.elim
      install := hinstall.imp fun _ _ _ h => h.elim }

end Cluster

namespace SimCluster

variable {codec : Codec} {n : ℕ} {rng : NodeId → StdRng} {sim : SimCluster}
variable {a : State NodeId LogEntry} {e : Event}

/-! ### Events -/

theorem mem_members {i : NodeId} : i ∈ (setup n rng).members ↔ i ∈ names n :=
  List.mem_toFinset

/-- The event can occur, and no data is filled into snapshots. -/
def Possible (S : Setup) (sim : SimCluster) (e : Event) : Prop :=
  Cluster.Enabled S sim.core e ∧ ∀ i data, e = .takeReady i data → data = []

/-- The nodes refine the abstract log, every store has the contents that belong to the last applied
index of its node, and the snapshots that wait to be sent are empty. -/
structure Faithful (codec : Codec) (n : ℕ) (rng : NodeId → StdRng) (sim : SimCluster)
    (a : State NodeId LogEntry) : Prop where
  ids : sim.ids = names n
  refines : Cluster.Refines Cluster.appendChecks (setup n rng) sim.core a
  queued : ∀ i, ∀ env ∈ (sim.nodes i).outgoing, env.message.fillSnapshot [] = env.message
  stored : Cluster.Stored codec (get MemoryEngine.new) (setup n rng) sim.core a sim.stores

/-- If the snapshots that wait to be sent are empty, an event of the simulation is one of the
cluster. -/
theorem core_input
    (hqueued : ∀ i, ∀ env ∈ (sim.nodes i).outgoing, env.message.fillSnapshot [] = env.message)
    (hdata : ∀ i data, e = .takeReady i data → data = []) :
    (sim.input codec e).core = sim.core.step e := by
  cases e with
  | tick i => rfl
  | propose i command => rfl
  | deliver p => rfl
  | takeReady i data =>
    obtain rfl := hdata i data rfl
    have hmessages : (sim.nodes i).ready.messages.map (fun env =>
        (⟨i, env.dst, env.message⟩ : Packet)) = (sim.nodes i).ready.messages.map fun env =>
        ⟨i, env.dst, env.message.fillSnapshot []⟩ := by
      refine List.map_congr_left fun env henv => ?_
      have hmem : env ∈ (sim.nodes i).outgoing := by
        rwa [RaftNode.messages_ready] at henv
      rw [hqueued i env hmem]
    simp only [input, drainNode, core, hmessages]
    rfl

/-- **An event keeps the stores in agreement.** -/
theorem Faithful.input (h : Faithful codec n rng sim a) (hpossible : Possible (setup n rng) sim e)
    (hcond : Cluster.Undisturbed sim.core e) :
    ∃ a', Faithful codec n rng (sim.input codec e) a' := by
  obtain ⟨henabled, hdata⟩ := hpossible
  have hcore : (sim.input codec e).core = sim.core.step e := core_input h.queued hdata
  obtain ⟨a', ha'⟩ := h.refines.step Cluster.admits_appendChecks
    (Cluster.ensures_undisturbed _ _ _ ⟨henabled, hcond⟩ h.refines)
  have hg : Grows a a' := Steps.grows ha'.steps h.refines.consistent
  have hstored : Cluster.Stored codec (get MemoryEngine.new) (setup n rng) (sim.core.step e) a'
      (sim.input codec e).stores := by
    cases e with
    | takeReady i data => exact (h.stored.takeReady h.refines trivial henabled data).mono hg
    | _ =>
      exact h.stored.input hg (fun _ _ heq => by cases heq)
        (hcond.2.2.imp fun _ _ _ hno => hno.elim)
  refine ⟨a', (sameNetwork_exec codec sim [e]).ids.trans h.ids, hcore ▸ ha'.refines, ?_,
    hcore ▸ hstored⟩
  intro i env henv
  replace henv : env ∈ ((sim.input codec e).core.nodes i).outgoing := henv
  rw [hcore] at henv
  rcases Cluster.mem_outgoing_step henv with hold | ⟨log, hreads⟩
  · exact h.queued i env hold
  · exact hreads.fillSnapshot_nil

/-! ### Calls -/

/-- Every message that is buffered was drained, and goes to a node that exists. -/
theorem mem_buffered {p : Packet} (hp : p ∈ (sim.drainAll codec).2) :
    p ∈ (sim.drainAll codec).1.sent ∧ p.dst ∈ sim.ids := by
  let Buffered : SimCluster × List Packet → Prop := fun state =>
    state.1.ids = sim.ids ∧ ∀ p ∈ state.2, p ∈ state.1.sent ∧ p.dst ∈ sim.ids
  have hround : Buffered (sim.drainAll codec) := by
    unfold drainAll
    refine List.foldlRecOn sim.ids _ (⟨rfl, fun p hp => by cases hp⟩ : Buffered (sim, [])) ?_
    rintro ⟨s, buffered⟩ ⟨hids, hbuffered⟩ i -
    dsimp only
    split
    · refine ⟨hids, fun p hp => ?_⟩
      rcases List.mem_append.mp hp with hold | hnew
      · exact ⟨List.mem_append_left _ (hbuffered p hold).1, (hbuffered p hold).2⟩
      · obtain ⟨env, henv, rfl⟩ := List.mem_map.mp hnew
        obtain ⟨hmem, hdst⟩ := List.mem_filter.mp henv
        refine ⟨List.mem_append_right _ (List.mem_map.mpr ⟨env, hmem, rfl⟩), ?_⟩
        rw [← hids]
        exact of_decide_eq_true hdst
    · exact ⟨hids, hbuffered⟩
  exact hround.2 p hp

/-- Nothing that was sent is forgotten. -/
theorem mem_sent_input {p : Packet} (codec : Codec) (sim : SimCluster) (e : Event)
    (h : p ∈ sim.sent) : p ∈ (sim.input codec e).sent := by
  cases e with
  | takeReady i data => exact List.mem_append_left _ h
  | _ => exact h

/-- The call is about a node that exists; proposals go to a leader. -/
def Enabled (sim : SimCluster) : SimEvent → Prop
  | .step => True
  | .propose i _ => i ∈ sim.ids ∧ (sim.nodes i).role = .leader
  | .crash i | .restart i | .disconnect i | .reconnect i => i ∈ sim.ids

instance decidableEnabled (sim : SimCluster) : ∀ e, Decidable (Enabled sim e)
  | .step => isTrue trivial
  | .propose i _ => inferInstanceAs (Decidable (i ∈ sim.ids ∧ (sim.nodes i).role = .leader))
  | .crash i | .restart i | .disconnect i | .reconnect i =>
    inferInstanceAs (Decidable (i ∈ sim.ids))

/-- **The events of a call can occur.** -/
theorem possible_events (hids : sim.ids = names n) {call : SimEvent} (hcall : Enabled sim call) :
    Run.Guarded (input codec) (Possible (setup n rng)) sim (sim.events codec call) := by
  have hrunning : ∀ i ∈ sim.running, i ∈ (setup n rng).members := fun i hi => by
    rw [mem_members, ← hids]
    exact (List.mem_filter.mp hi).1
  cases call with
  | step =>
    refine Run.guarded_append.mpr ⟨Run.guarded_append.mpr ⟨?_, ?_⟩, ?_⟩
    · refine Run.guarded_of_invariant (fun _ => True) (fun _ _ _ => trivial) ?_ trivial
      rintro _ he s -
      obtain ⟨i, hi, rfl⟩ := List.mem_map.mp he
      exact ⟨hrunning i hi, fun _ _ heq => by cases heq⟩
    · refine Run.guarded_of_invariant (fun _ => True) (fun _ _ _ => trivial) ?_ trivial
      rintro _ he s -
      obtain ⟨i, hi, rfl⟩ := List.mem_map.mp he
      exact ⟨hrunning i hi, fun _ _ heq => by cases heq; rfl⟩
    · -- what is delivered was drained in the same step
      refine Run.guarded_of_invariant (fun s => ∀ p ∈ sim.delivered codec, p ∈ s.sent)
        (fun s e hs p hp => mem_sent_input codec s e (hs p hp)) ?_ fun p hp => ?_
      · rintro _ he s hs
        obtain ⟨p, hp, rfl⟩ := List.mem_map.mp he
        have hdst := (mem_buffered (List.mem_filter.mp hp).1).2
        rw [tickAll_eq codec, (sameNetwork_exec codec sim _).ids, hids] at hdst
        exact ⟨⟨mem_members.mpr hdst, hs p hp⟩, fun _ _ heq => by cases heq⟩
      · have hsent := (mem_buffered (List.mem_filter.mp hp).1).1
        rw [drainAll_fst, running_tickAll, tickAll_eq codec, ← Run.exec_append] at hsent
        exact hsent
  | propose i command =>
    exact ⟨⟨mem_members.mpr (hids ▸ hcall.1), fun _ _ heq => by cases heq⟩, trivial⟩
  | _ => trivial

/-- The condition `cond` holds for every event of the call where it occurs. -/
def Meets (codec : Codec) (cond : Cluster → Event → Prop) (sim : SimCluster) (call : SimEvent) :
    Prop :=
  Run.Guarded (input codec) (fun s e => cond s.core e) sim (sim.events codec call)

instance decidableMeets (codec : Codec) (cond : Cluster → Event → Prop)
    [∀ c e, Decidable (cond c e)] (sim : SimCluster) (call : SimEvent) :
    Decidable (Meets codec cond sim call) :=
  inferInstanceAs (Decidable (Run.Guarded _ _ _ _))

/-- **A call keeps the stores in agreement.** -/
theorem Faithful.next (h : Faithful codec n rng sim a) {call : SimEvent}
    (hcall : Enabled sim call) (hcond : Meets codec Cluster.Undisturbed sim call) :
    ∃ a', Faithful codec n rng (sim.next codec call) a' := by
  have hevent : ∀ s e, Possible (setup n rng) s e ∧ Cluster.Undisturbed s.core e →
      (∃ a, Faithful codec n rng s a) → ∃ a, Faithful codec n rng (s.input codec e) a := by
    rintro s e ⟨hpossible, hundisturbed⟩ ⟨a, ha⟩
    exact ha.input hpossible hundisturbed
  obtain ⟨a', ha'⟩ : ∃ a', Faithful codec n rng
      (Run.exec (SimCluster.input codec) sim (sim.events codec call)) a' :=
    Run.Guarded.invariant hevent (Run.Guarded.and (possible_events h.ids hcall) hcond) ⟨a, h⟩
  obtain ⟨alive, connected, hnext⟩ := next_eq codec sim call
  rw [hnext]
  exact ⟨a', ha'.ids, ha'.refines, ha'.queued, ha'.stored⟩

theorem faithful_new : Faithful codec n rng (new n rng) State.init where
  ids := rfl
  refines := Cluster.refines_init
  queued _ _ henv := by cases henv
  stored _ _ := ⟨0, [], settled_nil, rfl, rfl⟩

/-! ### Runs -/

variable (codec)

/-- The simulation after the calls `calls`. -/
def after (n : ℕ) (rng : NodeId → StdRng) (calls : List SimEvent) : SimCluster :=
  Run.exec (next codec) (new n rng) calls

/-- A run of the simulation all of whose events satisfy `cond` where they occur. -/
def IsRun (n : ℕ) (rng : NodeId → StdRng) (cond : Cluster → Event → Prop)
    (calls : List SimEvent) : Prop :=
  Run.Guarded (next codec) (fun sim call => Enabled sim call ∧ Meets codec cond sim call)
    (new n rng) calls

instance decidableIsRun (n : ℕ) (rng : NodeId → StdRng) (cond : Cluster → Event → Prop)
    [∀ c e, Decidable (cond c e)] (calls : List SimEvent) :
    Decidable (IsRun codec n rng cond calls) :=
  inferInstanceAs (Decidable (Run.Guarded _ _ _ _))

/-- At every moment between two calls, any two nodes that have handed out everything up to the same
last applied index have stores with the same contents. -/
def StoresAgree (n : ℕ) (rng : NodeId → StdRng) (calls : List SimEvent) : Prop :=
  ∀ before, before <+: calls → ∀ i ∈ names n, ∀ j ∈ names n,
    ((after codec n rng before).nodes i).committed = [] →
    ((after codec n rng before).nodes j).committed = [] →
    ((after codec n rng before).nodes i).lastApplied =
      ((after codec n rng before).nodes j).lastApplied →
    get ((after codec n rng before).stores i) = get ((after codec n rng before).stores j)

variable {codec} {calls : List SimEvent}

/-- **The simulation is faithful** in every run that follows the protocol and accepts no
snapshot. -/
theorem storesAgree_of_undisturbed (h : IsRun codec n rng Cluster.Undisturbed calls) :
    StoresAgree codec n rng calls := by
  intro before hp i hi j hj hdrained hdrained' hsame
  have hcall : ∀ sim call, Enabled sim call ∧ Meets codec Cluster.Undisturbed sim call →
      (∃ a, Faithful codec n rng sim a) → ∃ a, Faithful codec n rng (sim.next codec call) a := by
    rintro sim call ⟨henabled, hmeets⟩ ⟨a, ha⟩
    exact ha.next henabled hmeets
  obtain ⟨a, ha⟩ : ∃ a, Faithful codec n rng (after codec n rng before) a :=
    Run.Guarded.invariant hcall (Run.Guarded.of_isPrefix h hp) ⟨State.init, faithful_new⟩
  have hi' := ha.stored i (mem_members.mpr hi)
  have hj' := ha.stored j (mem_members.mpr hj)
  simp only [core, hdrained, hdrained', hsame, List.foldl_nil] at hi' hj'
  exact hi'.unique hj' (ha.refines.complete trivial) ha.refines.consistent

/-- Timeouts of 5, 6 and 8 ticks. -/
def timeouts (i : NodeId) : StdRng :=
  ⟨fun _ => if i = "n0" then 0 else if i = "n1" then 1 else 3⟩

/-- A number of steps. -/
def steps (k : ℕ) : List SimEvent :=
  List.replicate k .step

/-- Eight writes, after which the logs are compacted. -/
def eightWrites (i : NodeId) : List SimEvent :=
  List.replicate 8 (.propose i (.set "k" [1]))

/-- Node `n0` is elected, and replicates a write to the others. -/
def replicatedWrite : List SimEvent :=
  steps 6 ++ [.propose "n0" (.set "k" [1])] ++ steps 4

theorem storesAgree_replicatedWrite :
    IsRun Codec.tagged 3 timeouts Cluster.Undisturbed replicatedWrite ∧
      ((after Codec.tagged 3 timeouts replicatedWrite).nodes "n0").lastApplied = 1 ∧
      ((after Codec.tagged 3 timeouts replicatedWrite).nodes "n2").lastApplied = 1 ∧
      StoresAgree Codec.tagged 3 timeouts replicatedWrite := by
  have hrun : IsRun Codec.tagged 3 timeouts Cluster.Undisturbed replicatedWrite := by
    decide +kernel
  exact ⟨hrun, by decide +kernel, by decide +kernel, storesAgree_of_undisturbed hrun⟩

/-- Node `n2` is cut off while the others write and compact their logs, and then catches up by a
snapshot. -/
def emptySnapshot : List SimEvent :=
  [.disconnect "n2"] ++ steps 6 ++ eightWrites "n0" ++ steps 3 ++ [.reconnect "n2"] ++ steps 3

/-- Node `n1` has voted for `n0`, which is cut off then, and votes for `n2` in the same term. -/
def forgottenVote : List SimEvent :=
  [.disconnect "n2"] ++ steps 7 ++ [.disconnect "n0", .reconnect "n2"] ++ steps 2 ++
    [.propose "n0" (.set "k" [1]), .propose "n2" (.set "k" [2])] ++ steps 3 ++
    [.reconnect "n0"] ++ steps 2

/-- Node `n0` acknowledges the empty log of `n1` with the length of its own, so that `n1` commits a
write that nobody else has. -/
def staleAcknowledgement : List SimEvent :=
  steps 6 ++ [.disconnect "n0", .propose "n0" (.set "k" [1])] ++ steps 7 ++
    [.reconnect "n0"] ++ steps 2 ++ [.disconnect "n1", .propose "n1" (.set "k" [2])] ++ steps 6 ++
    [.propose "n0" (.set "j" [3])] ++ steps 3 ++ [.reconnect "n1"] ++ steps 4

/-- Node `n2`, which has compacted its log, rejects a message of `n1` from an old term and crashes.
When it is restarted, `n1` is the leader of its term, and takes the rejection for one of a message
of this term, so that it sends its log from the beginning. -/
def staleRejection : List SimEvent :=
  steps 6 ++ eightWrites "n0" ++ steps 2 ++
    -- `n0` and `n2` compact their logs, but `n1` does not
    [.disconnect "n1"] ++ steps 1 ++ [.crash "n0", .reconnect "n1"] ++ steps 6 ++
    -- while `n1` is the leader of term 2, `n2` goes on to term 4
    [.disconnect "n2"] ++ steps 16 ++ [.reconnect "n2"] ++ steps 1 ++
    [.crash "n2", .restart "n0"] ++ steps 1 ++
    -- `n0` makes `n1` step down into term 3, from where it is elected for term 4
    [.disconnect "n0"] ++ steps 5 ++ [.reconnect "n0"] ++ steps 2 ++
    [.crash "n0"] ++ steps 5 ++ [.restart "n0"] ++ steps 2 ++
    [.propose "n1" (.set "k" [2])] ++ steps 1 ++ [.restart "n2"] ++ steps 2 ++
    [.disconnect "n2"] ++ steps 1

/-- Two nodes have handed out everything up to the same index, and have different values for a
key. -/
def Differ (sim : SimCluster) (i j : NodeId) (key : String) : Prop :=
  ((sim.nodes i).committed = [] ∧ (sim.nodes j).committed = []) ∧
    (sim.nodes i).lastApplied = (sim.nodes j).lastApplied ∧
    get (sim.stores i) key ≠ get (sim.stores j) key

instance decidableDiffer (sim : SimCluster) (i j : NodeId) (key : String) :
    Decidable (Differ sim i j key) :=
  inferInstanceAs (Decidable ((_ ∧ _) ∧ _ ∧ _))

theorem Differ.not_storesAgree {i j : NodeId} {key : String} (hi : i ∈ names n) (hj : j ∈ names n)
    (h : Differ (after codec n rng calls) i j key) : ¬StoresAgree codec n rng calls := by
  intro hagree
  obtain ⟨⟨hdrained, hdrained'⟩, hsame, hne⟩ := h
  have hstores := hagree calls List.prefix_rfl i hi j hj hdrained hdrained' hsame
  exact hne (congrFun hstores key)

/-- Two nodes with the same last applied index have different values for a key if any one of the
conditions is violated. -/
theorem not_storesAgree_emptySnapshot :
    (IsRun Codec.tagged 3 timeouts
        (fun c e => Cluster.KeepsPaths c e ∧ Cluster.NoStaleSuffix c e) emptySnapshot ∧
      ¬StoresAgree Codec.tagged 3 timeouts emptySnapshot) ∧
    (IsRun Codec.tagged 3 timeouts
        (fun c e => Cluster.SplicesAboveSnapshot c e ∧ Cluster.NoStaleSuffix c e ∧
          Cluster.NoInstall c e) forgottenVote ∧
      ¬StoresAgree Codec.tagged 3 timeouts forgottenVote) ∧
    (IsRun Codec.tagged 3 timeouts
        (fun c e => Cluster.KeepsPaths c e ∧ Cluster.NoInstall c e) staleAcknowledgement ∧
      ¬StoresAgree Codec.tagged 3 timeouts staleAcknowledgement) ∧
    IsRun Codec.tagged 3 timeouts
        (fun c e => Cluster.RemembersVote c e ∧ Cluster.NoStaleSuffix c e ∧ Cluster.NoInstall c e)
        staleRejection ∧
      ¬StoresAgree Codec.tagged 3 timeouts staleRejection := by
  have hmem : ∀ i ∈ ["n0", "n1", "n2"], i ∈ names 3 := by decide +kernel
  refine ⟨⟨by decide +kernel, ?_⟩, ⟨by decide +kernel, ?_⟩, ⟨by decide +kernel, ?_⟩,
    by decide +kernel, ?_⟩
  · have hdiffer : Differ (after Codec.tagged 3 timeouts emptySnapshot) "n0" "n2" "k" := by
      decide +kernel
    exact hdiffer.not_storesAgree (hmem _ (by decide)) (hmem _ (by decide))
  · have hdiffer : Differ (after Codec.tagged 3 timeouts forgottenVote) "n0" "n2" "k" := by
      decide +kernel
    exact hdiffer.not_storesAgree (hmem _ (by decide)) (hmem _ (by decide))
  · have hdiffer : Differ (after Codec.tagged 3 timeouts staleAcknowledgement) "n0" "n1" "k" := by
      decide +kernel
    exact hdiffer.not_storesAgree (hmem _ (by decide)) (hmem _ (by decide))
  · have hdiffer : Differ (after Codec.tagged 3 timeouts staleRejection) "n1" "n2" "k" := by
      decide +kernel
    exact hdiffer.not_storesAgree (hmem _ (by decide)) (hmem _ (by decide))

end SimCluster

end Ferrium
