import Ferrium.Cluster.Coverage
import Ferrium.Net.Client
import Ferrium.Server.Answers
import Ferrium.Server.Fleet

/-!
# Reads on the leader

`dispatch` answers a GET from the store of its node, whatever this node knows about the cluster. The
store of a leader has everything that any client has been told to be committed, unless the leader is
behind another node: because the others have gone on in a later term without its noticing, or
because it has just been elected and does not yet know what of its log is committed.

A client is served at any moment, also between two of the commands that a round of the driver
applies, and while other drivers are at work. A `Moment` is therefore given by the last round of the
node, by how much of what this round hands out has been applied, and by what the other nodes have
done since.

## Main results

* `Fleet.readsAcknowledged_of_notBehind`: a GET on a leader that is not behind any other node
  reflects every SET that has been acknowledged, in every run in which nothing else goes wrong;
* `Fleet.not_readsAcknowledged_deposedLeader`: not on every leader.
-/

namespace Ferrium

open StorageEngine TermLog RaftLog

namespace Fleet

/-- A moment at which a client is served by a node: the last round of the node, with what came
before it, how many of the things that it hands out have been applied, and the rounds of the other
nodes since. -/
structure Moment (δ : Type*) where
  before : List (FleetEvent δ)
  round : FleetEvent δ
  applied : ℕ
  meanwhile : List (FleetEvent δ)

namespace Moment

variable {σ δ : Type*} [StorageEngine σ] (codec : Codec) (S : Setup) (storage : σ)

omit [StorageEngine σ] in
/-- The rounds until the moment. -/
def events (m : Moment δ) : List (FleetEvent δ) :=
  m.before ++ m.round :: m.meanwhile

omit [StorageEngine σ] in
/-- It is a moment of the run. -/
def IsOf (events : List (FleetEvent δ)) (m : Moment δ) : Prop :=
  m.events <+: events ∧ ∀ e ∈ m.meanwhile, e.node ≠ m.round.node

/-- The drivers before the round. -/
def fleet (m : Moment δ) : Fleet σ δ :=
  after codec S storage m.before

/-- The driver of the node when it has handled the event of the round. -/
def handled (m : Moment δ) : Driver σ δ :=
  (((m.fleet codec S storage).drivers m.round.node).handle codec m.round.event).1

/-- What has been applied of what the round hands out. -/
def items (m : Moment δ) : List Committed :=
  (handedOut codec (m.fleet codec S storage) m.round).take m.applied

/-- The driver of the node at the moment, and whom it has told in this round that something is
committed. -/
def current (m : Moment δ) : Driver σ δ × List (Answer δ) :=
  Driver.applyAll codec
    { m.handled codec S storage with node := (m.handled codec S storage).node.takeReady }
    (m.items codec S storage)

/-- The position that the store of the node is in at the moment. -/
def position (m : Moment δ) : ℕ :=
  reached ((m.fleet codec S storage).drivers m.round.node).node.lastApplied
    (m.items codec S storage)

/-- What clients have been answered until the moment. -/
def answers (m : Moment δ) : List (Answer δ) :=
  Run.outputs (step codec) (Fleet.answers codec) (init S storage) m.before ++
    ((m.current codec S storage).2 ++
      Run.outputs (step codec) (Fleet.answers codec) (after codec S storage (m.before ++ [m.round]))
        m.meanwhile)

/-- The reply to a GET at the moment is what a command that writes the key has left there, at the
index or a later one of the committed log. -/
def Reflects (m : Moment δ) (key : String) (index : ℕ) : Prop :=
  ∃ q ≥ index, ∃ j bytes value,
    (j, .command q bytes) ∈ (after codec S storage m.events).handed ∧
      codec.Writes bytes key value ∧
      ∀ handle : Handle σ, handle.storage = (m.current codec S storage).1.storage →
        dispatch handle (.get key) = valueFrame value

/-- No other node has applied more than the store of this one has at the moment. -/
def NotBehind (m : Moment δ) : Prop :=
  ∀ j ∈ S.members, j ≠ m.round.node →
    ((after codec S storage m.events).drivers j).node.lastApplied ≤ m.position codec S storage

end Moment

variable {σ δ : Type*} [StorageEngine σ] (codec : Codec) (owner : δ → WriteCommand)

/-- A GET on a leader, at the moments that satisfy `cond`, reflects every SET of the key that has
been acknowledged. -/
def ReadsAcknowledged (S : Setup) (cond : Moment δ → Prop) (storage : σ)
    (events : List (FleetEvent δ)) : Prop :=
  ∀ m : Moment δ, m.IsOf events → (m.current codec S storage).1.node.role = .leader → cond m →
    ∀ ans ∈ m.answers codec S storage, ans.outcome = .committed →
      ∀ key value, owner ans.done = .set key value →
        ∃ index, ans.index = some index ∧ m.Reflects codec S storage key index

omit [StorageEngine σ] in
/-- Every client waits for what it has proposed, no message replaces it, and the round follows the
protocol and sends snapshots only of the position that the store is in. -/
def Serves (f : Fleet σ δ) (e : FleetEvent δ) : Prop :=
  Driver.OwnsProposal owner e.event ∧ Driver.KeepsWaited (f.drivers e.node) e.event ∧
    InTime codec f e

omit [StorageEngine σ] in
instance decidableServes (f : Fleet σ δ) (e : FleetEvent δ) :
    Decidable (Serves codec owner f e) :=
  inferInstanceAs (Decidable (_ ∧ _))

/-! ### Rounds -/

variable {codec owner} {S : Setup} {contents₀ : Contents} {f : Fleet σ δ} {e : FleetEvent δ}
variable {a a' : State NodeId LogEntry} {storage : σ} {events : List (FleetEvent δ)}

/-- What the drivers keep in a run that serves its clients: the stores agree, a waiting client finds
what it waits for, and everything that has been applied, or is in a snapshot on its way, has been
handed out. -/
structure Served (codec : Codec) (owner : δ → WriteCommand) (contents₀ : Contents) (S : Setup)
    (f : Fleet σ δ) (a : State NodeId LogEntry) : Prop extends Agreed codec contents₀ S f a where
  rests : ∀ i, Driver.Rests codec owner (f.drivers i)
  covered : ∀ i ∈ S.members, Cluster.Covered S f.handed a (f.drivers i).node.lastApplied
  carried : ∀ src dst m, ⟨src, dst, .installSnapshot m⟩ ∈ f.sent →
    Cluster.Covered S f.handed a m.lastIncludedIndex

omit [StorageEngine σ] in
/-- The input of a round leaves what is applied, or puts the node ahead by a snapshot that was
sent. -/
theorem lastApplied_afterInput (href : Cluster.Refines Cluster.strictChecks S f.core a)
    (henabled : Enabled codec S f e) (hfollows : CoreFollows codec f e) {i : NodeId}
    (hi : i ∈ S.members) :
    ((f.afterInput codec e).nodes i).lastApplied = (f.drivers i).node.lastApplied ∨
      ∃ src m, ⟨src, i, .installSnapshot m⟩ ∈ f.sent ∧
        ((f.afterInput codec e).nodes i).lastApplied = m.lastIncludedIndex ∧
        (f.drivers i).node.lastApplied ≤ m.lastIncludedIndex := by
  unfold afterInput
  cases hinput : coreInput codec e.node e.event with
  | none => exact Or.inl rfl
  | some input =>
    obtain ⟨-, -, -, hsuffix⟩ := hfollows input hinput
    exact href.lastApplied_step (henabled.2 input hinput) hsuffix (coreInput_ne_takeReady hinput) hi

/-- What a node has applied after a round: everything that is committed, if the round is its
own. -/
theorem lastApplied_step (href : Cluster.Refines Cluster.strictChecks S (f.afterInput codec e) a)
    (henabled : Enabled codec S f e) (i : NodeId) :
    ((f.step codec e).drivers i).node.lastApplied =
      if i = e.node then ((f.afterInput codec e).nodes i).commitIndex
      else (f.drivers i).node.lastApplied := by
  split
  · next heq =>
    subst heq
    have hle := ((href.node _ henabled.1).applied trivial).2
    rw [drivers_step_self, Driver.node_next, node_handle, RaftNode.takeReady_eq]
    exact Nat.add_sub_cancel' hle
  · next hne => rw [drivers_step_of_ne codec f hne]

/-- **A round keeps what the clients are served from.** -/
theorem Served.step [LawfulStorageEngine σ] (h : Served codec owner contents₀ S f a)
    (henabled : Enabled codec S f e) (hserves : Serves codec owner f e)
    (hmid : Midway codec contents₀ S f e a a') :
    Served codec owner contents₀ S (f.step codec e) a' := by
  obtain ⟨howns, hkeep, hfollows, hfills⟩ := hserves
  have hg := hmid.grows
  have href := hmid.refines
  have hsub : f.handed ⊆ (f.step codec e).handed := List.subset_append_left _ _
  have hagreed := hmid.agreed h.toAgreed henabled hfills
  refine { hagreed with rests := fun i => ?_, covered := fun i hi => ?_, carried := ?_ }
  · rcases eq_or_ne i e.node with rfl | hne
    · rw [drivers_step_self]
      exact ((h.rests e.node).step howns hkeep).1
    · rw [drivers_step_of_ne codec f hne]
      exact h.rests i
  · rw [lastApplied_step href henabled]
    split
    · next heq =>
      subst heq
      -- what was applied before the apply loop is covered, by the node itself or by a snapshot
      have hbefore : Cluster.Covered S (f.step codec e).handed a'
          ((f.afterInput codec e).nodes e.node).lastApplied := by
        rcases lastApplied_afterInput h.refines henabled hfollows hi with
          heq | ⟨src, m, hsent, heq, -⟩
        · exact heq ▸ (h.covered _ hi).mono hg hsub
        · exact heq ▸ (h.carried src _ m hsent).mono hg hsub
      refine hbefore.newlyApplied (href.node _ hi) trivial fun item hitem => ?_
      refine List.mem_append_right _ (List.mem_map_of_mem ?_)
      rw [node_handle, RaftNode.committed_ready]
      exact List.mem_append_right _ hitem
    · exact (h.covered i hi).mono hg hsub
  · intro src dst m hmem
    rcases mem_sent_step hfills hmem with hold | ⟨hposition, -⟩
    · exact (h.carried src dst m hold).mono hg hsub
    · exact hposition ▸ (h.covered _ henabled.1).mono hg hsub

/-- No node goes back in a round. -/
theorem lastApplied_le_step (href : Cluster.Refines Cluster.strictChecks S f.core a)
    (hmid : Cluster.Refines Cluster.strictChecks S (f.afterInput codec e) a')
    (henabled : Enabled codec S f e) (hfollows : CoreFollows codec f e) {i : NodeId}
    (hi : i ∈ S.members) :
    (f.drivers i).node.lastApplied ≤ ((f.step codec e).drivers i).node.lastApplied := by
  rw [lastApplied_step hmid henabled]
  split
  · have happlied := ((hmid.node i hi).applied trivial).2
    rcases lastApplied_afterInput href henabled hfollows hi with heq | ⟨-, m, -, heq, hle⟩ <;> omega
  · exact le_rfl

theorem served_init (storage : σ) :
    Served codec owner (get storage) S (init S storage : Fleet σ δ) State.init :=
  { agreed_init storage with
    rests := fun _ => Driver.rests_new
    covered := fun _ _ q hpos hle => by
      have hzero : q ≤ 0 := hle
      omega
    carried := fun _ _ _ hmem => by cases hmem }

/-- **A run keeps what the clients are served from**, and no node goes back. -/
theorem Served.exec [LawfulStorageEngine σ] (h : Served codec owner contents₀ S f a)
    (hg : Run.Guarded (Fleet.step codec)
      (fun f e => Enabled codec S f e ∧ Serves codec owner f e) f events) :
    ∃ a', Served codec owner contents₀ S (Run.exec (Fleet.step codec) f events) a' ∧ Grows a a' ∧
      ∀ i ∈ S.members, (f.drivers i).node.lastApplied ≤
        ((Run.exec (Fleet.step codec) f events).drivers i).node.lastApplied := by
  induction events generalizing f a with
  | nil => exact ⟨a, h, Grows.refl a, fun _ _ => le_rfl⟩
  | cons e events ih =>
    obtain ⟨⟨henabled, hserves⟩, hrest⟩ := hg
    have hfollows := hserves.2.2.1
    obtain ⟨a₁, hmid⟩ := h.toAgreed.input henabled hfollows
    obtain ⟨a₂, h₂, hg₂, hle₂⟩ := ih (h.step henabled hserves hmid) hrest
    refine ⟨a₂, h₂, hmid.grows.trans hg₂, fun i hi => ?_⟩
    exact (lastApplied_le_step h.refines hmid.refines henabled hfollows hi).trans (hle₂ i hi)

omit [StorageEngine σ] in
/-- A round after whose event the node is leader has installed no snapshot. -/
theorem applied_of_leader (hrole : ((f.afterInput codec e).nodes e.node).role = .leader) :
    ((f.afterInput codec e).nodes e.node).lastApplied = (f.drivers e.node).node.lastApplied ∧
      ((f.afterInput codec e).nodes e.node).committed = (f.drivers e.node).node.committed := by
  cases hinput : coreInput codec e.node e.event with
  | none =>
    have hcore : f.afterInput codec e = f.core := by simp only [afterInput, hinput]
    rw [hcore]
    exact ⟨rfl, rfl⟩
  | some input =>
    have hcore : f.afterInput codec e = f.core.step input := by simp only [afterInput, hinput]
    rw [hcore] at hrole ⊢
    rcases Cluster.applied_step (coreInput_ne_takeReady hinput) e.node with
      hsame | ⟨-, m, -, -, hinstalls⟩
    · exact hsame
    · rw [hinstalls.role] at hrole
      cases hrole

/-! ### Acknowledgements -/

/-- Whoever is told in a round that its write is committed waits for an index at which this write
has been handed out, and which the node has applied. -/
theorem Served.acknowledged (h : Served codec owner contents₀ S f a)
    (henabled : Enabled codec S f e) (hserves : Serves codec owner f e)
    (hmid : Midway codec contents₀ S f e a a') {ans : Answer δ} (hans : ans ∈ answers codec f e)
    (hcommitted : ans.outcome = .committed) :
    ∃ index, ans.index = some index ∧ codec.encode (owner ans.done) ≠ [] ∧
      (e.node, .command index (codec.encode (owner ans.done))) ∈ (f.step codec e).handed ∧
      index ≤ ((f.step codec e).drivers e.node).node.lastApplied := by
  obtain ⟨howns, hkeep, -⟩ := hserves
  have hhandled := (h.rests e.node).handled howns hkeep
  rcases List.mem_append.mp hans with hnow | hready
  · obtain ⟨command, -, -, heq⟩ := Driver.mem_answers_handle hnow
    rw [heq] at hcommitted
    cases hcommitted
  · rcases Driver.mem_answers_processReady hready with
      ⟨index, bytes, hmem, hwaiter, heq⟩ | ⟨_, -, -, -, heq⟩
    · -- what is handed out at the index is what the client has proposed
      obtain ⟨-, hle, hne, -⟩ := hhandled.of_mem_ready hmem
      obtain rfl := hhandled.eq_encode hmem hwaiter
      refine ⟨index, congrArg Answer.index heq, hne,
        List.mem_append_right _ (List.mem_map_of_mem hmem), ?_⟩
      rw [lastApplied_step hmid.refines henabled, if_pos rfl, ← node_handle]
      exact hle
    · rw [heq] at hcommitted
      cases hcommitted

/-- The same for a whole run: what was acknowledged stays handed out and applied. -/
theorem Served.acknowledged_exec [LawfulStorageEngine σ] (h : Served codec owner contents₀ S f a)
    (hg : Run.Guarded (Fleet.step codec)
      (fun f e => Enabled codec S f e ∧ Serves codec owner f e) f events) {ans : Answer δ}
    (hans : ans ∈ Run.outputs (Fleet.step codec) (answers codec) f events)
    (hcommitted : ans.outcome = .committed) :
    ∃ e ∈ events, ∃ index, ans.index = some index ∧ codec.encode (owner ans.done) ≠ [] ∧
      (e.node, .command index (codec.encode (owner ans.done))) ∈
        (Run.exec (Fleet.step codec) f events).handed ∧
      e.node ∈ S.members ∧
      index ≤ ((Run.exec (Fleet.step codec) f events).drivers e.node).node.lastApplied := by
  induction events generalizing f a with
  | nil => cases hans
  | cons e events ih =>
    obtain ⟨⟨henabled, hserves⟩, hrest⟩ := hg
    obtain ⟨a', hmid⟩ := h.toAgreed.input henabled hserves.2.2.1
    have hnext := h.step henabled hserves hmid
    rcases List.mem_append.mp hans with hnow | hlater
    · -- what holds after the round still holds at the end of the run
      obtain ⟨index, hindex, hne, hhanded, hle⟩ :=
        h.acknowledged henabled hserves hmid hnow hcommitted
      obtain ⟨-, -, -, hmono⟩ := hnext.exec hrest
      exact ⟨e, List.mem_cons_self, index, hindex, hne,
        handed_subset_exec _ events hhanded, henabled.1,
        hle.trans (hmono e.node henabled.1)⟩
    · obtain ⟨e', he', hrest'⟩ := ih hnext hrest hlater
      exact ⟨e', List.mem_cons_of_mem e he', hrest'⟩

/-! ### Moments -/

namespace Moment

variable {m : Moment δ}

/-- The node of the driver when it has handled the event of the round. -/
def raft (codec : Codec) (S : Setup) (storage : σ) (m : Moment δ) : RaftNode :=
  ((m.fleet codec S storage).afterInput codec m.round).nodes m.round.node

theorem node_handled (m : Moment δ) :
    (m.handled codec S storage).node = m.raft codec S storage :=
  node_handle codec _ _

/-- Applying what has been handed out does not change the role. -/
theorem role_current (m : Moment δ) :
    (m.current codec S storage).1.node.role = (m.raft codec S storage).role := by
  unfold current
  rw [Driver.node_applyAll]
  show (m.handled codec S storage).node.takeReady.role = _
  rw [RaftNode.takeReady_eq, node_handled]

theorem storage_current (m : Moment δ) :
    (m.current codec S storage).1.storage =
      (m.items codec S storage).foldl (Committed.applyTo codec)
        ((m.fleet codec S storage).drivers m.round.node).storage := by
  unfold current
  rw [Driver.storage_applyAll]
  show List.foldl _ (m.handled codec S storage).storage _ = _
  unfold handled
  rw [Driver.storage_handle]

/-- A moment of a run that serves its clients, with the abstract log before the last round of the
node, in the middle of it, and at the moment. -/
structure Traced (codec : Codec) (owner : δ → WriteCommand) (S : Setup) (storage : σ)
    (m : Moment δ) (a₀ a₁ a₂ : State NodeId LogEntry) : Prop where
  mem : m.round.node ∈ S.members
  before : Served codec owner (get storage) S (m.fleet codec S storage) a₀
  midway : Midway codec (get storage) S (m.fleet codec S storage) m.round a₀ a₁
  now : Served codec owner (get storage) S (after codec S storage m.events) a₂
  grows : Grows a₁ a₂
  /-- No node has gone back since the round. -/
  applied_le : ∀ i ∈ S.members, ((m.fleet codec S storage).drivers i).node.lastApplied ≤
    ((after codec S storage m.events).drivers i).node.lastApplied
  commit_le : (m.raft codec S storage).commitIndex ≤
    ((after codec S storage m.events).drivers m.round.node).node.lastApplied

variable {a₀ a₁ a₂ : State NodeId LogEntry}

/-- At a moment when the node is leader, the things that have been applied are those of some rounds
of the apply loop, and the position is the one that these rounds have reached. -/
theorem Traced.exists_rounds (h : m.Traced codec owner S storage a₀ a₁ a₂)
    (hrole : (m.current codec S storage).1.node.role = .leader) :
    ∃ r, (m.raft codec S storage).lastApplied + r ≤ (m.raft codec S storage).commitIndex ∧
      m.items codec S storage = (List.range' ((m.raft codec S storage).lastApplied + 1) r).flatMap
        (m.raft codec S storage).appliedAt ∧
      m.position codec S storage = (m.raft codec S storage).lastApplied + r := by
  rw [role_current] at hrole
  have hle : (m.raft codec S storage).lastApplied ≤ (m.raft codec S storage).commitIndex :=
    ((h.midway.refines.node _ h.mem).applied trivial).2
  obtain ⟨happlied, hcommitted⟩ := applied_of_leader hrole
  rw [h.before.drained] at hcommitted
  -- the round hands out what the apply loop passes, and nothing else
  have hready : handedOut codec (m.fleet codec S storage) m.round =
      (m.raft codec S storage).newlyApplied := by
    show (m.handled codec S storage).node.ready.committed = _
    rw [node_handled, RaftNode.committed_ready]
    show (((m.fleet codec S storage).afterInput codec m.round).nodes
      m.round.node).committed ++ _ = _
    rw [hcommitted, List.nil_append]
  have hp : m.items codec S storage <+: (m.raft codec S storage).newlyApplied := by
    rw [← hready]
    exact List.take_prefix _ _
  obtain ⟨r, hr, hitems, hreached⟩ := exists_rounds_of_isPrefix hp
  refine ⟨r, by omega, hitems, ?_⟩
  unfold position
  rw [← happlied]
  exact hreached

/-- The position is one that is committed. -/
theorem Traced.position_le (h : m.Traced codec owner S storage a₀ a₁ a₂)
    (hrole : (m.current codec S storage).1.node.role = .leader) :
    m.position codec S storage ≤ (m.raft codec S storage).commitIndex := by
  obtain ⟨r, hr, -, hposition⟩ := h.exists_rounds hrole
  exact hposition.trans_le hr

/-- The position is not behind what was applied before the round. -/
theorem Traced.applied_le_position (h : m.Traced codec owner S storage a₀ a₁ a₂)
    (hrole : (m.current codec S storage).1.node.role = .leader) :
    ((m.fleet codec S storage).drivers m.round.node).node.lastApplied ≤
      m.position codec S storage := by
  obtain ⟨r, -, -, hposition⟩ := h.exists_rounds hrole
  rw [role_current] at hrole
  have happlied := (applied_of_leader hrole).1
  rw [hposition, ← happlied]
  exact Nat.le_add_right _ r

/-- What has been applied in the round is within the position. -/
theorem Traced.le_position (h : m.Traced codec owner S storage a₀ a₁ a₂)
    (hrole : (m.current codec S storage).1.node.role = .leader) {index : ℕ} {bytes : List UInt8}
    (hitem : .command index bytes ∈ m.items codec S storage) :
    index ≤ m.position codec S storage := by
  obtain ⟨r, -, hitems, hposition⟩ := h.exists_rounds hrole
  rw [hitems] at hitem
  obtain ⟨k, hk, hat⟩ := List.mem_flatMap.mp hitem
  obtain ⟨entry, -, -, heq⟩ := RaftNode.mem_appliedAt.mp hat
  obtain ⟨rfl, -⟩ := Committed.command.inj heq
  have hrange := List.mem_range'_1.mp hk
  omega

/-- **At a moment when the node is leader**, its store has the contents for its position. -/
theorem Traced.settledAt [LawfulStorageEngine σ] (h : m.Traced codec owner S storage a₀ a₁ a₂)
    (hrole : (m.current codec S storage).1.node.role = .leader) :
    Cluster.SettledAt codec (get storage) S a₁ (m.position codec S storage)
      (get (m.current codec S storage).1.storage) := by
  obtain ⟨r, hr, hitems, hposition⟩ := h.exists_rounds hrole
  rw [role_current] at hrole
  have hcommitted := (applied_of_leader hrole).2
  rw [h.before.drained] at hcommitted
  have hrounds := h.midway.stored.rounds h.midway.refines trivial h.mem hr
  rw [hcommitted] at hrounds
  rw [hposition, storage_current, hitems]
  exact hrounds

theorem exists_traced [LawfulStorageEngine σ]
    (h : IsRun codec S (Serves codec owner) storage m.events) :
    ∃ a₀ a₁ a₂, m.Traced codec owner S storage a₀ a₁ a₂ := by
  obtain ⟨hbefore, ⟨henabled, hserves⟩, hmeanwhile⟩ := Run.guarded_append.mp h
  have hfollows := hserves.2.2.1
  obtain ⟨a₀, h₀, -⟩ := (served_init storage).exec hbefore
  obtain ⟨a₁, hmid⟩ := h₀.toAgreed.input henabled hfollows
  obtain ⟨a₂, h₂, hg₂, hle⟩ := (h₀.step henabled hserves hmid).exec hmeanwhile
  have hafter : after codec S storage m.events = Run.exec (Fleet.step codec)
      ((m.fleet codec S storage).step codec m.round) m.meanwhile := Run.exec_append _ _ _
  refine ⟨a₀, a₁, a₂, henabled.1, h₀, hmid, hafter ▸ h₂, hg₂, fun i hi => ?_, ?_⟩
  · rw [hafter]
    exact (lastApplied_le_step h₀.refines hmid.refines henabled hfollows hi).trans (hle i hi)
  · have hround := lastApplied_step hmid.refines henabled m.round.node
    rw [if_pos rfl] at hround
    rw [hafter]
    exact hround.ge.trans (hle _ henabled.1)

/-- **What has been acknowledged** is within the position of a leader that is not behind. -/
theorem acknowledged_le_position [LawfulStorageEngine σ]
    (h : IsRun codec S (Serves codec owner) storage m.events)
    (htraced : m.Traced codec owner S storage a₀ a₁ a₂)
    (hothers : ∀ e ∈ m.meanwhile, e.node ≠ m.round.node)
    (hrole : (m.current codec S storage).1.node.role = .leader)
    (hnot : m.NotBehind codec S storage) {ans : Answer δ} (hans : ans ∈ m.answers codec S storage)
    (hcommitted : ans.outcome = .committed) :
    ∃ index, ans.index = some index ∧ codec.encode (owner ans.done) ≠ [] ∧
      (∃ j, (j, .command index (codec.encode (owner ans.done))) ∈
        (after codec S storage m.events).handed) ∧
      index ≤ m.position codec S storage := by
  obtain ⟨hbefore, ⟨henabled, hserves⟩, hmeanwhile⟩ := Run.guarded_append.mp h
  have hafter : after codec S storage m.events = Run.exec (Fleet.step codec)
      ((m.fleet codec S storage).step codec m.round) m.meanwhile := Run.exec_append _ _ _
  -- what another node has applied is within the position, since this one is not behind
  have hother : ∀ {i index}, i ∈ S.members → i ≠ m.round.node →
      index ≤ ((after codec S storage m.events).drivers i).node.lastApplied →
      index ≤ m.position codec S storage := fun hi hne hle => hle.trans (hnot _ hi hne)
  rcases List.mem_append.mp hans with hpast | hans
  · obtain ⟨e, -, index, hindex, hne, hhanded, hmem, hle⟩ :=
      (served_init storage).acknowledged_exec hbefore hpast hcommitted
    refine ⟨index, hindex, hne, ⟨e.node, ?_⟩, ?_⟩
    · rw [hafter]
      exact handed_subset_exec _ _ (List.mem_append_left _ hhanded)
    · rcases eq_or_ne e.node m.round.node with heq | hne
      · rw [heq] at hle
        exact hle.trans (htraced.applied_le_position hrole)
      · exact hother hmem hne (hle.trans (htraced.applied_le _ hmem))
  · rcases List.mem_append.mp hans with hround | hlater
    · -- in this round only those have been answered whose command has been applied
      have hhandled := (htraced.before.rests m.round.node).handled hserves.1 hserves.2.1
      obtain ⟨index, bytes, hitem, hwaiter, heq⟩ := Driver.mem_answers_applyAll hround
      have hready := List.mem_of_mem_take hitem
      obtain ⟨-, -, hne, -⟩ := hhandled.of_mem_ready hready
      obtain rfl := hhandled.eq_encode hready hwaiter
      refine ⟨index, congrArg Answer.index heq, hne, ⟨m.round.node, ?_⟩,
        htraced.le_position hrole hitem⟩
      rw [hafter]
      exact handed_subset_exec _ _ (List.mem_append_right _ (List.mem_map_of_mem hready))
    · obtain ⟨e, he, index, hindex, hne, hhanded, hmem, hle⟩ :=
        (htraced.before.step henabled hserves htraced.midway).acknowledged_exec hmeanwhile
          (after_concat codec S storage m.before m.round ▸ hlater) hcommitted
      rw [← hafter] at hhanded hle
      exact ⟨index, hindex, hne, ⟨e.node, hhanded⟩, hother hmem (hothers e he) hle⟩

end Moment

/-- **Reads reflect what has been acknowledged** on a leader that is not behind any other node, in
every run that serves its clients. -/
theorem readsAcknowledged_of_notBehind [LawfulStorageEngine σ]
    (h : IsRun codec S (Serves codec owner) storage events) :
    ReadsAcknowledged codec owner S (Moment.NotBehind codec S storage) storage events := by
  rintro m ⟨hp, hothers⟩ hrole hnot ans hans hcommitted key value howner
  have hrun : IsRun codec S (Serves codec owner) storage m.events := Run.Guarded.of_isPrefix h hp
  obtain ⟨a₀, a₁, a₂, htraced⟩ := Moment.exists_traced hrun
  obtain ⟨index, hindex, hne, ⟨j, hhanded⟩, hle⟩ :=
    Moment.acknowledged_le_position hrun htraced hothers hrole hnot hans hcommitted
  have hnow := htraced.now
  -- the store has the contents for its position, and everything up to there was handed out
  have hstore := (htraced.settledAt hrole).mono htraced.grows
  have hcovered := (hnow.covered _ htraced.mem).of_le
    ((htraced.position_le hrole).trans htraced.commit_le)
  have hwrites : codec.Writes (codec.encode (owner ans.done)) key (some value) :=
    ⟨hne, _, codec.decode_encode _, by rw [howner]; exact if_pos rfl⟩
  obtain ⟨q, hq, j', bytes, hmem, hwrites'⟩ := hstore.exists_write hcovered
    (hnow.refines.complete trivial) hnow.refines.consistent
    (hnow.refines.handed trivial j index _ hhanded) hwrites hle
  refine ⟨index, hindex, q, hq, j', bytes, _, hmem, hwrites', fun handle hhandle => ?_⟩
  rw [dispatch_get, hhandle]

/-- What the client of the following runs writes. -/
def firstWrite (_ : Unit) : WriteCommand :=
  .set "k" [1]

/-- Node `n1` is elected and commits a write with the help of `n2`. -/
def acknowledged : Moment Unit where
  before := firstElected ++
    [writes "n1" 1, receives "n2" "n1" (.appendEntries ⟨1, "n1", 0, 0, [⟨1, bytes 1⟩], 0⟩)]
  round := receives "n1" "n2" (.appendEntriesReply ⟨1, "n2", true, 1, 0⟩)
  applied := 1
  meanwhile := []

theorem readsAcknowledged_acknowledged :
    IsRun Codec.tagged threeDrivers (Serves Codec.tagged firstWrite) MemoryEngine.new
        acknowledged.events ∧
      (acknowledged.current Codec.tagged threeDrivers MemoryEngine.new).1.node.role = .leader ∧
      acknowledged.answers Codec.tagged threeDrivers MemoryEngine.new =
        [⟨(), .committed, some 1, some (.command 1 (bytes 1))⟩] ∧
      acknowledged.NotBehind Codec.tagged threeDrivers MemoryEngine.new ∧
      ReadsAcknowledged Codec.tagged firstWrite threeDrivers
        (Moment.NotBehind Codec.tagged threeDrivers MemoryEngine.new) MemoryEngine.new
        acknowledged.events := by
  refine ⟨by decide +kernel, by decide +kernel, by decide +kernel, ?_,
    readsAcknowledged_of_notBehind (by decide +kernel)⟩
  unfold Moment.NotBehind
  decide +kernel

/-- While `n1` hears nothing, `n2` is elected by `n3` and commits a write. -/
def deposedLeader : Moment Unit where
  before := List.replicate 6 ⟨"n1", .tick⟩ ++ [receives "n2" "n1" (.requestVote ⟨1, "n1", 0, 0⟩)]
  round := receives "n1" "n2" (.requestVoteReply ⟨1, "n2", true⟩)
  applied := 0
  meanwhile := List.replicate 6 ⟨"n2", .tick⟩ ++
    [receives "n3" "n2" (.requestVote ⟨2, "n2", 0, 0⟩),
      receives "n2" "n3" (.requestVoteReply ⟨2, "n3", true⟩),
      writes "n2" 1,
      receives "n3" "n2" (.appendEntries ⟨2, "n2", 0, 0, [⟨2, bytes 1⟩], 0⟩),
      receives "n2" "n3" (.appendEntriesReply ⟨2, "n3", true, 1, 0⟩)]

/-- Node `n2` is elected when it has not yet heard that the write of `n1` is committed. -/
def freshLeader : Moment Unit where
  before := acknowledged.events ++ List.replicate 6 ⟨"n2", .tick⟩ ++
    [receives "n3" "n2" (.requestVote ⟨2, "n2", 1, 1⟩)]
  round := receives "n2" "n3" (.requestVoteReply ⟨2, "n3", true⟩)
  applied := 0
  meanwhile := []

/-- A GET that finds nothing reflects no SET, where nothing else has been handed out. -/
theorem Moment.not_reflects {m : Moment Unit} {index : ℕ}
    (hhanded : ∀ item ∈ (after Codec.tagged threeDrivers MemoryEngine.new m.events).handed,
      item.2 = .command 1 (bytes 1))
    (hnone : get (m.current Codec.tagged threeDrivers MemoryEngine.new).1.storage "k" = none) :
    ¬m.Reflects Codec.tagged threeDrivers MemoryEngine.new "k" index := by
  rintro ⟨q, -, j, data, value, hmem, ⟨-, command, hdecode, hwritten⟩, hreply⟩
  obtain ⟨-, rfl⟩ := Committed.command.inj (hhanded _ hmem)
  rw [bytes, Codec.decode_encode] at hdecode
  obtain rfl := Option.some.inj hdecode
  obtain rfl : some [1] = value := Option.some.inj hwritten
  have hframe := hreply ⟨_, [], fun _ => .committed, none⟩ rfl
  rw [dispatch_get, hnone] at hframe
  cases hframe

/-- A GET on a leader that has been deposed without its noticing, and one on a leader that has just
been elected, miss a SET that has been acknowledged. -/
theorem not_readsAcknowledged_deposedLeader :
    (IsRun Codec.tagged threeDrivers (Serves Codec.tagged firstWrite) MemoryEngine.new
        deposedLeader.events ∧
      ¬ReadsAcknowledged Codec.tagged firstWrite threeDrivers (fun _ => True) MemoryEngine.new
        deposedLeader.events) ∧
    IsRun Codec.tagged threeDrivers (Serves Codec.tagged firstWrite) MemoryEngine.new
        freshLeader.events ∧
      ¬ReadsAcknowledged Codec.tagged firstWrite threeDrivers (fun _ => True) MemoryEngine.new
        freshLeader.events := by
  refine ⟨⟨by decide +kernel, fun h => ?_⟩, by decide +kernel, fun h => ?_⟩
  · obtain ⟨index, -, hreflects⟩ := h deposedLeader ⟨List.prefix_rfl, by decide⟩
      (by decide +kernel) trivial ⟨(), .committed, some 1, some (.command 1 (bytes 1))⟩
      (by decide +kernel) rfl "k" [1] rfl
    exact Moment.not_reflects (by decide +kernel) (by decide +kernel) hreflects
  · obtain ⟨index, -, hreflects⟩ := h freshLeader ⟨List.prefix_rfl, by decide⟩
      (by decide +kernel) trivial ⟨(), .committed, some 1, some (.command 1 (bytes 1))⟩
      (by decide +kernel) rfl "k" [1] rfl
    exact Moment.not_reflects (by decide +kernel) (by decide +kernel) hreflects

end Fleet

end Ferrium
