import Ferrium.Raft.Office
import Ferrium.Server.Answers
import Ferrium.Server.Fleet

/-!
# Where clients are redirected to

A client that is told `NotLeader` is given the node that the driver's own node takes for the leader,
if it knows of one. Nobody checks whether that node is still in office, or has ever been: the name
comes out of a message.

In every run the name is that of another member, which has been leader of the very term that the
redirecting node is in. Votes that are given twice in a term do not matter for this, nor does what
is lost or late on the network.

## Main results

* `Fleet.Informed.step`: what a round keeps;
* `Fleet.redirects_to_leader`: who a client is redirected to.
-/

namespace Ferrium

open StorageEngine

variable {σ δ : Type*}

/-- The leader that the event of a round tells the node about, with its term. -/
def DriverEvent.leadership : DriverEvent δ → Option (NodeId × ℕ)
  | .inbound _ message => message.leadership
  | .request (.peer _ message) => message.leadership
  | .tick | .request (.propose _ _) | .request .status => none

namespace Driver

variable {codec : Codec} {d : Driver σ δ}

/-- What the event of a round does to the node: a call, or nothing at all. -/
theorem exists_input (codec : Codec) (d : Driver σ δ) (event : DriverEvent δ) :
    (∃ e, event.leadership = e.leadership ∧ (d.handle codec event).1.node = d.node.input e) ∨
      event = .request .status := by
  match event with
  | .tick => exact Or.inl ⟨.tick, rfl, rfl⟩
  | .inbound sender message => exact Or.inl ⟨.step sender message, rfl, rfl⟩
  | .request (.peer sender message) => exact Or.inl ⟨.step sender message, rfl, rfl⟩
  | .request (.propose command done) =>
    exact Or.inl ⟨.propose (codec.encode command), rfl, d.node_handle_propose codec command done⟩
  | .request .status => exact Or.inr rfl

variable [StorageEngine σ]

/-- What a round does to role, term and leader. -/
theorem moves_next (codec : Codec) (d : Driver σ δ) (event : DriverEvent δ) :
    RaftNode.Moves event.leadership d.node (d.next codec event).node := by
  rw [node_next]
  rcases d.exists_input codec event with ⟨e, hclaim, hnode⟩ | rfl
  · rw [hnode, hclaim]
    exact (d.node.moves_input e).takeReady
  · exact RaftNode.Moves.takeReady (.rests rfl rfl rfl)

/-- A round sends no claim to lead but that of a leader of the term. -/
theorem leads_of_leadership (hold : d.node.outgoing = []) {event : DriverEvent δ} {env : Envelope}
    (henv : env ∈ (d.handle codec event).1.node.outgoing) {l : NodeId} {T : ℕ}
    (h : env.message.leadership = some (l, T)) :
    (d.next codec event).node.role = .leader ∧ (d.next codec event).node.currentTerm = T := by
  rw [node_next, RaftNode.takeReady_eq]
  rcases d.exists_input codec event with ⟨e, -, hnode⟩ | rfl
  · rw [hnode] at henv ⊢
    exact RaftNode.leads_of_leadership hold henv h
  · have hnil : env ∈ d.node.outgoing := henv
    rw [hold] at hnil
    cases hnil

end Driver

namespace Fleet

variable [StorageEngine σ] {codec : Codec} {S : Setup} {f : Fleet σ δ} {e : FleetEvent δ}

/-! ### Well-formed cores -/

/-- A round keeps the cluster of the nodes well-formed. -/
theorem wellFormed_step (h : Cluster.WellFormed S False f.core) (he : Enabled codec S f e) :
    Cluster.WellFormed S False (f.step codec e).core := by
  have hinput : Cluster.WellFormed S False (f.afterInput codec e) := by
    cases hcase : coreInput codec e.node e.event with
    | none => simpa only [afterInput, hcase] using h
    | some input => simpa only [afterInput, hcase] using h.step (he.2 input hcase) False.elim
  rw [core_step]
  exact hinput.step he.1 False.elim

omit [StorageEngine σ] in
/-- A claim to lead that a node is told about was sent to it by another member. -/
theorem exists_packet_of_leadership (h : Cluster.WellFormed S False f.core)
    (he : Enabled codec S f e) {l : NodeId} {T : ℕ} (hclaim : e.event.leadership = some (l, T)) :
    ∃ p ∈ f.sent, p.message.leadership = some (l, T) ∧ l ∈ S.members ∧ l ≠ e.node := by
  have hpacket : ∀ sender message, message.leadership = some (l, T) →
      Cluster.Enabled S f.core (.deliver ⟨sender, e.node, message⟩) →
      ∃ p ∈ f.sent, p.message.leadership = some (l, T) ∧ l ∈ S.members ∧ l ≠ e.node := by
    intro sender message hmessage ⟨_, hsent⟩
    have hsrc := h.sent_src _ hsent
    obtain ⟨-, hne, hauthor⟩ := h.addressed _ hsrc _ (Cluster.mem_emittedBy_of_sent hsent)
    -- the message names its sender, which does not send to itself
    obtain rfl : sender = l := hauthor.symm.trans (Message.leadership_eq hmessage).1
    exact ⟨_, hsent, hmessage, hsrc, hne.symm⟩
  obtain ⟨i, event⟩ := e
  match event, hclaim, he with
  | .inbound sender message, hclaim, he => exact hpacket sender message hclaim (he.2 _ rfl)
  | .request (.peer sender message), hclaim, he =>
    exact hpacket sender message hclaim (he.2 _ rfl)

/-! ### What nodes know about leaders -/

variable {led led' : NodeId → ℕ → Prop}

/-- Whoever is taken for a leader, or has claimed to be one, is known as one by `led`, for the term
at hand. A node takes itself for the leader exactly if it is. -/
structure Informed (S : Setup) (led : NodeId → ℕ → Prop) (f : Fleet σ δ) : Prop where
  drained : ∀ i, (f.drivers i).node.outgoing = []
  known : ∀ i ∈ S.members, ∀ l ∈ (f.drivers i).node.leaderId,
    l ∈ S.members ∧ led l (f.drivers i).node.currentTerm
  own : ∀ i ∈ S.members, (f.drivers i).node.leaderId = some i ↔
    (f.drivers i).node.role = .leader
  claimed : ∀ p ∈ f.sent, ∀ l T, p.message.leadership = some (l, T) → led l T

omit [StorageEngine σ] in
theorem informed_init (storage : σ) : Informed S led (init S storage : Fleet σ δ) where
  drained _ := rfl
  known _ _ l hl := by cases hl
  own _ _ := ⟨(by cases ·), (by cases ·)⟩
  claimed _ hp := absurd hp List.not_mem_nil

/-- What the node of the round knows afterwards. -/
theorem Informed.known_next (h : Informed S led f) (hwf : Cluster.WellFormed S False f.core)
    (he : Enabled codec S f e) (hmono : ∀ l T, led l T → led' l T)
    (hleads : ((f.drivers e.node).next codec e.event).node.role = .leader →
      led' e.node ((f.drivers e.node).next codec e.event).node.currentTerm) {l : NodeId}
    (hl : l ∈ ((f.drivers e.node).next codec e.event).node.leaderId) :
    l ∈ S.members ∧ led' l ((f.drivers e.node).next codec e.event).node.currentTerm := by
  have hid : (f.drivers e.node).node.id = e.node := hwf.id_eq e.node he.1
  cases (f.drivers e.node).moves_next codec e.event with
  | rests role_eq term_eq leader_eq =>
    rw [leader_eq] at hl
    rw [term_eq]
    exact (h.known e.node he.1 l hl).imp_right (hmono l _)
  | follows role_eq term_le leader =>
    obtain ⟨p, hp, hclaim, hmem, -⟩ := exists_packet_of_leadership hwf he (leader l hl)
    exact ⟨hmem, hmono l _ (h.claimed p hp l _ hclaim)⟩
  | stands role_eq term_eq leader_eq =>
    rw [leader_eq] at hl
    cases hl
  | wins role_eq leader_eq start =>
    rw [leader_eq, hid] at hl
    obtain rfl := Option.some.inj (Option.mem_def.mp hl)
    exact ⟨he.1, hleads role_eq⟩

/-- The node of the round takes itself for the leader exactly if it is. -/
theorem Informed.own_next (h : Informed S led f) (hwf : Cluster.WellFormed S False f.core)
    (he : Enabled codec S f e) :
    ((f.drivers e.node).next codec e.event).node.leaderId = some e.node ↔
      ((f.drivers e.node).next codec e.event).node.role = .leader := by
  have hid : (f.drivers e.node).node.id = e.node := hwf.id_eq e.node he.1
  cases (f.drivers e.node).moves_next codec e.event with
  | rests role_eq term_eq leader_eq =>
    rw [role_eq, leader_eq]
    exact h.own e.node he.1
  | follows role_eq term_le leader =>
    rw [role_eq]
    refine ⟨fun hown => ?_, (by cases ·)⟩
    obtain ⟨_, -, -, -, hne⟩ := exists_packet_of_leadership hwf he (leader e.node hown)
    exact absurd rfl hne
  | stands role_eq term_eq leader_eq =>
    rw [role_eq, leader_eq]
    exact ⟨(by cases ·), (by cases ·)⟩
  | wins role_eq leader_eq start =>
    rw [role_eq, leader_eq, hid]
    exact ⟨fun _ => rfl, fun _ => rfl⟩

/-- **What a round keeps**, if the leaders that `led'` knows are those of `led` and, if it is one
now, the node of the round. -/
theorem Informed.step (h : Informed S led f) (hwf : Cluster.WellFormed S False f.core)
    (he : Enabled codec S f e) (hmono : ∀ l T, led l T → led' l T)
    (hleads : ((f.drivers e.node).next codec e.event).node.role = .leader →
      led' e.node ((f.drivers e.node).next codec e.event).node.currentTerm) :
    Informed S led' (f.step codec e) where
  drained i := by
    rcases eq_or_ne i e.node with rfl | hne
    · rw [drivers_step_self, Driver.node_next, RaftNode.takeReady_eq]
    · rw [drivers_step_of_ne codec f hne]
      exact h.drained i
  known i hi l hl := by
    rcases eq_or_ne i e.node with rfl | hne
    · rw [drivers_step_self] at hl ⊢
      exact h.known_next hwf he hmono hleads hl
    · rw [drivers_step_of_ne codec f hne] at hl ⊢
      exact (h.known i hi l hl).imp_right (hmono l _)
  own i hi := by
    rcases eq_or_ne i e.node with rfl | hne
    · rw [drivers_step_self]
      exact h.own_next hwf he
    · rw [drivers_step_of_ne codec f hne]
      exact h.own i hi
  claimed p hp l T hclaim := by
    rcases List.mem_append.mp hp with hold | hnew
    · exact hmono l T (h.claimed p hold l T hclaim)
    · -- a message of this round: its sender is leader at the end of the round
      have hauthor : p.message.author = e.node := by
        have hwf' := wellFormed_step hwf he
        have hsent : p ∈ (f.step codec e).core.sent := hp
        have haddressed := hwf'.addressed _ (hwf'.sent_src p hsent) _
          (Cluster.mem_emittedBy_of_sent hsent)
        obtain ⟨env, -, rfl⟩ := List.mem_map.mp hnew
        exact haddressed.2.2
      obtain rfl : e.node = l := hauthor.symm.trans (Message.leadership_eq hclaim).1
      obtain ⟨env, henv, rfl⟩ := List.mem_map.mp hnew
      obtain ⟨env', henv', rfl⟩ := List.mem_map.mp henv
      rw [RaftNode.messages_ready] at henv'
      rw [Message.leadership_fillSnapshot] at hclaim
      obtain ⟨hrole, hterm⟩ := Driver.leads_of_leadership (h.drained e.node) henv' hclaim
      exact hterm ▸ hleads hrole

/-! ### Whole runs -/

variable (codec S) (storage : σ) {cond : Fleet σ δ → FleetEvent δ → Prop}

/-- At some moment of the run, node `l` has been leader in term `T`. -/
def Led (events : List (FleetEvent δ)) (l : NodeId) (T : ℕ) : Prop :=
  ∃ before, before <+: events ∧
    ((after codec S storage before).drivers l).node.role = .leader ∧
    ((after codec S storage before).drivers l).node.currentTerm = T

variable {codec S storage} {events : List (FleetEvent δ)}

theorem Led.concat {l : NodeId} {T : ℕ} (h : Led codec S storage events l T) :
    Led codec S storage (events ++ [e]) l T := by
  obtain ⟨before, hp, hleads⟩ := h
  exact ⟨before, hp.trans (List.prefix_append _ _), hleads⟩

theorem IsRun.wellFormed (h : IsRun codec S cond storage events) :
    Cluster.WellFormed S False (after codec S storage events).core := by
  have hround : ∀ (f : Fleet σ δ) e, Enabled codec S f e ∧ cond f e →
      Cluster.WellFormed S False f.core → Cluster.WellFormed S False (f.step codec e).core :=
    fun _ _ hg hwf => wellFormed_step hwf hg.1
  exact Run.Guarded.invariant hround h Cluster.wellFormed_init

/-- Whoever is taken for a leader has been one, at every moment of every run. -/
theorem IsRun.informed (h : IsRun codec S cond storage events) :
    Informed S (Led codec S storage events) (after codec S storage events) := by
  induction events using List.reverseRecOn with
  | nil => exact informed_init storage
  | append_singleton events e ih =>
    obtain ⟨hbefore, hlast⟩ := Run.guarded_append.mp h
    rw [after_concat]
    refine (ih hbefore).step (IsRun.wellFormed hbefore) hlast.1.1 (fun l T hled => hled.concat) ?_
    -- the moment that is looked for is the end of this round
    intro hrole
    refine ⟨events ++ [e], List.prefix_rfl, ?_, ?_⟩ <;> rw [after_concat, drivers_step_self]
    exact hrole

/-- **A client is redirected to another member**, which at some moment of the run has been leader of
the term that the redirecting node is in. -/
theorem redirects_to_leader (h : IsRun codec S cond storage (events ++ [e])) {ans : Answer δ}
    (hans : ans ∈ (after codec S storage events).answers codec e) {l : NodeId}
    (hl : ans.outcome = .notLeader (some l)) :
    l ∈ S.members ∧ l ≠ e.node ∧ Led codec S storage (events ++ [e]) l
      ((after codec S storage (events ++ [e])).drivers e.node).node.currentTerm := by
  have he : e.node ∈ S.members := (Run.guarded_append.mp h).2.1.1.1
  have hinformed := IsRun.informed h
  -- in both cases it is what the node knows when the round is over
  obtain ⟨hrole, hleader⟩ :
      ((after codec S storage (events ++ [e])).drivers e.node).node.role ≠ .leader ∧
      ((after codec S storage (events ++ [e])).drivers e.node).node.leaderId = some l := by
    rw [after_concat, drivers_step_self, Driver.node_next]
    rcases List.mem_append.mp hans with hnow | hready
    · obtain ⟨command, hevent, hrole, heq⟩ := Driver.mem_answers_handle hnow
      rw [heq] at hl
      rw [hevent, Driver.node_handle_propose, RaftNode.propose_of_ne_leader _ _ hrole,
        RaftNode.takeReady_eq]
      exact ⟨hrole, ProposeOutcome.notLeader.inj hl⟩
    · rcases Driver.mem_answers_processReady hready with
        ⟨_, _, -, -, heq⟩ | ⟨_, -, -, hrole, heq⟩ <;> rw [heq] at hl
      · cases hl
      · exact ⟨hrole, ProposeOutcome.notLeader.inj hl⟩
  obtain ⟨hmem, hled⟩ := hinformed.known e.node he l hleader
  refine ⟨hmem, ?_, hled⟩
  rintro rfl
  exact hrole ((hinformed.own _ he).mp hleader)

/-- Node `n1` is elected and takes a write, of which `n2` hears. -/
def announced : List (FleetEvent Unit) :=
  firstElected ++
    [writes "n1" 1, receives "n2" "n1" (.appendEntries ⟨1, "n1", 0, 0, [⟨1, bytes 1⟩], 0⟩)]

/-- A client that writes to `n2` is redirected to `n1`. -/
theorem redirects_to_leader_announced :
    "n1" ∈ threeDrivers.members ∧ "n1" ≠ (writes "n2" 2).node ∧
      Led Codec.tagged threeDrivers MemoryEngine.new (announced ++ [writes "n2" 2]) "n1"
        ((after Codec.tagged threeDrivers MemoryEngine.new
          (announced ++ [writes "n2" 2])).drivers (writes "n2" 2).node).node.currentTerm := by
  have hrun : IsRun Codec.tagged threeDrivers (CoreFollows Codec.tagged) MemoryEngine.new
      (announced ++ [writes "n2" 2]) := by
    decide +kernel
  have hans : ⟨(), .notLeader (some "n1"), none, none⟩ ∈
      (after Codec.tagged threeDrivers MemoryEngine.new announced).answers Codec.tagged
        (writes "n2" 2) := by
    decide +kernel
  exact redirects_to_leader hrun hans rfl

end Fleet

end Ferrium
