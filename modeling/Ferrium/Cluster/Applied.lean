import Ferrium.Cluster.Accounting
import Ferrium.Raft.Inputs

/-!
# The order of what is applied

A node applies its log entry by entry, unless it is put ahead by a snapshot. The code lets itself be
put back: an InstallSnapshot is accepted however old it is, and an AppendEntries may cut the log
below the commit index, after which the apply loop passes over the missing entries. Apart from that
a node never goes back and leaves nothing out; this is a fact about each single node, whatever the
others do.
-/

namespace Ferrium

open RaftLog

/-- The commands that the message carries are not empty. -/
def Message.Filled : Message → Prop
  | .appendEntries m => ∀ e ∈ m.entries, e.command ≠ []
  | _ => True

theorem Message.Reads.filled {log : RaftLog} {message : Message} (h : message.Reads log)
    (hlog : ∀ e ∈ log.entries, e.command ≠ []) : message.Filled := by
  cases message with
  | appendEntries m => exact fun e he => hlog e (mem_of_mem_entriesFrom (h ▸ he))
  | _ => trivial

@[simp]
theorem Message.filled_fillSnapshot {data : List KeyValue} {message : Message} :
    (message.fillSnapshot data).Filled ↔ message.Filled := by
  cases message <;> rfl

/-! ### Following what a node hands out -/

/-- Follow what a node hands out, from a position on, where `snapshots` are the positions of the
snapshots among it. If every command is for the next index and no snapshot goes back, the result is
the position that is reached, and the snapshots that have not been met. -/
def position : ℕ → List Committed → List ℕ → Option (ℕ × List ℕ)
  | applied, [], snapshots => some (applied, snapshots)
  | applied, .command index _ :: items, snapshots =>
    if index = applied + 1 then position index items snapshots else none
  | applied, .snapshot _ :: items, index :: snapshots =>
    if applied ≤ index then position index items snapshots else none
  | _, .snapshot _ :: _, [] => none

theorem position_append {applied reached : ℕ} {items items' : List Committed}
    {snapshots rest snapshots' : List ℕ}
    (h : position applied items snapshots = some (reached, rest)) :
    position applied (items ++ items') (snapshots ++ snapshots') =
      position reached items' (rest ++ snapshots') := by
  fun_induction position applied items snapshots with
  | case1 applied snapshots =>
    obtain ⟨rfl, rfl⟩ : applied = reached ∧ snapshots = rest := by simpa using h
    rfl
  | case2 applied command items snapshots ih => simpa [position] using ih h
  | case3 => cases h
  | case4 applied data items index snapshots hle ih => simpa [position, hle] using ih h
  | case5 => cases h
  | case6 => cases h

/-- Nothing is wrong with a part if nothing is wrong with the whole. -/
theorem isSome_position_of_append {applied : ℕ} {items items' : List Committed}
    {snapshots : List ℕ} (h : (position applied (items ++ items') snapshots).isSome) :
    (position applied items snapshots).isSome := by
  fun_induction position applied items snapshots with
  | case1 => rfl
  | case2 applied command items snapshots ih => exact ih (by simpa [position] using h)
  | case3 applied index command items snapshots hne => simp [position, hne] at h
  | case4 applied data items index snapshots hle ih => exact ih (by simpa [position, hle] using h)
  | case5 applied data items index snapshots hlt => simp [position, hlt] at h
  | case6 => simp [position] at h

namespace RaftNode

variable {n n' : RaftNode}

/-- What is applied is committed, what is committed is in the log, and what is in the log is not
empty. -/
structure InOrder (n : RaftNode) : Prop where
  snapshot_le : n.log.snapshotIndex ≤ n.lastApplied
  applied_le : n.lastApplied ≤ n.commitIndex
  commit_le : n.commitIndex ≤ n.log.lastIndex
  filled : ∀ e ∈ n.log.entries, e.command ≠ []
  queued : ∀ env ∈ n.outgoing, env.message.Filled

/-- The node goes from `n` to `n'`, by way of the snapshots at the given positions. -/
structure Advances (n n' : RaftNode) (snapshots : List ℕ) : Prop where
  inOrder : n'.InOrder
  commit_le : n.commitIndex ≤ n'.commitIndex
  applied_le : n.lastApplied ≤ n'.lastApplied
  handed : ∃ items, n'.committed = n.committed ++ items ∧
    position n.lastApplied items snapshots = some (n'.lastApplied, [])

theorem InOrder.refl (h : n.InOrder) : Advances n n [] :=
  ⟨h, le_rfl, le_rfl, [], (List.append_nil _).symm, rfl⟩

theorem InOrder.chained (h : n.InOrder) : n.Chained :=
  ⟨h.snapshot_le, h.applied_le, h.commit_le⟩

theorem InOrder.keepsLog (h : n.InOrder) (hk : KeepsLog n n') : Advances n n' [] where
  inOrder :=
    { h.chained.keepsLog hk with
      filled := hk.log.symm ▸ h.filled
      queued := fun env henv =>
        (hk.queue env henv).elim (h.queued env) fun hr => hr.filled h.filled }
  commit_le := by rcases hk.commit with heq | ⟨hlt, -⟩ <;> omega
  applied_le := hk.lastApplied.ge
  handed := ⟨[], by rw [hk.committed, List.append_nil], by rw [hk.lastApplied]; rfl⟩

theorem InOrder.propose (h : n.InOrder) {command : List UInt8} (hcommand : command ≠ []) :
    Advances n (n.propose command).2 [] := by
  by_cases hrole : n.role = .leader
  · have happend : InOrder { n with log := n.log.append [n.newEntry command] } :=
      { h.chained.append [n.newEntry command] with
        queued := h.queued
        filled := fun e he => by
          rcases List.mem_append.mp he with hold | hnew
          · exact h.filled e hold
          · obtain rfl := List.mem_singleton.mp hnew
            exact hcommand }
    have hadv := happend.keepsLog (n.keepsLog_propose command hrole)
    exact ⟨hadv.inOrder, hadv.commit_le, hadv.applied_le, hadv.handed⟩
  · rw [propose_of_ne_leader n command hrole]
    exact h.refl

theorem InOrder.splices {m : AppendEntries} (h : n.InOrder) (hs : Splices n n' m)
    (hentries : ∀ e ∈ m.entries, e.command ≠ [])
    (hkeep : n.commitIndex ≤ (n.log.splice m.prevLogIndex m.entries).lastIndex) :
    Advances n n' [] := by
  have hfilled : ∀ e ∈ n'.log.entries, e.command ≠ [] := fun e he =>
    (mem_of_mem_splice (hs.log ▸ he)).elim (h.filled e) (hentries e)
  have hqueued : ∀ env ∈ n'.outgoing, env.message.Filled := fun env henv =>
    (hs.queue env henv).elim (h.queued env) fun hr => hr.filled hfilled
  refine ⟨{ h.chained.splices hs hkeep with filled := hfilled, queued := hqueued },
    (hs.commit_bounds hkeep).1, hs.lastApplied.ge, [], ?_, ?_⟩
  · rw [hs.committed, List.append_nil]
  · rw [hs.lastApplied]
    rfl

theorem InOrder.installs {m : InstallSnapshot} (h : n.InOrder) (hi : Installs n n' m)
    (hahead : n.commitIndex ≤ m.lastIncludedIndex) : Advances n n' [m.lastIncludedIndex] := by
  have happlied := h.applied_le.trans hahead
  have hempty : n'.log.entries = [] := congrArg RaftLog.entries hi.log
  have hfilled : ∀ e ∈ n'.log.entries, e.command ≠ [] := by simp [hempty]
  have hqueued : ∀ env ∈ n'.outgoing, env.message.Filled := fun env henv =>
    (hi.queue env henv).elim (h.queued env) fun hr => hr.filled hfilled
  refine ⟨{ hi.chained with filled := hfilled, queued := hqueued }, ?_, ?_, [.snapshot m.data],
    hi.committed, ?_⟩
  · rwa [hi.commit]
  · rwa [hi.lastApplied]
  · rw [position, if_pos happlied, hi.lastApplied]
    rfl

/-- The apply loop hands out one command for each index. -/
theorem InOrder.position_rounds (h : n.InOrder) (rounds : ℕ) {applied : ℕ}
    (hsnap : n.log.snapshotIndex ≤ applied) (hle : applied + rounds ≤ n.log.lastIndex) :
    position applied ((List.range' (applied + 1) rounds).flatMap n.appliedAt) [] =
      some (applied + rounds, []) := by
  induction rounds generalizing applied with
  | zero => rfl
  | succ rounds ih =>
    have hoffset : applied + 1 - n.log.snapshotIndex - 1 < n.log.entries.length := by
      unfold lastIndex at hle
      omega
    have hget : n.log.get (applied + 1) =
        some n.log.entries[applied + 1 - n.log.snapshotIndex - 1] := by
      rw [get_of_lt (by omega), List.getElem?_eq_getElem hoffset]
    have hfilled := h.filled _ (List.getElem_mem hoffset)
    rw [List.range'_succ, List.flatMap_cons, appliedAt_of_get hget hfilled, List.singleton_append,
      position, if_pos rfl, ih (by omega) (by omega)]
    congr 2
    omega

theorem InOrder.applyCommitted (h : n.InOrder) : Advances n n.applyCommitted [] := by
  have hchained := h.chained.applyCommitted
  rw [applyCommitted_eq] at hchained ⊢
  refine ⟨{ hchained with queued := h.queued, filled := fun e he => ?_ }, le_rfl,
    Nat.le_add_right _ _, n.newlyApplied, rfl, ?_⟩
  · replace he : e ∈ n.appliedLog.entries := he
    rcases n.appliedLog_cases with heq | heq <;> rw [heq] at he
    · exact h.filled e he
    · exact h.filled e (mem_of_mem_compact he)
  · have hle : n.lastApplied + (n.commitIndex - n.lastApplied) ≤ n.log.lastIndex :=
      h.chained.appliedIndex_eq.trans_le h.commit_le
    exact h.position_rounds _ h.snapshot_le hle

end RaftNode

namespace Cluster

variable {S : Setup} {c c' c'' : Cluster} {i : NodeId} {es : List Event} {snapshots : List ℕ}

/-- What node `i` has handed out. -/
def handedBy (c : Cluster) (i : NodeId) : List Committed :=
  (c.handed.filter (·.1 = i)).map (·.2)

/-- What node `i` has handed out or has ready to be handed out. -/
def produced (c : Cluster) (i : NodeId) : List Committed :=
  c.handedBy i ++ (c.nodes i).committed

/-- The position of the snapshot that node `i` installs in an event. -/
def snapshotsOf (c : Cluster) (i : NodeId) : Event → List ℕ
  | .deliver ⟨_, f, .installSnapshot m⟩ =>
    if f = i ∧ (c.nodes f).currentTerm ≤ m.term then [m.lastIncludedIndex] else []
  | _ => []

/-- The positions of the snapshots that node `i` installs in a run, in their order. A snapshot that
is handed out does not carry its position. -/
def installed (i : NodeId) : Cluster → List Event → List ℕ
  | _, [] => []
  | c, e :: es => c.snapshotsOf i e ++ installed i (c.step e) es

/-- The commands that are proposed are not empty. -/
def ProposesCommand (_ : Cluster) : Event → Prop
  | .propose _ command => command ≠ []
  | _ => True

instance decidableProposesCommand (c : Cluster) : ∀ e, Decidable (ProposesCommand c e)
  | .propose _ command => inferInstanceAs (Decidable (command ≠ []))
  | .tick _ | .takeReady _ _ | .deliver _ => isTrue trivial

/-- The entries of an accepted AppendEntries all agree with the log, or they do not fall into its
discarded part and reach the commit index. -/
abbrev KeepsCommitted : Cluster → Event → Prop :=
  OnAppend fun n m =>
    n.log.agreesFrom (m.prevLogIndex + 1) m.entries ∨
      (n.log.fitsAt m.prevLogIndex m.entries ∧
        n.commitIndex ≤ m.prevLogIndex + m.entries.length)

/-- An accepted snapshot does not end below the commit index. -/
abbrev InstallsAhead : Cluster → Event → Prop :=
  OnInstall fun c f m => (c.nodes f).commitIndex ≤ m.lastIncludedIndex

/-- Every node is in order, and so is what is on its way. -/
structure Orderly (c : Cluster) : Prop where
  node : ∀ i, (c.nodes i).InOrder
  sent : ∀ p ∈ c.sent, p.message.Filled

/-- Node `i` goes from its state in `c` to that in `c'`, by way of the snapshots at the given
positions. -/
structure Advances (c c' : Cluster) (i : NodeId) (snapshots : List ℕ) : Prop where
  commit_le : (c.nodes i).commitIndex ≤ (c'.nodes i).commitIndex
  applied_le : (c.nodes i).lastApplied ≤ (c'.nodes i).lastApplied
  produced : ∃ items, c'.produced i = c.produced i ++ items ∧
    position (c.nodes i).lastApplied items snapshots = some ((c'.nodes i).lastApplied, [])

theorem Advances.refl (c : Cluster) (i : NodeId) : Advances c c i [] :=
  ⟨le_rfl, le_rfl, [], (List.append_nil _).symm, rfl⟩

theorem Advances.trans {snapshots' : List ℕ} (h : Advances c c' i snapshots)
    (h' : Advances c' c'' i snapshots') : Advances c c'' i (snapshots ++ snapshots') := by
  obtain ⟨items, hitems, hpos⟩ := h.produced
  obtain ⟨items', hitems', hpos'⟩ := h'.produced
  refine ⟨h.commit_le.trans h'.commit_le, h.applied_le.trans h'.applied_le, items ++ items', ?_, ?_⟩
  · rw [hitems', hitems, List.append_assoc]
  · rw [position_append hpos]
    exact hpos'

/-- What holds of one node that moves holds of the cluster. -/
theorem Orderly.setNode (h : Orderly c) {n : RaftNode}
    (hn : RaftNode.Advances (c.nodes i) n snapshots) :
    Orderly (c.setNode i n) ∧
      ∀ j, Advances c (c.setNode i n) j (if i = j then snapshots else []) := by
  refine ⟨⟨fun j => ?_, h.sent⟩, fun j => ?_⟩
  · rcases eq_or_ne j i with rfl | hne
    · rw [nodes_setNode_self]
      exact hn.inOrder
    · rw [nodes_setNode_of_ne c n hne]
      exact h.node j
  · rcases eq_or_ne i j with rfl | hne
    · obtain ⟨items, hitems, hpos⟩ := hn.handed
      rw [if_pos rfl]
      refine ⟨?_, ?_, items, ?_, ?_⟩
      · rw [nodes_setNode_self]
        exact hn.commit_le
      · rw [nodes_setNode_self]
        exact hn.applied_le
      · unfold Cluster.produced
        rw [nodes_setNode_self, hitems, List.append_assoc]
        rfl
      · rw [nodes_setNode_self]
        exact hpos
    · have hsame : (c.setNode i n).nodes j = c.nodes j := nodes_setNode_of_ne c n hne.symm
      rw [if_neg hne]
      refine ⟨by rw [hsame], by rw [hsame], [], ?_, by rw [hsame]; rfl⟩
      unfold Cluster.produced
      rw [hsame, List.append_nil]
      rfl

/-- Draining moves outputs without changing them. -/
theorem Orderly.drain (h : Orderly c) (i : NodeId) (data : List KeyValue) :
    Orderly (c.drain i data) ∧ ∀ j, Advances c (c.drain i data) j [] := by
  refine ⟨⟨fun j => ?_, fun p hp => ?_⟩, fun j => ?_⟩
  · rcases eq_or_ne j i with rfl | hne
    · have hj := h.node j
      simp only [Cluster.drain, Function.update_self]
      exact { hj with queued := fun env henv => by cases henv }
    · simp only [Cluster.drain, Function.update_of_ne hne]
      exact h.node j
  · rcases List.mem_append.mp hp with hold | hnew
    · exact h.sent p hold
    · obtain ⟨env, henv, rfl⟩ := List.mem_map.mp hnew
      exact Message.filled_fillSnapshot.mpr ((h.node i).queued env henv)
  · rcases eq_or_ne j i with rfl | hne
    · refine ⟨by simp [Cluster.drain], by simp [Cluster.drain], [], ?_,
        by simp [Cluster.drain, position]⟩
      have hmine : ∀ items : List Committed,
          (((items.map fun item => (j, item)).filter (·.1 = j)).map (·.2)) = items := by
        intro items
        induction items <;> simp_all
      simp [Cluster.produced, Cluster.handedBy, Cluster.drain, hmine]
    · refine ⟨by simp [Cluster.drain, hne], by simp [Cluster.drain, hne], [], ?_,
        by simp [Cluster.drain, position, hne]⟩
      have hother : ∀ items : List Committed,
          (items.map fun item => (i, item)).filter (·.1 = j) = [] := by
        intro items
        induction items <;> simp_all [hne.symm]
      simp [Cluster.produced, Cluster.handedBy, Cluster.drain, hne, hother]

/-- Receiving a message that has been sent. -/
theorem Orderly.deliver (h : Orderly c) {src f : NodeId} {message : Message}
    (hp : ⟨src, f, message⟩ ∈ c.sent)
    (hkeep : KeepsCommitted c (.deliver ⟨src, f, message⟩))
    (hahead : InstallsAhead c (.deliver ⟨src, f, message⟩)) :
    RaftNode.Advances (c.nodes f) ((c.nodes f).step src message)
      (c.snapshotsOf f (.deliver ⟨src, f, message⟩)) := by
  have hnode := h.node f
  cases (c.nodes f).receives_step src message with
  | keeps hrefused hk =>
    have hnone : c.snapshotsOf f (.deliver ⟨src, f, message⟩) = [] := by
      cases message with
      | installSnapshot m => exact if_neg fun hin => hrefused hin.2
      | _ => rfl
    rw [hnone]
    exact hnode.keepsLog hk
  | splices hacc hs =>
    have hreach := le_lastIndex_splice hacc.2 hnode.commit_le (hkeep hacc.1 hacc.2)
    exact hnode.splices hs (h.sent _ hp) hreach
  | @installs m hacc hi =>
    have hone : c.snapshotsOf f (.deliver ⟨src, f, .installSnapshot m⟩) = [m.lastIncludedIndex] :=
      if_pos ⟨rfl, hacc⟩
    rw [hone]
    exact hnode.installs hi (hahead hacc)

theorem Orderly.step (h : Orderly c) {e : Event} (henabled : Enabled S c e)
    (hprop : ProposesCommand c e) (hkeep : KeepsCommitted c e) (hahead : InstallsAhead c e) :
    Orderly (c.step e) ∧ ∀ j, Advances c (c.step e) j (c.snapshotsOf j e) := by
  -- an input that installs no snapshot
  have hplain : ∀ {i n}, RaftNode.Advances (c.nodes i) n [] →
      Orderly (c.setNode i n) ∧ ∀ j, Advances c (c.setNode i n) j [] := fun hn => by
    have := h.setNode hn
    simpa only [ite_self] using this
  cases e with
  | tick i => exact hplain ((h.node i).keepsLog (RaftNode.keepsLog_tick _))
  | propose i command => exact hplain ((h.node i).propose hprop)
  | takeReady i data =>
    obtain ⟨happly, hadv⟩ := hplain (h.node i).applyCommitted
    obtain ⟨hdrain, hadv'⟩ := happly.drain i data
    rw [step_takeReady]
    exact ⟨hdrain, fun j => (hadv j).trans (hadv' j)⟩
  | deliver p =>
    obtain ⟨src, f, message⟩ := p
    obtain ⟨hord, hadv⟩ := h.setNode (h.deliver henabled.2 hkeep hahead)
    refine ⟨hord, fun j => ?_⟩
    have hsame : c.snapshotsOf j (.deliver ⟨src, f, message⟩) =
        if f = j then c.snapshotsOf f (.deliver ⟨src, f, message⟩) else [] := by
      cases message with
      | installSnapshot m =>
        by_cases hj : f = j
        · rw [if_pos hj, hj]
        · rw [if_neg hj]
          exact if_neg fun hin => hj hin.1
      | _ => exact (ite_self _).symm
    rw [hsame]
    exact hadv j

/-- The conditions under which nothing that is committed is lost. -/
def KeepsOrder (c : Cluster) (e : Event) : Prop :=
  KeepsCommitted c e ∧ InstallsAhead c e

instance decidableKeepsOrder (c : Cluster) (e : Event) : Decidable (KeepsOrder c e) :=
  inferInstanceAs (Decidable (_ ∧ _))

/-- **Whole runs advance every node in order.** -/
theorem Orderly.exec (h : Orderly c)
    (hg : Run.Guarded Cluster.step
      (fun c e => Enabled S c e ∧ ProposesCommand c e ∧ KeepsOrder c e) c es) (i : NodeId) :
    Advances c (Run.exec Cluster.step c es) i (installed i c es) := by
  induction es generalizing c with
  | nil => exact Advances.refl c i
  | cons e es ih =>
    obtain ⟨⟨henabled, hprop, hkeep, hahead⟩, hrest⟩ := hg
    obtain ⟨hord, hadv⟩ := h.step henabled hprop hkeep hahead
    exact (hadv i).trans (ih hord hrest)

theorem orderly_init : Orderly (init S) where
  node _ :=
    { snapshot_le := le_rfl
      applied_le := le_rfl
      commit_le := le_rfl
      filled := fun _ he => by cases he
      queued := fun _ henv => by cases henv }
  sent _ hp := by cases hp

/-- Every node applies every index once and in order, from the end of the last snapshot on, and
neither its commit index nor what it has applied ever goes back. -/
def AppliedInOrder (S : Setup) (es : List Event) : Prop :=
  ∀ i ∈ S.members,
    (∀ es₁ es₂, es₁ <+: es₂ → es₂ <+: es →
      ((after S es₁).nodes i).commitIndex ≤ ((after S es₂).nodes i).commitIndex ∧
        ((after S es₁).nodes i).lastApplied ≤ ((after S es₂).nodes i).lastApplied) ∧
      (position 0 ((after S es).handedBy i) (installed i (init S) es)).isSome

/-- **Applied exactly once and in order** in every run in which no message cuts a log below the
commit index. -/
theorem appliedInOrder_of_keepsOrder
    (h : IsRun S (fun c e => ProposesCommand c e ∧ KeepsOrder c e) es) :
    AppliedInOrder S es := by
  intro i _
  constructor
  · intro es₁ es₂ hp hp₂
    obtain ⟨rest, rfl, hrest⟩ := Run.Guarded.suffix (Run.Guarded.of_isPrefix h hp₂) hp
    have hord : Orderly (after S es₁) :=
      Run.Guarded.invariant (fun c e hg hc => (hc.step hg.1 hg.2.1 hg.2.2.1 hg.2.2.2).1)
        (Run.Guarded.of_isPrefix h (hp.trans hp₂)) orderly_init
    have hadv := hord.exec hrest i
    unfold after
    rw [Run.exec_append]
    exact ⟨hadv.commit_le, hadv.applied_le⟩
  · obtain ⟨items, hitems, hpos⟩ := (orderly_init.exec h i).produced
    have hall : (after S es).produced i = items := hitems
    have hzero : (position 0 items (installed i (init S) es)).isSome := by
      rw [show (0 : ℕ) = ((init S).nodes i).lastApplied from rfl, hpos]
      rfl
    rw [← hall] at hzero
    exact isSome_position_of_append hzero

theorem appliedInOrder_creditedSnapshot :
    IsRun (threeNodes 1) (fun c e => ProposesCommand c e ∧ KeepsOrder c e) creditedSnapshot ∧
      (after (threeNodes 1) creditedSnapshot).handedBy "n3" = [Committed.snapshot []] ∧
      installed "n3" (init (threeNodes 1)) creditedSnapshot = [1] ∧
      AppliedInOrder (threeNodes 1) creditedSnapshot :=
  ⟨by decide, by decide, by decide, appliedInOrder_of_keepsOrder (by decide)⟩

/-- Node `n3` has applied two commands when a late snapshot of the first one sets it back. -/
def setBack : List Event :=
  catchUp ++
    [.takeReady "n3" [], .deliver ⟨"n3", "n1", .appendEntriesReply ⟨1, "n3", true, 2, 0⟩⟩,
      .tick "n1", .takeReady "n1" [],
      .deliver ⟨"n1", "n3", .appendEntries ⟨1, "n1", 2, 1, [], 2⟩⟩, .takeReady "n3" [],
      .deliver ⟨"n1", "n3", .installSnapshot ⟨1, "n1", 1, 1, []⟩⟩]

/-- Node `n2` has learnt that its fourth and fifth command are committed when a late message puts
the first command in their place. It passes over the fifth index, which is empty when the apply loop
comes to it and is filled again later. -/
def skippedEntry : List Event :=
  [.tick "n1", .takeReady "n1" [],
    .deliver ⟨"n1", "n2", .requestVote ⟨1, "n1", 0, 0⟩⟩, .takeReady "n2" [],
    .deliver ⟨"n2", "n1", .requestVoteReply ⟨1, "n2", true⟩⟩,
    .propose "n1" [65], .propose "n1" [66], .propose "n1" [67], .takeReady "n1" [],
    .deliver ⟨"n1", "n2", .appendEntries ⟨1, "n1", 0, 0, [⟨1, [65]⟩, ⟨1, [66]⟩, ⟨1, [67]⟩], 0⟩⟩,
    .takeReady "n2" [],
    .deliver ⟨"n2", "n1", .appendEntriesReply ⟨1, "n2", true, 3, 0⟩⟩,
    .propose "n1" [68], .propose "n1" [69], .takeReady "n1" [],
    .deliver ⟨"n1", "n2", .appendEntries ⟨1, "n1", 3, 1, [⟨1, [68]⟩, ⟨1, [69]⟩], 3⟩⟩,
    .takeReady "n2" [],
    .deliver ⟨"n2", "n1", .appendEntriesReply ⟨1, "n2", true, 5, 0⟩⟩,
    .tick "n1", .takeReady "n1" [],
    .deliver ⟨"n1", "n2", .appendEntries ⟨1, "n1", 5, 1, [], 5⟩⟩,
    .deliver ⟨"n1", "n2", .appendEntries ⟨1, "n1", 0, 0, [⟨1, [65]⟩], 0⟩⟩, .takeReady "n2" [],
    .propose "n1" [70], .takeReady "n1" [],
    .deliver ⟨"n1", "n2", .appendEntries ⟨1, "n1", 5, 1, [⟨1, [70]⟩], 5⟩⟩, .takeReady "n2" [],
    .deliver ⟨"n2", "n1", .appendEntriesReply ⟨1, "n2", false, 0, 5⟩⟩, .takeReady "n1" [],
    .deliver ⟨"n1", "n2", .appendEntries ⟨1, "n1", 4, 1, [⟨1, [69]⟩, ⟨1, [70]⟩], 5⟩⟩,
    .takeReady "n2" [],
    .deliver ⟨"n2", "n1", .appendEntriesReply ⟨1, "n2", true, 6, 0⟩⟩,
    .tick "n1", .takeReady "n1" [],
    .deliver ⟨"n1", "n2", .appendEntries ⟨1, "n1", 6, 1, [], 6⟩⟩, .takeReady "n2" []]

/-- A late snapshot sets a node back, and a late AppendEntries lets it leave out an index. -/
theorem not_appliedInOrder_setBack_skippedEntry :
    Violates (threeNodes 1) (fun c e => ProposesCommand c e ∧ KeepsCommitted c e)
        (AppliedInOrder (threeNodes 1)) setBack ∧
      Violates (threeNodes 3) (fun c e => ProposesCommand c e ∧ InstallsAhead c e)
        (AppliedInOrder (threeNodes 3)) skippedEntry := by
  refine ⟨⟨by decide, by decide, fun h => ?_⟩, by decide, by decide, fun h => ?_⟩
  · -- the commit index falls from 2 to 1
    obtain ⟨hmono, -⟩ := h "n3" (by decide)
    exact absurd (hmono setBack.dropLast setBack (by decide) List.prefix_rfl).1 (by decide)
  · -- index 6 is handed out after index 4
    obtain ⟨-, horder⟩ := h "n2" (by decide)
    exact absurd horder (by decide)

end Cluster

end Ferrium
