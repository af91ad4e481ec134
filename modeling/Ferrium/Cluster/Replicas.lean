import Ferrium.Cluster.Runs
import Ferrium.Raft.Inputs
import Ferrium.Storage.Apply

/-!
# The stores of a cluster

Every node of a cluster has a storage engine to which what the node hands out is applied. If what
is committed is settled, the contents of such an engine are those that a settled log leads to, up to
the last applied index, and settled logs of the same length are the same. This needs that a snapshot
that is installed has the contents that belong to its position; whoever drains the nodes has to see
to that.

## Main results

* `applied_step`: what an input does to what is applied;
* `Stored.input`, `Stored.takeReady`: what an event does to the stores;
* `SettledAt.unique`: the last applied index determines the contents.
-/

namespace Ferrium

open StorageEngine TermLog Branch RaftLog

namespace Cluster

variable {σ : Type*} [StorageEngine σ]
variable {codec : Codec} {contents₀ : Contents} {S : Setup} {F : Checks} {c : Cluster}
variable {a a' : State NodeId LogEntry} {engines : NodeId → σ} {i : NodeId} {k : ℕ}

/-- The contents are those that a settled log with `k` entries leads to. -/
def SettledAt (codec : Codec) (contents₀ : Contents) (S : Setup) (a : State NodeId LogEntry)
    (k : ℕ) (contents : Contents) : Prop :=
  ∃ t l, Settled (quorums S) a t l ∧ l.length = k ∧ contents = codec.replay contents₀ l

theorem SettledAt.mono {contents : Contents} (h : SettledAt codec contents₀ S a k contents)
    (hg : Grows a a') : SettledAt codec contents₀ S a' k contents := by
  obtain ⟨t, l, hl, hlen, rfl⟩ := h
  exact ⟨t, l, hl.mono le_rfl hg, hlen, rfl⟩

/-- Settled logs of the same length are the same. -/
theorem settled_eq_of_length_eq {W : Prop} {t t' : ℕ} {l l' : List LogEntry}
    (hl : Settled (quorums S) a t l) (hl' : Settled (quorums S) a t' l')
    (hlen : l.length = l'.length) (hcomplete : Complete (quorums S) a)
    (hcon : Consistent (quorums S) W a) : l = l' := by
  rcases hl.compatible hl' hcomplete hcon with hp | hp
  · exact hp.eq_of_length hlen
  · exact (hp.eq_of_length hlen.symm).symm

theorem SettledAt.unique {W : Prop} {contents contents' : Contents}
    (h : SettledAt codec contents₀ S a k contents)
    (h' : SettledAt codec contents₀ S a k contents') (hcomplete : Complete (quorums S) a)
    (hcon : Consistent (quorums S) W a) : contents = contents' := by
  obtain ⟨t, l, hl, hlen, rfl⟩ := h
  obtain ⟨t', l', hl', hlen', rfl⟩ := h'
  rw [settled_eq_of_length_eq hl hl' (hlen.trans hlen'.symm) hcomplete hcon]

/-- Each engine, once what its node has queued is applied to it, has the contents that belong to the
last applied index. -/
def Stored (codec : Codec) (contents₀ : Contents) (S : Setup) (c : Cluster)
    (a : State NodeId LogEntry) (engines : NodeId → σ) : Prop :=
  ∀ i ∈ S.members, SettledAt codec contents₀ S a (c.nodes i).lastApplied
    (get ((c.nodes i).committed.foldl (Committed.applyTo codec) (engines i)))

theorem Stored.mono (h : Stored codec contents₀ S c a engines) (hg : Grows a a') :
    Stored codec contents₀ S c a' engines :=
  fun i hi => (h i hi).mono hg

/-- The data of a snapshot is what an engine with the contents for its position gives out. -/
def Dated (σ : Type*) [StorageEngine σ] (codec : Codec) (contents₀ : Contents) (S : Setup)
    (a : State NodeId LogEntry) (m : InstallSnapshot) : Prop :=
  ∃ engine : σ, m.data = snapshot engine ∧
    SettledAt codec contents₀ S a m.lastIncludedIndex (get engine)

theorem Dated.mono {m : InstallSnapshot} (h : Dated σ codec contents₀ S a m) (hg : Grows a a') :
    Dated σ codec contents₀ S a' m := by
  obtain ⟨engine, hdata, hat⟩ := h
  exact ⟨engine, hdata, hat.mono hg⟩

/-! ### The apply loop -/

/-- The apply loop takes an engine along the complete log, entry by entry. -/
theorem get_foldl_appliedAt [LawfulStorageEngine σ] {b : ℕ → List LogEntry} {l : List LogEntry}
    {n : RaftNode} (hcov : Covers b l n.log) (rounds : ℕ) {applied : ℕ} {engine : σ}
    (hsnap : n.log.snapshotIndex ≤ applied) (hle : applied + rounds ≤ l.length)
    (hget : get engine = codec.replay contents₀ (l.take applied)) :
    get (((List.range' (applied + 1) rounds).flatMap n.appliedAt).foldl
        (Committed.applyTo codec) engine) =
      codec.replay contents₀ (l.take (applied + rounds)) := by
  induction rounds generalizing applied engine with
  | zero => exact hget
  | succ rounds ih =>
    obtain ⟨e, he⟩ := hcov.exists_get (i := applied + 1) (by omega) (by omega)
    obtain ⟨-, hentry⟩ := hcov.of_get_eq_some he
    have htake : l.take (applied + 1) = l.take applied ++ [e] := take_succ_eq_concat hentry
    rw [List.range'_succ, List.flatMap_cons, List.foldl_append]
    -- one round has the effect of the entry
    have hround : get ((n.appliedAt (applied + 1)).foldl (Committed.applyTo codec) engine) =
        codec.replay contents₀ (l.take (applied + 1)) := by
      rw [htake, Codec.replay_append, ← hget]
      unfold RaftNode.appliedAt
      rw [he]
      show _ = codec.entryEffect (get engine) e
      unfold Codec.entryEffect
      dsimp only
      split
      · rfl
      · exact get_applyTo_command codec engine (applied + 1) e.command
    rw [ih (by omega) (by omega) hround]
    congr 2
    omega

/-! ### Events -/

/-- If a node is left with what it has applied, all of them are. -/
theorem applied_setNode {n : RaftNode} (happlied : n.lastApplied = (c.nodes i).lastApplied)
    (hcommitted : n.committed = (c.nodes i).committed) (j : NodeId) :
    ((c.setNode i n).nodes j).lastApplied = (c.nodes j).lastApplied ∧
      ((c.setNode i n).nodes j).committed = (c.nodes j).committed := by
  rcases eq_or_ne j i with rfl | hne
  · rw [nodes_setNode_self]
    exact ⟨happlied, hcommitted⟩
  · rw [nodes_setNode_of_ne c n hne]
    exact ⟨rfl, rfl⟩

/-- **What an input does to what is applied**: nothing, unless it is a snapshot that is accepted. -/
theorem applied_step {e : Event} (he : ∀ i data, e ≠ .takeReady i data) (j : NodeId) :
    (((c.step e).nodes j).lastApplied = (c.nodes j).lastApplied ∧
        ((c.step e).nodes j).committed = (c.nodes j).committed) ∨
      ∃ src m, e = .deliver ⟨src, j, .installSnapshot m⟩ ∧ (c.nodes j).currentTerm ≤ m.term ∧
        (c.nodes j).Installs ((c.step e).nodes j) m := by
  cases e with
  | tick i =>
    have hk := (c.nodes i).keepsLog_tick
    exact Or.inl (applied_setNode hk.lastApplied hk.committed j)
  | propose i command =>
    left
    by_cases hrole : (c.nodes i).role = .leader
    · have hk := (c.nodes i).keepsLog_propose command hrole
      exact applied_setNode hk.lastApplied hk.committed j
    · have hsame : ((c.nodes i).propose command).2 = c.nodes i := by
        rw [(c.nodes i).propose_of_ne_leader command hrole]
      exact applied_setNode (by rw [hsame]) (by rw [hsame]) j
  | takeReady i data => exact absurd rfl (he i data)
  | deliver p =>
    obtain ⟨src, f, message⟩ := p
    -- only a snapshot that is accepted moves the position; accepted entries are not yet applied
    cases (c.nodes f).receives_step src message with
    | keeps _ hk => exact Or.inl (applied_setNode hk.lastApplied hk.committed j)
    | splices _ hs => exact Or.inl (applied_setNode hs.lastApplied hs.committed j)
    | @installs m hacc hi =>
      rcases eq_or_ne j f with rfl | hne
      · refine Or.inr ⟨src, m, rfl, hacc, ?_⟩
        show RaftNode.Installs _ ((c.setNode j _).nodes j) m
        rw [nodes_setNode_self]
        exact hi
      · left
        show ((c.setNode f _).nodes j).lastApplied = _ ∧ ((c.setNode f _).nodes j).committed = _
        rw [nodes_setNode_of_ne c _ hne]
        exact ⟨rfl, rfl⟩

/-- An input to a node, where a snapshot that is installed has the contents for its position. -/
theorem Stored.input [LawfulStorageEngine σ] (h : Stored codec contents₀ S c a engines)
    (hg : Grows a a') {e : Event} (he : ∀ i data, e ≠ .takeReady i data)
    (hdated : OnInstall (fun _ _ m => Dated σ codec contents₀ S a' m) c e) :
    Stored codec contents₀ S (c.step e) a' engines := by
  intro j hj
  rcases applied_step he j with ⟨happlied, hcommitted⟩ | ⟨src, m, rfl, hterm, hi⟩
  · rw [happlied, hcommitted]
    exact (h j hj).mono hg
  · obtain ⟨engine, hdata, hat⟩ := hdated hterm
    rw [hi.lastApplied, hi.committed, List.foldl_append]
    show SettledAt _ _ _ _ _ (get (restore _ m.data))
    rw [hdata, LawfulStorageEngine.get_restore]
    exact hat

/-- The apply loop takes an engine from the contents for one index to those for the next. -/
theorem Stored.rounds [LawfulStorageEngine σ] (h : Stored codec contents₀ S c a engines)
    (href : Refines F S c a) (hF : F.settled) (hi : i ∈ S.members) {r : ℕ}
    (hr : (c.nodes i).lastApplied + r ≤ (c.nodes i).commitIndex) :
    SettledAt codec contents₀ S a ((c.nodes i).lastApplied + r)
      (get (((List.range' ((c.nodes i).lastApplied + 1) r).flatMap (c.nodes i).appliedAt).foldl
        (Committed.applyTo codec)
        ((c.nodes i).committed.foldl (Committed.applyTo codec) (engines i)))) := by
  have hnode := href.node i hi
  obtain ⟨hsnap, hle⟩ := hnode.applied hF
  obtain ⟨hlen, hsettled⟩ := hnode.commit hF
  obtain ⟨t, l, hl, hllen, hcontents⟩ := h i hi
  -- what is committed is settled up to every index
  have htake : ∀ k ≤ (c.nodes i).commitIndex,
      Settled (quorums S) a (c.nodes i).currentTerm ((a.log i).take k) := fun k hk =>
    hsettled.of_isPrefix (List.take_prefix_take_left hk)
  -- the log that the engine has come from is the beginning of what is committed
  have hbegin : l = (a.log i).take (c.nodes i).lastApplied := by
    refine settled_eq_of_length_eq hl (htake _ hle) ?_ (href.complete hF) href.consistent
    rw [hllen, List.length_take, min_eq_left (hle.trans hlen)]
  rw [hbegin] at hcontents
  refine ⟨_, _, htake _ hr, ?_,
    get_foldl_appliedAt hnode.covers r hsnap (hr.trans hlen) hcontents⟩
  rw [List.length_take, min_eq_left (hr.trans hlen)]

/-- Draining a node and applying what it hands out. -/
theorem Stored.takeReady [LawfulStorageEngine σ] (h : Stored codec contents₀ S c a engines)
    (href : Refines F S c a) (hF : F.settled) (hi : i ∈ S.members) (data : List KeyValue) :
    Stored codec contents₀ S (c.step (.takeReady i data)) a
      (Function.update engines i
        ((c.nodes i).ready.committed.foldl (Committed.applyTo codec) (engines i))) := by
  intro j hj
  rcases eq_or_ne j i with rfl | hne
  · have hle := ((href.node j hj).applied hF).2
    have hempty : (c.nodes j).takeReady.committed = [] := rfl
    have htake : (c.nodes j).takeReady.lastApplied =
        (c.nodes j).lastApplied + ((c.nodes j).commitIndex - (c.nodes j).lastApplied) := by
      rw [RaftNode.takeReady_eq]
      rfl
    have hready := (c.nodes j).committed_ready
    simp only [Cluster.step, Function.update_self, htake, hempty, hready, List.foldl_append,
      List.foldl_nil]
    exact h.rounds href hF hj (by omega)
  · simp only [Cluster.step, Function.update_of_ne hne]
    exact h j hj

end Cluster

end Ferrium
