import Ferrium.Cluster.Replicas
import Ferrium.Cluster.Safety

/-!
# Everything that is applied has been handed out

A node that installs a snapshot does not hand out the commands that the snapshot contains. In a run
that follows the protocol some node has handed them out, and nobody goes back: a snapshot that is
accepted goes at least as far as what is committed.

## Main results

* `Refines.commitIndex_le_of_install`: a snapshot does not put a node back;
* `Covered.newlyApplied`: the apply loop hands out what it passes;
* `SettledAt.exists_write`: what is found under a key has been written by a command that was handed
  out, and not by an older one than is known to be applied;
* `exists_rounds_of_isPrefix`: where the apply loop is when a part of what it hands out is applied.
-/

namespace Ferrium

open TermLog Branch RaftLog

/-- The position after one thing that a node that installs no snapshot has handed out. -/
def Committed.reach (k : ℕ) : Committed → ℕ
  | .command index _ => index
  | .snapshot _ => k

/-- The position after what such a node has handed out. -/
def reached (k : ℕ) (items : List Committed) : ℕ :=
  items.foldl Committed.reach k

theorem RaftNode.appliedAt_cases (n : RaftNode) (index : ℕ) :
    n.appliedAt index = [] ∨ ∃ command, n.appliedAt index = [.command index command] := by
  unfold appliedAt
  cases n.log.get index with
  | none => exact Or.inl rfl
  | some entry =>
    by_cases hempty : entry.command = []
    · exact Or.inl (if_pos hempty)
    · exact Or.inr ⟨entry.command, if_neg hempty⟩

/-- A part of what the apply loop hands out is what some of its rounds hand out, and its last index
is the one that these rounds have reached. -/
theorem exists_rounds_of_isPrefix {n : RaftNode} {rounds applied : ℕ} {items : List Committed}
    (h : items <+: (List.range' (applied + 1) rounds).flatMap n.appliedAt) :
    ∃ r ≤ rounds, items = (List.range' (applied + 1) r).flatMap n.appliedAt ∧
      reached applied items = applied + r := by
  induction rounds generalizing applied items with
  | zero =>
    obtain rfl := List.prefix_nil.mp h
    exact ⟨0, le_rfl, rfl, rfl⟩
  | succ rounds ih =>
    rw [List.range'_succ, List.flatMap_cons] at h
    cases items with
    | nil => exact ⟨0, Nat.zero_le _, rfl, rfl⟩
    | cons item items =>
      rcases n.appliedAt_cases (applied + 1) with hempty | ⟨command, hone⟩
      · -- the round has passed over an empty command, and a later one hands out the first item
        rw [hempty, List.nil_append] at h
        obtain ⟨r, hr, heq, hreached⟩ := ih h
        refine ⟨r + 1, by omega, ?_, ?_⟩
        · rw [List.range'_succ, List.flatMap_cons, hempty, List.nil_append, heq]
        · have hitem : item ∈ (List.range' (applied + 1 + 1) r).flatMap n.appliedAt :=
            heq ▸ List.mem_cons_self
          obtain ⟨index, -, hat⟩ := List.mem_flatMap.mp hitem
          obtain ⟨entry, -, -, rfl⟩ := RaftNode.mem_appliedAt.mp hat
          refine Eq.trans ?_ (hreached.trans (by omega))
          rfl
      · rw [hone, List.singleton_append, List.cons_prefix_cons] at h
        obtain ⟨rfl, hrest⟩ := h
        obtain ⟨r, hr, rfl, hreached⟩ := ih hrest
        refine ⟨r + 1, by omega, ?_, hreached.trans (by omega)⟩
        rw [List.range'_succ, List.flatMap_cons, hone, List.singleton_append]

namespace Cluster

variable {S : Setup} {F : Checks} {c : Cluster} {i f src : NodeId} {k : ℕ}
variable {a a' : State NodeId LogEntry} {handed handed' : List (NodeId × Committed)}

/-! ### Nobody goes back -/

/-- **A snapshot that is accepted goes at least as far as what is committed.** -/
theorem Refines.commitIndex_le_of_install {m : InstallSnapshot} (h : Refines strictChecks S c a)
    (hen : Enabled S c (.deliver ⟨src, f, .installSnapshot m⟩))
    (hsuffix : KeepsSuffix c (.deliver ⟨src, f, .installSnapshot m⟩))
    (hterm : (c.nodes f).currentTerm ≤ m.term) :
    (c.nodes f).commitIndex ≤ m.lastIncludedIndex := by
  obtain ⟨hlen, hsettled⟩ := (h.node f hen.1).commit trivial
  obtain ⟨hwin, -⟩ := h.tells src (h.wf.sent_src _ hen.2) _ (mem_emittedBy_of_sent hen.2)
  -- what is committed is part of the branch of the sender, and the snapshot keeps it
  have hbranch : (a.log f).take (c.nodes f).commitIndex <+: a.branch m.term :=
    hsettled.prefix_branch (h.complete trivial) h.consistent hterm hwin
  have hkept := h.keepsShared_of_keepsSuffix hen (hsuffix hterm)
    ((a.log f).take (c.nodes f).commitIndex) (List.take_prefix _ _)
    (by simpa [State.observe] using hbranch)
  have hle := hkept.length_le
  simp only [List.length_take] at hle
  omega

/-- **Nobody goes back**: an input leaves what is applied, or puts the node ahead of what is
committed by a snapshot that was sent. -/
theorem Refines.lastApplied_step (h : Refines strictChecks S c a) {e : Event}
    (hen : Enabled S c e) (hsuffix : KeepsSuffix c e) (he : ∀ i data, e ≠ .takeReady i data)
    (hi : i ∈ S.members) :
    ((c.step e).nodes i).lastApplied = (c.nodes i).lastApplied ∨
      ∃ src m, ⟨src, i, .installSnapshot m⟩ ∈ c.sent ∧
        ((c.step e).nodes i).lastApplied = m.lastIncludedIndex ∧
        (c.nodes i).lastApplied ≤ m.lastIncludedIndex := by
  rcases applied_step he i with ⟨happlied, -⟩ | ⟨src, m, rfl, hterm, hinstalls⟩
  · exact Or.inl happlied
  · have hahead := h.commitIndex_le_of_install hen hsuffix hterm
    have happlied := ((h.node i hi).applied trivial).2
    exact Or.inr ⟨src, m, hen.2, hinstalls.lastApplied, happlied.trans hahead⟩

/-! ### Everything that is applied has been handed out -/

/-- Up to the index `k` everything is decided, and handed out if it is not empty. -/
def Covered (S : Setup) (handed : List (NodeId × Committed)) (a : State NodeId LogEntry) (k : ℕ) :
    Prop :=
  ∀ q, 0 < q → q ≤ k → ∃ bytes, Decided S a q bytes ∧
    (bytes ≠ [] → ∃ j, (j, .command q bytes) ∈ handed)

theorem Covered.mono (h : Covered S handed a k) (hg : Grows a a') (hsub : handed ⊆ handed') :
    Covered S handed' a' k := by
  intro q hpos hle
  obtain ⟨bytes, hdecided, hhanded⟩ := h q hpos hle
  refine ⟨bytes, hdecided.mono hg, fun hne => ?_⟩
  obtain ⟨j, hj⟩ := hhanded hne
  exact ⟨j, hsub hj⟩

theorem Covered.of_le {k' : ℕ} (h : Covered S handed a k) (hle : k' ≤ k) :
    Covered S handed a k' :=
  fun q hpos hq => h q hpos (hq.trans hle)

/-- What the apply loop passes is decided, and it hands out what is not empty. -/
theorem Covered.newlyApplied {n : RaftNode} (h : Covered S handed a n.lastApplied)
    (hnode : Follows F S a i n) (hF : F.settled)
    (hsub : ∀ item ∈ n.newlyApplied, (i, item) ∈ handed) : Covered S handed a n.commitIndex := by
  intro q hpos hle
  rcases Nat.lt_or_ge n.lastApplied q with hlt | hge
  · obtain ⟨hlen, hsettled⟩ := hnode.commit hF
    have hsnap := (hnode.applied hF).1
    obtain ⟨e, he⟩ := hnode.covers.exists_get (i := q) (by omega) (by omega)
    obtain ⟨-, hentry⟩ := hnode.covers.of_get_eq_some he
    refine ⟨e.command, ⟨_, _, e, hsettled, hpos, ?_, rfl⟩, fun hne => ⟨i, hsub _ ?_⟩⟩
    · rw [List.getElem?_take, if_pos (by omega)]
      exact hentry
    · exact RaftNode.mem_newlyApplied.mpr ⟨hlt, hle, hne, e, he, rfl⟩
  · exact h q hpos hge

/-- **What is found under a key that was written**: the contents for a later position have there
what a command that was handed out for the same index or a later one has left. -/
theorem SettledAt.exists_write {codec : Codec} {contents₀ contents : Contents} {W : Prop}
    {index : ℕ} {bytes : List UInt8} {key : String} {value : Option (List UInt8)}
    (h : SettledAt codec contents₀ S a k contents) (hcovered : Covered S handed a k)
    (hcomplete : Complete (quorums S) a) (hcon : Consistent (quorums S) W a)
    (hdecided : Decided S a index bytes) (hwrites : codec.Writes bytes key value)
    (hle : index ≤ k) :
    ∃ q ≥ index, ∃ j bytes', (j, .command q bytes') ∈ handed ∧
      codec.Writes bytes' key (contents key) := by
  obtain ⟨t, l, hl, rfl, rfl⟩ := h
  have hpos : 0 < index := by
    obtain ⟨_, _, _, -, hpos, -⟩ := hdecided
    exact hpos
  -- the entry that writes the key is in the log of the contents
  obtain ⟨e, he⟩ : ∃ e, l[index - 1]? = some e := ⟨_, List.getElem?_eq_getElem (by omega)⟩
  have hsame : e.command = bytes :=
    Decided.unique ⟨t, l, e, hl, hpos, he, rfl⟩ hdecided hcomplete hcon
  obtain ⟨k', e', hk', he', hwrites'⟩ :=
    Codec.replay_of_writes he (hsame.symm ▸ hwrites) contents₀
  have hlen := (List.getElem?_eq_some_iff.mp he').1
  -- and so is the last one that does, which has been handed out
  obtain ⟨bytes', hdecided', hhanded⟩ := hcovered (k' + 1) (Nat.succ_pos k') (by omega)
  have hsame' : e'.command = bytes' :=
    Decided.unique ⟨t, l, e', hl, Nat.succ_pos k', he', rfl⟩ hdecided' hcomplete hcon
  rw [hsame'] at hwrites'
  obtain ⟨j, hj⟩ := hhanded hwrites'.1
  exact ⟨k' + 1, by omega, j, bytes', hj, hwrites'⟩

end Cluster

end Ferrium
