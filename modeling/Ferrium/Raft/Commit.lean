import Ferrium.Lib.Quorum
import Ferrium.Raft.Effects
import Mathlib.Data.List.GetD
import Mathlib.Order.Bounds.Basic

/-!
# The commit rule

`advance_commit` searches the log from its end for an entry of the current term that a majority of
the cluster holds. The first one that it meets is the greatest index that may be committed, and the
peers' match indices in descending order show how far the search can get.

## Main results

* `RaftNode.advanceCommit_spec`: what a leader commits, in both forms.
-/

namespace Ferrium

/-- What a search for the greatest number with a property leaves, with the result of a search that
finds nothing. -/
def Picks (P : ℕ → Prop) (otherwise k : ℕ) : Prop :=
  IsGreatest {N | P N} k ∨ (∀ N, ¬P N) ∧ k = otherwise

/-- A search that tries `k` in vain goes on with the numbers below it. -/
theorem Picks.succ_of_not {P : ℕ → Prop} {otherwise k found : ℕ} (hk : ¬P k)
    (h : Picks (fun N => N < k ∧ P N) otherwise found) :
    Picks (fun N => N < k + 1 ∧ P N) otherwise found := by
  have heq : (fun N => N < k + 1 ∧ P N) = fun N => N < k ∧ P N := by
    funext N
    refine propext ⟨fun ⟨hlt, hN⟩ => ⟨?_, hN⟩, fun ⟨hlt, hN⟩ => ⟨hlt.trans k.lt_succ_self, hN⟩⟩
    rcases Nat.lt_succ_iff_lt_or_eq.mp hlt with hlt | rfl
    · exact hlt
    · exact absurd hN hk
  rw [heq]
  exact h

namespace RaftNode

variable {n : RaftNode}

/-- The leader may commit the log up to `N`: the entry there is of its term, and stands in the logs
of so many peers that they are a majority together with the leader. -/
structure Committable (n : RaftNode) (N : ℕ) : Prop where
  lt : n.commitIndex < N
  le : N ≤ n.log.lastIndex
  term : n.log.termAt N = some n.currentTerm
  held : n.majority - 1 ≤ n.peers.countP fun peer => N ≤ n.progress.matchIndex peer

theorem Committable.pos {N : ℕ} (h : n.Committable N) : 0 < N :=
  (Nat.zero_le _).trans_lt h.lt

/-- The condition of the loop, with the leader counted among the replicas. -/
theorem committable_iff {N : ℕ} :
    n.Committable N ↔ n.commitIndex < N ∧ N ≤ n.log.lastIndex ∧
      n.log.termAt N = some n.currentTerm ∧ n.majority ≤ n.replicas N := by
  have hheld : (n.majority - 1 ≤ n.peers.countP fun peer => N ≤ n.progress.matchIndex peer) ↔
      n.majority ≤ n.replicas N := by
    rw [replicas_eq, List.countP_eq_length_filter]
    omega
  rw [← hheld]
  exact ⟨fun h => ⟨h.lt, h.le, h.term, h.held⟩, fun ⟨h₁, h₂, h₃, h₄⟩ => ⟨h₁, h₂, h₃, h₄⟩⟩

/-- The loop of `advance_commit` from `k` downwards. -/
theorem picks_commitFrom (n : RaftNode) {k : ℕ} (hk : k ≤ n.log.lastIndex) :
    Picks (fun N => N < k + 1 ∧ n.Committable N) n.commitIndex (n.commitFrom k) := by
  fun_induction commitFrom n k with
  | case1 =>
    refine Or.inr ⟨?_, rfl⟩
    rintro N ⟨hzero, hN⟩
    exact absurd (hzero.trans_le (Nat.succ_le_of_lt hN.pos)) (lt_irrefl N)
  | case2 k hle =>
    refine Or.inr ⟨?_, rfl⟩
    rintro N ⟨hlt, hN⟩
    exact absurd (hN.lt.trans_le (Nat.le_of_lt_succ hlt)) (not_lt.mpr hle)
  | case3 k _ hterm ih =>
    exact (ih (Nat.le_of_succ_le hk)).succ_of_not fun h => hterm h.term
  | case4 k hlt hterm hmajority =>
    -- the search ends at the first index that qualifies
    have hfound : n.Committable (k + 1) :=
      committable_iff.mpr ⟨not_le.mp hlt, hk, not_not.mp hterm, hmajority⟩
    exact Or.inl ⟨⟨Nat.lt_succ_self _, hfound⟩, fun N hN => Nat.le_of_lt_succ hN.1⟩
  | case5 k _ _ hmajority ih =>
    exact (ih (Nat.le_of_succ_le hk)).succ_of_not fun h =>
      hmajority (committable_iff.mp h).2.2.2

/-- How far the logs of a majority are known to reach: the match index of the peer that completes
it, in descending order of match indices. A cluster of one has no peer to wait for. -/
def quorumIndex (n : RaftNode) : ℕ :=
  if n.majority = 1 then n.log.lastIndex
  else ((n.peers.map n.progress.matchIndex).insertionSort (· ≥ ·)).getD (n.majority - 1 - 1) 0

/-- So many peers hold the log up to `N` if the one that completes the majority does. -/
theorem majority_le_countP_iff {N : ℕ} (hN : N ≤ n.log.lastIndex) :
    (n.majority - 1 ≤ n.peers.countP fun peer => N ≤ n.progress.matchIndex peer) ↔
      N ≤ n.quorumIndex := by
  have hmajority : n.majority = (n.peers.length + 1) / 2 + 1 := rfl
  unfold quorumIndex
  split
  · next hone => exact iff_of_true (by omega) hN
  · next hone =>
    have hk : n.majority - 1 - 1 <
        ((n.peers.map n.progress.matchIndex).insertionSort (· ≥ ·)).length := by
      rw [List.length_insertionSort, List.length_map]
      omega
    have hcount : (n.peers.countP fun peer => N ≤ n.progress.matchIndex peer) =
        (n.peers.map n.progress.matchIndex).countP (N ≤ ·) := by
      rw [List.countP_map]
      rfl
    rw [hcount, Ranking.le_countP_iff _ N (by omega) hk, List.getD_eq_getElem _ _ hk]

/-- **The commit rule picks the greatest committable index.** A leader's commit index becomes the
greatest index that is committable, and stays where it is if there is none; that is the greatest
index of the current term between the commit index and what a majority is known to hold. Nothing
else in the node changes. -/
theorem advanceCommit_spec (hrole : n.role = .leader) :
    n.advanceCommit = { n with commitIndex := n.advanceCommit.commitIndex } ∧
      Picks n.Committable n.commitIndex n.advanceCommit.commitIndex ∧
      Picks (fun N => N ≤ min n.quorumIndex n.log.lastIndex ∧ n.commitIndex < N ∧
        n.log.termAt N = some n.currentTerm) n.commitIndex n.advanceCommit.commitIndex := by
  have hcommit : n.advanceCommit.commitIndex = n.commitFrom n.log.lastIndex := by
    rw [advanceCommit_eq]
    exact if_pos hrole
  have hpicks : Picks n.Committable n.commitIndex n.advanceCommit.commitIndex := by
    rw [hcommit]
    have hloop := n.picks_commitFrom le_rfl
    have heq : (fun N => N < n.log.lastIndex + 1 ∧ n.Committable N) = n.Committable := by
      funext N
      exact propext ⟨fun h => h.2, fun h => ⟨Nat.lt_succ_of_le h.le, h⟩⟩
    rwa [heq] at hloop
  refine ⟨?_, hpicks, ?_⟩
  · rw [advanceCommit_eq]
  · have heq : (fun N => N ≤ min n.quorumIndex n.log.lastIndex ∧ n.commitIndex < N ∧
        n.log.termAt N = some n.currentTerm) = n.Committable := by
      funext N
      refine propext ⟨?_, ?_⟩
      · rintro ⟨hle, hlt, hterm⟩
        obtain ⟨hquorum, hlast⟩ := le_min_iff.mp hle
        exact ⟨hlt, hlast, hterm, (majority_le_countP_iff hlast).mpr hquorum⟩
      · intro h
        exact ⟨le_min ((majority_le_countP_iff h.le).mp h.held) h.le, h.lt, h.term⟩
    rw [heq]
    exact hpicks

/-- The leader of five nodes with a log of four entries. Two peers hold at least three of them,
but the third is of an older term. -/
def olderThird : RaftNode :=
  { new "a" ["b", "c", "d", "e"] (RaftConfig.eager 100) ⟨fun _ => 0⟩ with
    role := .leader
    currentTerm := 2
    log :=
      { entries := [⟨1, []⟩, ⟨2, []⟩, ⟨1, []⟩, ⟨2, []⟩], snapshotIndex := 0, snapshotTerm := 0 }
    progress := (((LeaderProgress.default.setMatchIndex "b" 4).setMatchIndex "c" 2).setMatchIndex
      "d" 3) }

theorem advanceCommit_olderThird :
    olderThird.role = .leader ∧ olderThird.quorumIndex = 3 ∧
      olderThird.advanceCommit.commitIndex = 2 ∧
      IsGreatest {N | olderThird.Committable N} 2 := by
  have hrole : olderThird.role = .leader := rfl
  have hcommit : olderThird.advanceCommit.commitIndex = 2 := by decide
  obtain ⟨-, hpicks, -⟩ := advanceCommit_spec hrole
  rw [hcommit] at hpicks
  rcases hpicks with hgreatest | ⟨-, habsurd⟩
  · exact ⟨hrole, by decide, hcommit, hgreatest⟩
  · exact absurd habsurd (by decide)

end RaftNode

end Ferrium
