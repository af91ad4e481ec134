import Mathlib.Data.Finset.Card
import Mathlib.Data.List.Sort

/-!
# Quorum systems

A family of finite sets any two of which meet, and the family of majorities of a finite set of
members. How many members have reached a value can be read off their values in descending order.
-/

/-- A family of sets of voters any two of which have a voter in common. -/
structure QuorumSystem (ν : Type*) where
  /-- The sets that are quorums. -/
  IsQuorum : Finset ν → Prop
  inter : ∀ {s t}, IsQuorum s → IsQuorum t → ∃ v ∈ s, v ∈ t

namespace QuorumSystem

variable {ν : Type*} [DecidableEq ν]

/-- Two sets of members that each hold more than half of them have a member in common. -/
theorem exists_mem_of_majority {members s t : Finset ν} (hs : s ⊆ members) (ht : t ⊆ members)
    (hs' : members.card / 2 + 1 ≤ s.card) (ht' : members.card / 2 + 1 ≤ t.card) :
    ∃ v ∈ s, v ∈ t := by
  by_contra hnone
  push Not at hnone
  have hdisj : Disjoint s t := Finset.disjoint_left.mpr hnone
  have hle : (s ∪ t).card ≤ members.card := Finset.card_le_card (Finset.union_subset hs ht)
  rw [Finset.card_union_of_disjoint hdisj] at hle
  omega

/-- The majorities of a finite set of members. -/
def majority (members : Finset ν) : QuorumSystem ν where
  IsQuorum s := s ⊆ members ∧ members.card / 2 + 1 ≤ s.card
  inter hs ht := exists_mem_of_majority hs.1 ht.1 hs.2 ht.2

end QuorumSystem

namespace Ranking

variable {α : Type*} [LinearOrder α]

/-- In a descending list the values that reach a threshold stand in front. -/
theorem lt_countP_iff_of_pairwise {values : List α} (h : values.Pairwise (· ≥ ·)) (threshold : α)
    {k : ℕ} (hk : k < values.length) :
    k < values.countP (threshold ≤ ·) ↔ threshold ≤ values[k] := by
  induction values generalizing k with
  | nil => simp at hk
  | cons value values ih =>
    obtain ⟨hhead, htail⟩ := List.pairwise_cons.mp h
    by_cases hvalue : threshold ≤ value
    · rw [List.countP_cons_of_pos (by simpa using hvalue)]
      cases k with
      | zero => simp [hvalue]
      | succ k =>
        rw [Nat.add_lt_add_iff_right, ih htail (Nat.lt_of_succ_lt_succ hk)]
        rfl
    · -- nothing behind a value below the threshold reaches it
      have hall : ∀ v ∈ value :: values, ¬threshold ≤ v := by
        intro v hv hle
        rcases List.mem_cons.mp hv with rfl | hmem
        · exact hvalue hle
        · exact hvalue (hle.trans (hhead v hmem))
      have hzero : (value :: values).countP (threshold ≤ ·) = 0 :=
        List.countP_eq_zero.mpr fun v hv => by simpa using hall v hv
      rw [hzero]
      exact iff_of_false (Nat.not_lt_zero k) (hall _ (List.getElem_mem hk))

/-- At least `k` of the values reach a threshold if and only if the `k`-th largest one does. -/
theorem le_countP_iff (values : List α) (threshold : α) {k : ℕ} (hpos : 0 < k)
    (hk : k - 1 < (values.insertionSort (· ≥ ·)).length) :
    k ≤ values.countP (threshold ≤ ·) ↔ threshold ≤ (values.insertionSort (· ≥ ·))[k - 1] := by
  rw [← lt_countP_iff_of_pairwise (List.pairwise_insertionSort _ values) threshold hk,
    (List.perm_insertionSort _ values).countP_eq]
  omega

end Ranking
