import Mathlib.Data.List.Infix
import Mathlib.Data.Nat.Notation

/-!
# Logs along term branches

Entries carry a term. A family `b` of logs assigns to each term the log of the one author of that
term, its *branch*. A log is *on its branches* when every prefix of it that ends in an entry of
term `t` is a prefix of `b t`: then an index together with the term found there determines the
whole prefix up to that index.

## Main results

* `OnBranch.take_eq_of_term_eq`: two such logs with the same term at one index agree up to it;
* `OnBranch.prefix_lastTerm`: such a log is a prefix of the branch of its last term;
* `UpToDate.prefix`: a log at least as up to date as one that extends `p` extends `p` itself,
  provided the branches of the later terms do;
* `takeOver_comm`, `takeOver_takeOver_of_le`: taking over a prefix of a log, and then another one,
  comes to the same in either order.
-/

/-- Entries that carry the term in which they were created. -/
class Termed (ε : Type*) where
  /-- The term in which the entry was created. -/
  term : ε → ℕ

namespace Branch

open Termed

variable {ε : Type*} [Termed ε] {b b' : ℕ → List ε} {l l₁ l₂ p : List ε}

/-- Every prefix of `l` that ends in an entry of term `t` is a prefix of the branch of `t`. -/
def OnBranch (b : ℕ → List ε) (l : List ε) : Prop :=
  ∀ (p : List ε) (e : ε), p ++ [e] <+: l → p ++ [e] <+: b (term e)

/-- The term of the last entry, `0` for the empty log. -/
def lastTerm (l : List ε) : ℕ :=
  (l.getLast?.map term).getD 0

/-- The log `l` is at least as up to date as `l'`: a later last term, or the same one and not
shorter. -/
def UpToDate (l l' : List ε) : Prop :=
  lastTerm l' < lastTerm l ∨ (lastTerm l = lastTerm l' ∧ l'.length ≤ l.length)

@[simp]
theorem lastTerm_concat (p : List ε) (e : ε) : lastTerm (p ++ [e]) = term e := by
  simp [lastTerm]

/-- A non-empty log is a prefix followed by an entry of its last term. -/
theorem exists_concat (h : l ≠ []) : ∃ p e, l = p ++ [e] ∧ term e = lastTerm l := by
  refine ⟨l.dropLast, l.getLast h, (List.dropLast_append_getLast h).symm, ?_⟩
  conv_rhs => rw [← List.dropLast_append_getLast h]
  rw [lastTerm_concat]

theorem onBranch_nil : OnBranch b [] := by
  intro p e h
  simp at h

/-- Growing branches keep a log on them. -/
theorem OnBranch.mono (h : OnBranch b l) (hb : ∀ t, b t <+: b' t) : OnBranch b' l :=
  fun p e hp => (h p e hp).trans (hb _)

theorem OnBranch.of_isPrefix (h : OnBranch b l) (hp : p <+: l) : OnBranch b p :=
  fun q e hq => h q e (hq.trans hp)

/-- A log stays on its branches when an entry is added with which it is a prefix of the branch
of that entry. -/
theorem OnBranch.concat (h : OnBranch b l) {e : ε} (he : l ++ [e] <+: b (term e)) :
    OnBranch b (l ++ [e]) := by
  intro p x hp
  rcases List.prefix_concat_iff.mp hp with heq | hlt
  · obtain ⟨rfl, hx⟩ := List.append_inj' heq rfl
    obtain rfl : x = e := by simpa using hx
    exact he
  · exact h p x hlt

/-- A log on its branches is a prefix of the branch of its last term. -/
theorem OnBranch.prefix_lastTerm (h : OnBranch b l) : l <+: b (lastTerm l) := by
  rcases eq_or_ne l [] with rfl | hne
  · exact List.nil_prefix
  · obtain ⟨p, e, rfl, he⟩ := exists_concat hne
    rw [← he]
    exact h p e List.prefix_rfl

omit [Termed ε] in
/-- The prefix up to index `i` of a log with the entry `e` there. -/
theorem take_succ_eq_concat {i : ℕ} {e : ε} (h : l[i]? = some e) :
    l.take (i + 1) = l.take i ++ [e] := by
  rw [List.take_add_one, h]
  rfl

/-- Two logs on the same branches that hold the same term at an index agree up to it. -/
theorem OnBranch.take_eq_of_term_eq (h₁ : OnBranch b l₁) (h₂ : OnBranch b l₂) {i : ℕ}
    {e₁ e₂ : ε} (he₁ : l₁[i]? = some e₁) (he₂ : l₂[i]? = some e₂)
    (hterm : term e₁ = term e₂) : l₁.take (i + 1) = l₂.take (i + 1) := by
  have hp₁ : l₁.take (i + 1) <+: b (term e₁) := by
    rw [take_succ_eq_concat he₁]
    exact h₁ _ _ (take_succ_eq_concat he₁ ▸ List.take_prefix _ _)
  have hp₂ : l₂.take (i + 1) <+: b (term e₁) := by
    rw [hterm, take_succ_eq_concat he₂]
    exact h₂ _ _ (take_succ_eq_concat he₂ ▸ List.take_prefix _ _)
  have hlen₁ : i < l₁.length := (List.getElem?_eq_some_iff.mp he₁).1
  have hlen₂ : i < l₂.length := (List.getElem?_eq_some_iff.mp he₂).1
  refine (List.prefix_of_prefix_length_le hp₁ hp₂ ?_).eq_of_length ?_ <;>
    simp only [List.length_take] <;> omega

/-- No entry of a log on its branches is of a later term than the last one. -/
theorem OnBranch.term_le_lastTerm (h : OnBranch b l) (hb : ∀ t, ∀ e ∈ b t, term e ≤ t) {x : ε}
    (hx : x ∈ l) : term x ≤ lastTerm l :=
  hb _ x (h.prefix_lastTerm.subset hx)

/-- The last term of a prefix is at most the last term of the log. -/
theorem OnBranch.lastTerm_le (h : OnBranch b l) (hb : ∀ t, ∀ e ∈ b t, term e ≤ t)
    (hp : p <+: l) : lastTerm p ≤ lastTerm l := by
  rcases eq_or_ne p [] with rfl | hne
  · exact Nat.zero_le _
  · obtain ⟨q, e, rfl, he⟩ := exists_concat hne
    rw [← he]
    exact h.term_le_lastTerm hb (hp.subset (by simp))

/-- A log that is at least as up to date as an extension of `p` extends `p` as well, if the branch
of its last term does whenever that term is later than the last one of `p`. -/
theorem UpToDate.prefix (hu : UpToDate l₁ l₂) (h₁ : OnBranch b l₁) (h₂ : OnBranch b l₂)
    (hb : ∀ t, ∀ e ∈ b t, term e ≤ t) (hp : p <+: l₂)
    (hlater : lastTerm p < lastTerm l₁ → p <+: b (lastTerm l₁)) : p <+: l₁ := by
  rcases hu with hlt | ⟨heq, hlen⟩
  · -- a later last term: the last entry of `l₁` lies beyond `p` on the branch of that term
    have hlt' : lastTerm p < lastTerm l₁ := (h₂.lastTerm_le hb hp).trans_lt hlt
    have hpb := hlater hlt'
    rcases List.prefix_or_prefix_of_prefix h₁.prefix_lastTerm hpb with hle | hle
    · have hpon : OnBranch b p := h₂.of_isPrefix hp
      exact absurd (hpon.lastTerm_le hb hle) (Nat.not_le_of_lt hlt')
    · exact hle
  · -- the same last term: both logs are prefixes of one branch
    have h₂' : l₂ <+: b (lastTerm l₁) := heq ▸ h₂.prefix_lastTerm
    exact hp.trans (List.prefix_of_prefix_length_le h₂' h₁.prefix_lastTerm hlen)

/-! ### Taking over a prefix -/

section TakeOver

variable {α : Type*} [DecidableEq α] {l f : List α} {j k : ℕ}

/-- What becomes of the log `f` when it takes over the first `k` entries of `l`: nothing if it has
them, and if not, they are all that is left. -/
def takeOver (l : List α) (k : ℕ) (f : List α) : List α :=
  if l.take k <+: f then f else l.take k

theorem take_prefix_takeOver (l : List α) (k : ℕ) (f : List α) : l.take k <+: takeOver l k f := by
  unfold takeOver
  split
  · assumption
  · exact List.prefix_rfl

/-- What a log has of `l` it keeps. -/
theorem prefix_takeOver (h : l.take j <+: f) (k : ℕ) : l.take j <+: takeOver l k f := by
  unfold takeOver
  split
  · exact h
  · next hnot =>
    rcases Nat.le_total j k with hle | hle
    · exact List.take_prefix_take_left hle
    · exact absurd ((List.take_prefix_take_left hle).trans h) hnot

/-- A prefix that a log has need not be taken over. -/
theorem takeOver_of_isPrefix_take (h : l.take k <+: f) : takeOver l k f = f :=
  if_pos h

/-- A prefix that is part of one taken over before changes nothing. -/
theorem takeOver_takeOver_of_le (l f : List α) (h : j ≤ k) :
    takeOver l j (takeOver l k f) = takeOver l k f :=
  takeOver_of_isPrefix_take ((List.take_prefix_take_left h).trans (take_prefix_takeOver l k f))

/-- After a prefix, taking over a longer one comes to the same as taking over that one alone. -/
theorem takeOver_takeOver_of_ge (l f : List α) (h : j ≤ k) :
    takeOver l k (takeOver l j f) = takeOver l k f := by
  by_cases hj : l.take j <+: f
  · rw [takeOver_of_isPrefix_take hj]
  · -- `f` has neither of the two prefixes
    have hk : ¬l.take k <+: f := fun hk => hj ((List.take_prefix_take_left h).trans hk)
    have hfirst : takeOver l j f = l.take j := if_neg hj
    rw [hfirst, takeOver, takeOver, if_neg hk]
    split
    · next hback => exact (List.take_prefix_take_left h).eq_of_length_le hback.length_le
    · rfl

theorem takeOver_comm (l f : List α) (j k : ℕ) :
    takeOver l j (takeOver l k f) = takeOver l k (takeOver l j f) := by
  rcases Nat.le_total j k with h | h <;>
    rw [takeOver_takeOver_of_le l f h, takeOver_takeOver_of_ge l f h]

end TakeOver

/-- Where the two logs hold the same term, they agree up to there. -/
def Matching (l₁ l₂ : List ε) : Prop :=
  ∀ (i : ℕ) (e₁ e₂ : ε), l₁[i]? = some e₁ → l₂[i]? = some e₂ → term e₁ = term e₂ →
    l₁.take (i + 1) = l₂.take (i + 1)

/-- A log that takes over a prefix of `l₂` still agrees with `l₂` up to every index of the same
term. -/
theorem Matching.takeOver [DecidableEq ε] (h : Matching l₁ l₂) (k : ℕ) :
    Matching (takeOver l₂ k l₁) l₂ := by
  unfold Branch.takeOver
  split
  · exact h
  · intro i e₁ e₂ he₁ _ _
    have hi : i < (l₂.take k).length := (List.getElem?_eq_some_iff.mp he₁).1
    rw [List.length_take] at hi
    rw [List.take_take, min_eq_left (by omega)]

end Branch
