import Ferrium.Lib.Branch
import Ferrium.Lib.Quorum
import Mathlib.Logic.Function.Basic

/-!
# An abstract replicated log with elected authors

Nodes `ν` keep logs of entries `ε` and move through terms. In each term at most one node wins an
election; its log is the *branch* of the term and grows only at the end, and the other nodes of the
term bring their logs in line with it and acknowledge how far they have. Nothing is ever compacted
here, and messages are the facts that they carry: who voted for whom, who acknowledged what.

`Rules` says which of the checks of the protocol are made. With none of them the branches still
determine every log (`Consistent`); with all of them (`Rules.Strict`) what a quorum has
acknowledged survives every later election (`Complete`).

## Main results

* `Consistent.step`: every log is on its branches, whatever the rules.
-/

namespace TermLog

open Branch Termed

/-- The state of the abstract log. -/
structure State (ν ε : Type*) where
  /-- The current term of a node. -/
  term : ν → ℕ
  /-- The log of a node. -/
  log : ν → List ε
  /-- The log of the winner of a term, as far as it has grown in that term. -/
  branch : ℕ → List ε
  /-- The log with which the winner of a term won it. -/
  root : ℕ → List ε
  /-- The winner of a term. -/
  winner : ℕ → Option ν
  /-- The log with which a node stood for election in a term. -/
  bid : ν → ℕ → Option (List ε)
  /-- `votes u T c`: in term `T` node `u` has voted for `c`. -/
  votes : ν → ℕ → ν → Prop
  /-- `acks u T k`: in term `T` node `u` has acknowledged the branch up to index `k`. -/
  acks : ν → ℕ → ℕ → Prop

/-- Which checks the nodes make. -/
structure Rules (ν ε : Type*) where
  /-- A vote is only given to a candidate whose log is up to date. -/
  upToDate : Prop
  /-- A node that acknowledges has nothing in its log but the branch of the term. -/
  whole : Prop
  /-- When a node may replace its log by the first `S` entries of the branch. -/
  mayInstall : State ν ε → ν → ℕ → Prop

namespace State

variable {ν ε : Type*}

/-- The current term of `i` has been won by another node. -/
def Follows (a : State ν ε) (i : ν) : Prop :=
  ∃ w, a.winner (a.term i) = some w ∧ w ≠ i

/-- The initial state: no terms, no entries, no elections. -/
def init : State ν ε where
  term _ := 0
  log _ := []
  branch _ := []
  root _ := []
  winner _ := none
  bid _ _ := none
  votes _ _ _ := False
  acks _ _ _ := False

/-- Node `u` votes for `c` in its current term. -/
def grant (a : State ν ε) (u c : ν) : State ν ε :=
  { a with votes := fun v T d => a.votes v T d ∨ (v = u ∧ T = a.term u ∧ d = c) }

/-- Node `i` wins its current term; it holds all of its own log. -/
def win (a : State ν ε) (i : ν) : State ν ε :=
  { a with
    winner := Function.update a.winner (a.term i) (some i)
    branch := Function.update a.branch (a.term i) (a.log i)
    root := Function.update a.root (a.term i) (a.log i)
    acks := fun u T k => a.acks u T k ∨ (u = i ∧ T = a.term i ∧ k = (a.log i).length) }

section Win

variable (a : State ν ε) (i : ν)

@[simp] theorem term_win : (a.win i).term = a.term := rfl

@[simp] theorem log_win : (a.win i).log = a.log := rfl

@[simp] theorem bid_win : (a.win i).bid = a.bid := rfl

@[simp] theorem winner_win_self : (a.win i).winner (a.term i) = some i :=
  Function.update_self _ _ _

@[simp] theorem branch_win_self : (a.win i).branch (a.term i) = a.log i :=
  Function.update_self _ _ _

@[simp] theorem root_win_self : (a.win i).root (a.term i) = a.log i :=
  Function.update_self _ _ _

variable {a i} {T : ℕ}

@[simp] theorem winner_win_of_ne (h : T ≠ a.term i) : (a.win i).winner T = a.winner T :=
  Function.update_of_ne h _ _

@[simp] theorem branch_win_of_ne (h : T ≠ a.term i) : (a.win i).branch T = a.branch T :=
  Function.update_of_ne h _ _

@[simp] theorem root_win_of_ne (h : T ≠ a.term i) : (a.win i).root T = a.root T :=
  Function.update_of_ne h _ _

end Win

/-- Node `i` acknowledges the branch of its current term up to index `k`. -/
def affirm (a : State ν ε) (i : ν) (k : ℕ) : State ν ε :=
  { a with acks := fun u T n => a.acks u T n ∨ (u = i ∧ T = a.term i ∧ n = k) }

variable [DecidableEq ν]

/-- Node `i` enters term `T`. -/
def observe (a : State ν ε) (i : ν) (T : ℕ) : State ν ε :=
  { a with term := Function.update a.term i T }

/-- Node `i` enters the next term as a candidate, and votes for itself. -/
def stand (a : State ν ε) (i : ν) : State ν ε :=
  { a with
    term := Function.update a.term i (a.term i + 1)
    bid := fun j T => if j = i ∧ T = a.term i + 1 then some (a.log i) else a.bid j T
    votes := fun u T c => a.votes u T c ∨ (u = i ∧ T = a.term i + 1 ∧ c = i) }

/-- The winner `i` of its current term appends an entry. -/
def append (a : State ν ε) (i : ν) (e : ε) : State ν ε :=
  { a with
    log := Function.update a.log i (a.log i ++ [e])
    branch := Function.update a.branch (a.term i) (a.log i ++ [e])
    acks := fun u T k => a.acks u T k ∨ (u = i ∧ T = a.term i ∧ k = (a.log i).length + 1) }

/-- Node `i` replaces its log by `l` and acknowledges its length. -/
def adopt (a : State ν ε) (i : ν) (l : List ε) : State ν ε :=
  { a with
    log := Function.update a.log i l
    acks := fun u T k => a.acks u T k ∨ (u = i ∧ T = a.term i ∧ k = l.length) }

section Log

variable (a : State ν ε) (i : ν) (e : ε) (l : List ε)

@[simp] theorem term_append : (a.append i e).term = a.term := rfl

@[simp] theorem winner_append : (a.append i e).winner = a.winner := rfl

@[simp] theorem log_append_self : (a.append i e).log i = a.log i ++ [e] :=
  Function.update_self _ _ _

@[simp] theorem branch_append_self : (a.append i e).branch (a.term i) = a.log i ++ [e] :=
  Function.update_self _ _ _

@[simp] theorem term_adopt : (a.adopt i l).term = a.term := rfl

@[simp] theorem branch_adopt : (a.adopt i l).branch = a.branch := rfl

@[simp] theorem log_adopt_self : (a.adopt i l).log i = l :=
  Function.update_self _ _ _

variable {a i e l} {T : ℕ} {j : ν}

@[simp] theorem log_append_of_ne (h : j ≠ i) : (a.append i e).log j = a.log j :=
  Function.update_of_ne h _ _

@[simp] theorem branch_append_of_ne (h : T ≠ a.term i) : (a.append i e).branch T = a.branch T :=
  Function.update_of_ne h _ _

@[simp] theorem log_adopt_of_ne (h : j ≠ i) : (a.adopt i l).log j = a.log j :=
  Function.update_of_ne h _ _

end Log

end State

variable {ν ε : Type*} {qs : QuorumSystem ν} {a a' : State ν ε} {W : Prop}

/-- A node that follows another one has not won its current term. -/
theorem State.Follows.winner_ne {i : ν} (hf : a.Follows i) :
    a.winner (a.term i) ≠ some i := by
  obtain ⟨w, hw, hne⟩ := hf
  rw [hw]
  exact fun heq => hne (Option.some.inj heq)

variable [Termed ε]

/-! ## Every log is on its branches -/

/-- What holds in every reachable state whatever the rules; `W` is whether acknowledgements are
of whole logs. -/
structure Consistent (qs : QuorumSystem ν) (W : Prop) (a : State ν ε) : Prop where
  branch_on : ∀ T, OnBranch a.branch (a.branch T)
  branch_le : ∀ T, ∀ e ∈ a.branch T, term e ≤ T
  branch_nil : ∀ T, a.winner T = none → a.branch T = []
  root_prefix : ∀ T, a.root T <+: a.branch T
  log_on : ∀ i, OnBranch a.branch (a.log i)
  log_le : ∀ i, ∀ e ∈ a.log i, term e ≤ a.term i
  bid_on : ∀ i T l, a.bid i T = some l → OnBranch a.branch l
  bid_lt : ∀ i T l, a.bid i T = some l → ∀ e ∈ l, term e < T
  bid_term : ∀ i T l, a.bid i T = some l → 0 < T ∧ T ≤ a.term i
  votes_term : ∀ u T c, a.votes u T c → T ≤ a.term u
  votes_bid : ∀ u T c, a.votes u T c → ∃ l, a.bid c T = some l
  winner_bid : ∀ T w, a.winner T = some w → a.bid w T = some (a.root T)
  winner_quorum : ∀ T w, a.winner T = some w →
    ∃ Q, qs.IsQuorum Q ∧ ∀ u ∈ Q, a.votes u T w
  winner_log : ∀ i, a.winner (a.term i) = some i → a.log i = a.branch (a.term i)
  winner_acks : ∀ i, a.winner (a.term i) = some i → a.acks i (a.term i) (a.log i).length
  acks_term : ∀ u T k, a.acks u T k → T ≤ a.term u
  acks_le : W → ∀ u T k, a.acks u T k → k ≤ (a.branch T).length

theorem Consistent.init : Consistent qs W (State.init : State ν ε) where
  branch_on _ := onBranch_nil
  branch_le _ _ h := by simp [State.init] at h
  branch_nil _ _ := rfl
  root_prefix _ := List.nil_prefix
  log_on _ := onBranch_nil
  log_le _ _ h := by simp [State.init] at h
  bid_on _ _ _ h := by simp [State.init] at h
  bid_lt _ _ _ h := by simp [State.init] at h
  bid_term _ _ _ h := by simp [State.init] at h
  votes_term _ _ _ h := h.elim
  votes_bid _ _ _ h := h.elim
  winner_bid _ _ h := by simp [State.init] at h
  winner_quorum _ _ h := by simp [State.init] at h
  winner_log _ h := by simp [State.init] at h
  winner_acks _ h := by simp [State.init] at h
  acks_term _ _ _ h := h.elim
  acks_le _ _ _ _ h := h.elim

namespace Consistent

/-- A winner has reached the term that it won. -/
theorem winner_term (h : Consistent qs W a) {T : ℕ} {w : ν} (hw : a.winner T = some w) :
    T ≤ a.term w :=
  (h.bid_term w T _ (h.winner_bid T w hw)).2

/-- A term that somebody has won is positive. -/
theorem winner_pos (h : Consistent qs W a) {T : ℕ} {w : ν} (hw : a.winner T = some w) :
    0 < T :=
  (h.bid_term w T _ (h.winner_bid T w hw)).1

/-- A term with entries on its branch has been won. -/
theorem exists_winner (h : Consistent qs W a) {T : ℕ} (hne : a.branch T ≠ []) :
    ∃ w, a.winner T = some w :=
  Option.ne_none_iff_exists'.mp fun hnone => hne (h.branch_nil T hnone)

/-- No entry carries the term `0`. -/
theorem branch_zero (h : Consistent qs W a) : a.branch 0 = [] := by
  by_contra hne
  obtain ⟨w, hw⟩ := h.exists_winner hne
  exact absurd (h.winner_pos hw) (lt_irrefl 0)

/-- A node that enters a later term than its own has not won that term. -/
theorem winner_ne_of_lt (h : Consistent qs W a) {i : ν} {T : ℕ} (hlt : a.term i < T) :
    a.winner T ≠ some i :=
  fun hw => absurd (h.winner_term hw) (Nat.not_le_of_lt hlt)

theorem grant (h : Consistent qs W a) {u c : ν} {l : List ε}
    (hbid : a.bid c (a.term u) = some l) : Consistent qs W (a.grant u c) :=
  { h with
    votes_bid := fun v T d hv => by
      rcases hv with hold | ⟨rfl, rfl, rfl⟩
      · exact h.votes_bid v T d hold
      · exact ⟨l, hbid⟩
    votes_term := fun v T d hv => by
      rcases hv with hold | ⟨rfl, rfl, -⟩
      · exact h.votes_term v T d hold
      · exact le_rfl
    winner_quorum := fun T w hw => by
      obtain ⟨Q, hQ, hvotes⟩ := h.winner_quorum T w hw
      exact ⟨Q, hQ, fun u hu => Or.inl (hvotes u hu)⟩ }

/-- Acknowledging an index that the branch reaches changes nothing else. -/
theorem affirm (h : Consistent qs W a) {i : ν} {k : ℕ}
    (hk : W → k ≤ (a.branch (a.term i)).length) : Consistent qs W (a.affirm i k) :=
  { h with
    winner_acks := fun j hw => Or.inl (h.winner_acks j hw)
    acks_term := fun u T n hn => by
      rcases hn with hold | ⟨rfl, rfl, -⟩
      · exact h.acks_term u T n hold
      · exact le_rfl
    acks_le := fun hW u T n hn => by
      rcases hn with hold | ⟨rfl, rfl, rfl⟩
      · exact h.acks_le hW u T n hold
      · exact hk hW }

/-- Winning a term only adds its branch, on which nothing stood before. -/
theorem branch_prefix_win (h : Consistent qs W a) {i : ν} (hnone : a.winner (a.term i) = none)
    (T : ℕ) : a.branch T <+: (a.win i).branch T := by
  rcases eq_or_ne T (a.term i) with rfl | hne
  · rw [h.branch_nil _ hnone]
    exact List.nil_prefix
  · simp [hne]

theorem win (h : Consistent qs W a) {i : ν} (hnone : a.winner (a.term i) = none)
    (hbid : a.bid i (a.term i) = some (a.log i))
    (hquorum : ∃ Q, qs.IsQuorum Q ∧ ∀ u ∈ Q, a.votes u (a.term i) i) :
    Consistent qs W (a.win i) where
  branch_on T := by
    rcases eq_or_ne T (a.term i) with rfl | hne
    · simpa using (h.log_on i).mono (h.branch_prefix_win hnone)
    · have := (h.branch_on T).mono (h.branch_prefix_win hnone)
      simpa [hne] using this
  branch_le T e he := by
    rcases eq_or_ne T (a.term i) with rfl | hne
    · exact h.log_le i e (by simpa using he)
    · exact h.branch_le T e (by simpa [hne] using he)
  branch_nil T hT := by
    rcases eq_or_ne T (a.term i) with rfl | hne
    · simp at hT
    · have := h.branch_nil T (by simpa [hne] using hT)
      simpa [hne] using this
  root_prefix T := by
    rcases eq_or_ne T (a.term i) with rfl | hne
    · simp
    · simpa [hne] using h.root_prefix T
  log_on j := (h.log_on j).mono (h.branch_prefix_win hnone)
  log_le := h.log_le
  bid_on j T l hb := (h.bid_on j T l hb).mono (h.branch_prefix_win hnone)
  bid_lt := h.bid_lt
  bid_term := h.bid_term
  votes_term := h.votes_term
  votes_bid := h.votes_bid
  winner_bid T w hw := by
    rcases eq_or_ne T (a.term i) with rfl | hne
    · obtain rfl : i = w := by simpa using hw
      simpa using hbid
    · have := h.winner_bid T w (by simpa [hne] using hw)
      simpa [hne] using this
  winner_quorum T w hw := by
    rcases eq_or_ne T (a.term i) with rfl | hne
    · obtain rfl : i = w := by simpa using hw
      exact hquorum
    · exact h.winner_quorum T w (by simpa [hne] using hw)
  winner_log j hw := by
    rcases eq_or_ne (a.term j) (a.term i) with heq | hne
    · obtain rfl : i = j := by simpa [heq] using hw
      simp
    · have := h.winner_log j (by simpa [hne] using hw)
      simpa [hne] using this
  winner_acks j hw := by
    rcases eq_or_ne (a.term j) (a.term i) with heq | hne
    · obtain rfl : i = j := by simpa [heq] using hw
      exact Or.inr ⟨rfl, rfl, rfl⟩
    · exact Or.inl (h.winner_acks j (by simpa [hne] using hw))
  acks_term u T k hk := by
    rcases hk with hold | ⟨rfl, rfl, -⟩
    · exact h.acks_term u T k hold
    · exact le_rfl
  acks_le hW u T k hk := by
    rcases hk with hold | ⟨rfl, rfl, rfl⟩
    · exact (h.acks_le hW u T k hold).trans (h.branch_prefix_win hnone T).length_le
    · simp

end Consistent

/-! ## Steps -/

variable [DecidableEq ν] {R : Rules ν ε}

/-- One step of the abstract log. -/
inductive Step (R : Rules ν ε) (qs : QuorumSystem ν) (a : State ν ε) : State ν ε → Prop
  | observe (i : ν) (T : ℕ) (hle : a.term i ≤ T) : Step R qs a (a.observe i T)
  | stand (i : ν) : Step R qs a (a.stand i)
  | grant (u c : ν) (l : List ε) (hbid : a.bid c (a.term u) = some l)
      (hup : R.upToDate → UpToDate l (a.log u)) : Step R qs a (a.grant u c)
  | win (i : ν) (hnone : a.winner (a.term i) = none)
      (hbid : a.bid i (a.term i) = some (a.log i))
      (hquorum : ∃ Q, qs.IsQuorum Q ∧ ∀ u ∈ Q, a.votes u (a.term i) i) : Step R qs a (a.win i)
  | append (i : ν) (e : ε) (hwin : a.winner (a.term i) = some i) (he : term e = a.term i) :
      Step R qs a (a.append i e)
  | accept (i : ν) (l : List ε) (hfollows : a.Follows i) (hon : OnBranch a.branch l)
      (hle : ∀ e ∈ l, term e ≤ a.term i)
      (hkeep : ∀ p, p <+: a.log i → p <+: a.branch (a.term i) → p <+: l)
      (hwhole : R.whole → l <+: a.branch (a.term i)) : Step R qs a (a.adopt i l)
  | install (i : ν) (S : ℕ) (hfollows : a.Follows i)
      (hS : S ≤ (a.branch (a.term i)).length) (hmay : R.mayInstall a i S) :
      Step R qs a (a.adopt i ((a.branch (a.term i)).take S))
  | affirm (i : ν) (k : ℕ) (hfollows : a.Follows i) (hlog : a.log i <+: a.branch (a.term i))
      (hk : k ≤ (a.log i).length) : Step R qs a (a.affirm i k)

namespace Consistent

/-- A node that has won the term that it is in was in it before: it cannot have won a term that it
only now enters. -/
private theorem update_eq_of_winner (h : Consistent qs W a) {i j : ν} {T : ℕ}
    (hle : a.term i ≤ T) (hw : a.winner (Function.update a.term i T j) = some j) :
    Function.update a.term i T j = a.term j := by
  rcases eq_or_ne j i with rfl | hne
  · rw [Function.update_self] at hw ⊢
    exact le_antisymm (h.winner_term hw) hle
  · rw [Function.update_of_ne hne]

/-- Terms only grow, so what is bounded by an old term is bounded by the new one. -/
theorem le_update {term : ν → ℕ} {i : ν} {T : ℕ} (hle : term i ≤ T) (j : ν) :
    term j ≤ Function.update term i T j := by
  rcases eq_or_ne j i with rfl | hne
  · simpa using hle
  · rw [Function.update_of_ne hne]

theorem observe (h : Consistent qs W a) {i : ν} {T : ℕ} (hle : a.term i ≤ T) :
    Consistent qs W (a.observe i T) :=
  { h with
    log_le := fun j e he => (h.log_le j e he).trans (le_update hle j)
    bid_term := fun j T l hb =>
      ⟨(h.bid_term j T l hb).1, (h.bid_term j T l hb).2.trans (le_update hle j)⟩
    votes_term := fun u T c hv => (h.votes_term u T c hv).trans (le_update hle u)
    winner_log := fun j hw => by
      have hsame := h.update_eq_of_winner hle hw
      simp only [State.observe, hsame] at hw ⊢
      exact h.winner_log j hw
    winner_acks := fun j hw => by
      have hsame := h.update_eq_of_winner hle hw
      simp only [State.observe, hsame] at hw ⊢
      exact h.winner_acks j hw
    acks_term := fun u T k hk => (h.acks_term u T k hk).trans (le_update hle u) }

/-- Standing does not touch the bid with which a term was won. -/
theorem stand (h : Consistent qs W a) (i : ν) : Consistent qs W (a.stand i) := by
  have hle : a.term i ≤ a.term i + 1 := Nat.le_succ _
  have hbid : ∀ j T l, (a.stand i).bid j T = some l →
      (j = i ∧ T = a.term i + 1 ∧ l = a.log i) ∨ a.bid j T = some l := by
    intro j T l hb
    by_cases hnew : j = i ∧ T = a.term i + 1
    · left
      simp only [State.stand, if_pos hnew, Option.some.injEq] at hb
      exact ⟨hnew.1, hnew.2, hb.symm⟩
    · right
      simpa only [State.stand, if_neg hnew] using hb
  exact
  { h with
    log_le := fun j e he => (h.log_le j e he).trans (le_update hle j)
    bid_on := fun j T l hb => by
      rcases hbid j T l hb with ⟨-, -, rfl⟩ | hold
      · exact h.log_on i
      · exact h.bid_on j T l hold
    bid_lt := fun j T l hb => by
      rcases hbid j T l hb with ⟨-, rfl, rfl⟩ | hold
      · exact fun e he => Nat.lt_succ_of_le (h.log_le i e he)
      · exact h.bid_lt j T l hold
    bid_term := fun j T l hb => by
      rcases hbid j T l hb with ⟨rfl, rfl, -⟩ | hold
      · exact ⟨Nat.succ_pos _, by simp [State.stand]⟩
      · exact ⟨(h.bid_term j T l hold).1, (h.bid_term j T l hold).2.trans (le_update hle j)⟩
    votes_term := fun u T c hv => by
      rcases hv with hold | ⟨rfl, rfl, -⟩
      · exact (h.votes_term u T c hold).trans (le_update hle u)
      · simp [State.stand]
    votes_bid := fun u T c hv => by
      by_cases hnew : c = i ∧ T = a.term i + 1
      · exact ⟨a.log i, by simp only [State.stand, if_pos hnew]⟩
      · rcases hv with hold | ⟨-, hT, hc⟩
        · simpa only [State.stand, if_neg hnew] using h.votes_bid u T c hold
        · exact absurd ⟨hc, hT⟩ hnew
    winner_bid := fun T w hw => by
      have hnot : ¬(w = i ∧ T = a.term i + 1) := by
        rintro ⟨rfl, rfl⟩
        exact h.winner_ne_of_lt (Nat.lt_succ_self _) hw
      simpa only [State.stand, if_neg hnot] using h.winner_bid T w hw
    winner_quorum := fun T w hw => by
      obtain ⟨Q, hQ, hvotes⟩ := h.winner_quorum T w hw
      exact ⟨Q, hQ, fun u hu => Or.inl (hvotes u hu)⟩
    winner_log := fun j hw => by
      have hsame := h.update_eq_of_winner hle hw
      simp only [State.stand, hsame] at hw ⊢
      exact h.winner_log j hw
    winner_acks := fun j hw => by
      have hsame := h.update_eq_of_winner hle hw
      simp only [State.stand, hsame] at hw ⊢
      exact h.winner_acks j hw
    acks_term := fun u T k hk => (h.acks_term u T k hk).trans (le_update hle u) }

/-- A node that follows another one may take any log that is on the branches. -/
theorem adopt (h : Consistent qs W a) {i : ν} {l : List ε} (hf : a.Follows i)
    (hon : OnBranch a.branch l) (hle : ∀ e ∈ l, term e ≤ a.term i)
    (hwhole : W → l <+: a.branch (a.term i)) : Consistent qs W (a.adopt i l) :=
  { h.affirm (i := i) (k := l.length) fun hW => (hwhole hW).length_le with
    log_on := fun j => by
      rcases eq_or_ne j i with rfl | hne
      · simpa using hon
      · simpa [hne] using h.log_on j
    log_le := fun j e he => by
      rcases eq_or_ne j i with rfl | hne
      · exact hle e (by simpa using he)
      · exact h.log_le j e (by simpa [hne] using he)
    winner_log := fun j hw => by
      rcases eq_or_ne j i with rfl | hne
      · exact absurd hw hf.winner_ne
      · simpa [hne] using h.winner_log j hw
    winner_acks := fun j hw => by
      rcases eq_or_ne j i with rfl | hne
      · exact absurd hw hf.winner_ne
      · have := h.winner_acks j hw
        exact Or.inl (by simpa [hne] using this) }

/-- Appending only extends the branch of the winner's term. -/
theorem branch_prefix_append (h : Consistent qs W a) {i : ν}
    (hwin : a.winner (a.term i) = some i) (e : ε) (T : ℕ) :
    a.branch T <+: (a.append i e).branch T := by
  rcases eq_or_ne T (a.term i) with rfl | hne
  · simp [h.winner_log i hwin]
  · simp [hne]

theorem append (h : Consistent qs W a) {i : ν} {e : ε} (hwin : a.winner (a.term i) = some i)
    (he : term e = a.term i) : Consistent qs W (a.append i e) := by
  have hgrow := h.branch_prefix_append hwin e
  have hnew : OnBranch (a.append i e).branch (a.log i ++ [e]) := by
    refine ((h.log_on i).mono hgrow).concat ?_
    simp [he]
  have hnew_le : ∀ x ∈ a.log i ++ [e], term x ≤ a.term i := by
    intro x hx
    rcases List.mem_append.mp hx with hold | hlast
    · exact h.log_le i x hold
    · obtain rfl : x = e := by simpa using hlast
      exact he.le
  exact
  { h with
    branch_on := fun T => by
      rcases eq_or_ne T (a.term i) with rfl | hne
      · simpa using hnew
      · have := (h.branch_on T).mono hgrow
        simpa [hne] using this
    branch_le := fun T x hx => by
      rcases eq_or_ne T (a.term i) with rfl | hne
      · exact hnew_le x (by simpa using hx)
      · exact h.branch_le T x (by simpa [hne] using hx)
    branch_nil := fun T hT => by
      rcases eq_or_ne T (a.term i) with rfl | hne
      · exact absurd hT (by simp [hwin])
      · simpa [hne] using h.branch_nil T hT
    root_prefix := fun T => (h.root_prefix T).trans (hgrow T)
    log_on := fun j => by
      rcases eq_or_ne j i with rfl | hne
      · simpa using hnew
      · have := (h.log_on j).mono hgrow
        simpa [hne] using this
    log_le := fun j x hx => by
      rcases eq_or_ne j i with rfl | hne
      · exact hnew_le x (by simpa using hx)
      · exact h.log_le j x (by simpa [hne] using hx)
    bid_on := fun j T l hb => (h.bid_on j T l hb).mono hgrow
    winner_log := fun j hw => by
      rcases eq_or_ne j i with rfl | hne
      · simp
      · have hterm : a.term j ≠ a.term i := by
          intro heq
          rw [show (a.append i e).winner = a.winner from rfl,
            show (a.append i e).term = a.term from rfl, heq, hwin] at hw
          exact hne (Option.some.inj hw).symm
        have := h.winner_log j hw
        simpa [hne, hterm] using this
    winner_acks := fun j hw => by
      rcases eq_or_ne j i with rfl | hne
      · exact Or.inr ⟨rfl, rfl, by simp⟩
      · have := h.winner_acks j hw
        exact Or.inl (by simpa [hne] using this)
    acks_term := fun u T k hk => by
      rcases hk with hold | ⟨rfl, rfl, -⟩
      · exact h.acks_term u T k hold
      · exact le_rfl
    acks_le := fun hW u T k hk => by
      rcases hk with hold | ⟨rfl, rfl, rfl⟩
      · exact (h.acks_le hW u T k hold).trans (hgrow T).length_le
      · simp }

/-- **Every step keeps all logs on their branches**, whatever the rules. -/
theorem step (h : Consistent qs R.whole a) (hs : Step R qs a a') : Consistent qs R.whole a' := by
  cases hs with
  | observe i T hle => exact h.observe hle
  | stand i => exact h.stand i
  | grant u c l hbid hup => exact h.grant hbid
  | win i hnone hbid hquorum => exact h.win hnone hbid hquorum
  | append i e hwin he => exact h.append hwin he
  | accept i l hf hon hle hkeep hwhole => exact h.adopt hf hon hle hwhole
  | install i S hf hS hmay =>
    refine h.adopt hf ((h.branch_on _).of_isPrefix (List.take_prefix _ _)) ?_
      fun _ => List.take_prefix _ _
    exact fun e he => h.branch_le _ e (List.mem_of_mem_take he)
  | affirm i k hf hlog hk => exact h.affirm fun _ => hk.trans hlog.length_le

end Consistent

end TermLog
