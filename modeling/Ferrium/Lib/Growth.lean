import Ferrium.Lib.TermLog
import Mathlib.Logic.Relation

/-!
# What the steps of the abstract log preserve

Facts about elections, branches and acknowledgements are only added, never taken back (`Grows`), and
a step of one node leaves the term and the log of the others alone (`Frame`). Logs may shrink; two
conditions on the installation of snapshots say what stays in them within a term.

## Main results

* `Step.grows`: facts are only added;
* `Synced.step`: acknowledgements of the current term stay true, if a snapshot is only installed
  when it reaches everything acknowledged;
* `Holds.step`: what a node has once taken over from the branch of a term it keeps for that term,
  if a snapshot that it installs reaches as far.
-/

namespace TermLog

open Branch Termed

variable {ν ε : Type*} {qs : QuorumSystem ν} {a a' a'' : State ν ε} {W : Prop}
variable {u i f : ν} {T n : ℕ} {p l : List ε}

/-- `a'` is a later state than `a`: facts are only added. -/
structure Grows (a a' : State ν ε) : Prop where
  term : ∀ i, a.term i ≤ a'.term i
  branch : ∀ T, a.branch T <+: a'.branch T
  winner : ∀ T w, a.winner T = some w → a'.winner T = some w
  root : ∀ T w, a.winner T = some w → a'.root T = a.root T
  bid : ∀ i T l, a.bid i T = some l → a'.bid i T = some l
  votes : ∀ u T c, a.votes u T c → a'.votes u T c
  acks : ∀ u T k, a.acks u T k → a'.acks u T k

theorem Grows.refl (a : State ν ε) : Grows a a where
  term _ := le_rfl
  branch _ := List.prefix_rfl
  winner _ _ h := h
  root _ _ _ := rfl
  bid _ _ _ h := h
  votes _ _ _ h := h
  acks _ _ _ h := h

theorem Grows.trans (h : Grows a a') (h' : Grows a' a'') : Grows a a'' where
  term i := (h.term i).trans (h'.term i)
  branch T := (h.branch T).trans (h'.branch T)
  winner T w hw := h'.winner T w (h.winner T w hw)
  root T w hw := (h'.root T w (h.winner T w hw)).trans (h.root T w hw)
  bid i T l hb := h'.bid i T l (h.bid i T l hb)
  votes u T c hv := h'.votes u T c (h.votes u T c hv)
  acks u T k hk := h'.acks u T k (h.acks u T k hk)

/-- A change that concerns node `i`: the other nodes stay in their terms, keep their logs and win
nothing. -/
structure Frame (i : ν) (a a' : State ν ε) : Prop extends Grows a a' where
  term_eq : ∀ j ≠ i, a'.term j = a.term j
  log_eq : ∀ j ≠ i, a'.log j = a.log j
  winner_of : ∀ j ≠ i, ∀ T, a'.winner T = some j → a.winner T = some j

theorem Frame.refl (i : ν) (a : State ν ε) : Frame i a a :=
  { Grows.refl a with
    term_eq := fun _ _ => rfl
    log_eq := fun _ _ => rfl
    winner_of := fun _ _ _ h => h }

theorem frame_grant (i u c : ν) : Frame i a (a.grant u c) :=
  { Frame.refl i a with votes := fun _ _ _ hv => Or.inl hv }

theorem frame_affirm (i u : ν) (k : ℕ) : Frame i a (a.affirm u k) :=
  { Frame.refl i a with acks := fun _ _ _ hk => Or.inl hk }

variable [Termed ε]

theorem frame_win (h : Consistent qs W a) (hnone : a.winner (a.term i) = none) :
    Frame i a (a.win i) := by
  -- a term that has been won before is not the one that is won now
  have hother : ∀ {T w}, a.winner T = some w → T ≠ a.term i := by
    rintro T w hw rfl
    rw [hnone] at hw
    cases hw
  exact
  { Frame.refl i a with
    branch := h.branch_prefix_win hnone
    winner := fun T w hw => by simp [(hother hw), hw]
    root := fun T w hw => by simp [(hother hw)]
    acks := fun _ _ _ hk => Or.inl hk
    winner_of := fun j hj T hw => by
      rcases eq_or_ne T (a.term i) with rfl | hne
      · exact absurd (by simpa using hw) hj.symm
      · simpa [hne] using hw }

variable [DecidableEq ν]

omit [Termed ε] in
theorem frame_observe (hle : a.term i ≤ T) : Frame i a (a.observe i T) :=
  { Frame.refl i a with
    term := Consistent.le_update hle
    term_eq := fun _ hj => Function.update_of_ne hj _ _ }

theorem frame_stand (h : Consistent qs W a) (i : ν) : Frame i a (a.stand i) :=
  { Frame.refl i a with
    term := Consistent.le_update (Nat.le_succ _)
    term_eq := fun _ hj => Function.update_of_ne hj _ _
    bid := fun j T l hb => by
      -- a candidacy in a term that the node has not reached is new
      have hnot : ¬(j = i ∧ T = a.term i + 1) := by
        rintro ⟨rfl, rfl⟩
        exact absurd (h.bid_term j _ l hb).2 (Nat.not_succ_le_self _)
      simpa only [State.stand, if_neg hnot] using hb
    votes := fun _ _ _ hv => Or.inl hv }

theorem frame_append (h : Consistent qs W a) (hwin : a.winner (a.term i) = some i) (e : ε) :
    Frame i a (a.append i e) :=
  { Frame.refl i a with
    branch := h.branch_prefix_append hwin e
    acks := fun _ _ _ hk => Or.inl hk
    log_eq := fun _ hj => Function.update_of_ne hj _ _ }

omit [Termed ε] in
theorem frame_adopt (i : ν) (l : List ε) : Frame i a (a.adopt i l) :=
  { Frame.refl i a with
    acks := fun _ _ _ hk => Or.inl hk
    log_eq := fun _ hj => Function.update_of_ne hj _ _ }

/-! ## Runs -/

variable {R R' : Rules ν ε}

/-- Facts are only added by a step. -/
theorem Step.grows (h : Consistent qs W a) (hs : Step R qs a a') : Grows a a' := by
  cases hs with
  | observe i T hle => exact (frame_observe hle).toGrows
  | stand i => exact (frame_stand h i).toGrows
  | grant u c l hbid hup => exact (frame_grant u u c).toGrows
  | win i hnone hbid hquorum => exact (frame_win h hnone).toGrows
  | append i e hwin he => exact (frame_append h hwin e).toGrows
  | accept i l hf hon hle hkeep hwhole => exact (frame_adopt i l).toGrows
  | install i S hf hS hmay => exact (frame_adopt i _).toGrows
  | affirm i k hf hlog hk => exact (frame_affirm i i k).toGrows

/-- `a'` is reached from `a` by steps. -/
abbrev Steps (R : Rules ν ε) (qs : QuorumSystem ν) : State ν ε → State ν ε → Prop :=
  Relation.ReflTransGen (Step R qs)

theorem Steps.consistent (hs : Steps R qs a a') (h : Consistent qs R.whole a) :
    Consistent qs R.whole a' := by
  induction hs with
  | refl => exact h
  | tail _ hstep ih => exact ih.step hstep

theorem Steps.grows (hs : Steps R qs a a') (h : Consistent qs R.whole a) : Grows a a' := by
  induction hs with
  | refl => exact Grows.refl a
  | tail hs hstep ih => exact ih.trans (hstep.grows (Steps.consistent hs h))

/-! ## Acknowledgements of the current term -/

/-- A node that has acknowledged something in its current term, not being its winner, holds the
branch of that term and nothing else, at least as far as it has acknowledged. -/
def Synced (a : State ν ε) : Prop :=
  ∀ u k, a.acks u (a.term u) k → a.winner (a.term u) ≠ some u →
    a.log u <+: a.branch (a.term u) ∧ k ≤ (a.log u).length

/-- Logs are acknowledged as a whole, and a snapshot is only installed when it reaches everything
that the node has acknowledged in its term. -/
structure Rules.KeepsAcked (R : Rules ν ε) : Prop where
  whole : R.whole
  reaches : ∀ a i S, R.mayInstall a i S → ∀ k, a.acks i (a.term i) k → k ≤ S

omit [Termed ε] [DecidableEq ν] in
theorem synced_init : Synced (State.init : State ν ε) :=
  fun _ _ h => h.elim

omit [DecidableEq ν] in
theorem Synced.win (hy : Synced a) (h : Consistent qs W a) (i : ν)
    (hnone : a.winner (a.term i) = none) : Synced (a.win i) := by
  rintro u k (hold | ⟨rfl, -, -⟩) hne
  · have hne' : a.winner (a.term u) ≠ some u := fun hw =>
      hne ((frame_win h hnone).winner _ _ hw)
    obtain ⟨hlog, hk⟩ := hy u k hold hne'
    exact ⟨hlog.trans (h.branch_prefix_win hnone _), hk⟩
  · exact absurd (by simp) hne

/-- Entering a term in which the node has not acknowledged anything yet, or staying in its term. -/
theorem Synced.update_term (hy : Synced a) (h : Consistent qs W a) (hle : a.term i ≤ T)
    (hterm : a'.term = Function.update a.term i T) (hlog : a'.log = a.log)
    (hbranch : a'.branch = a.branch) (hwinner : a'.winner = a.winner) (hacks : a'.acks = a.acks) :
    Synced a' := by
  intro u k hk hne
  rw [hterm, hacks] at hk
  rw [hterm, hwinner] at hne
  rw [hterm, hlog, hbranch]
  have hsame : Function.update a.term i T u = a.term u :=
    le_antisymm (h.acks_term u _ k hk) (Consistent.le_update hle u)
  rw [hsame] at hk hne ⊢
  exact hy u k hk hne

omit [Termed ε] in
theorem Synced.adopt (hy : Synced a) (hf : a.Follows i) (hwhole : l <+: a.branch (a.term i))
    (hkeep : ∀ k, a.acks i (a.term i) k → k ≤ l.length) : Synced (a.adopt i l) := by
  rintro u k (hold | ⟨rfl, -, rfl⟩) hne
  · rcases eq_or_ne u i with rfl | hui
    · simpa using ⟨hwhole, hkeep k hold⟩
    · simpa [hui] using hy u k hold hne
  · simpa using hwhole

theorem Synced.append (hy : Synced a) (h : Consistent qs W a) {e : ε}
    (hwin : a.winner (a.term i) = some i) : Synced (a.append i e) := by
  rintro u k (hold | ⟨rfl, -, -⟩) hne
  · have hui : u ≠ i := by
      rintro rfl
      exact hne hwin
    obtain ⟨hlog, hk⟩ := hy u k hold hne
    refine ⟨?_, by simpa [hui] using hk⟩
    have := hlog.trans (h.branch_prefix_append hwin e (a.term u))
    simpa [hui] using this
  · exact absurd hwin hne

/-- **Acknowledgements of the current term stay true.** -/
theorem Synced.step (hy : Synced a) (h : Consistent qs R.whole a) (hR : R.KeepsAcked)
    (hs : Step R qs a a') : Synced a' := by
  cases hs with
  | observe i T hle => exact hy.update_term h hle rfl rfl rfl rfl rfl
  | stand i => exact hy.update_term h (Nat.le_succ _) rfl rfl rfl rfl rfl
  | grant u c l hbid hup => exact hy
  | win i hnone hbid hquorum => exact hy.win h i hnone
  | append i e hwin he => exact hy.append h hwin
  | accept i l hf hon hle hkeep hwhole =>
    refine hy.adopt hf (hwhole hR.whole) fun k hk => ?_
    obtain ⟨hlog, hk'⟩ := hy i k hk hf.winner_ne
    exact hk'.trans (hkeep _ List.prefix_rfl hlog).length_le
  | install i S hf hS hmay =>
    refine hy.adopt hf (List.take_prefix _ _) fun k hk => ?_
    rw [List.length_take, min_eq_left hS]
    exact hR.reaches a i S hmay k hk
  | affirm i k hf hlog hk =>
    rintro u n (hold | ⟨rfl, -, rfl⟩) hne
    · exact hy u n hold hne
    · exact ⟨hlog, hk⟩

theorem Steps.synced (hs : Steps R qs a a') (hR : R.KeepsAcked) (h : Consistent qs R.whole a)
    (hy : Synced a) : Synced a' := by
  induction hs with
  | refl => exact hy
  | tail hs hstep ih => exact ih.step (Steps.consistent hs h) hR hstep

/-! ## What one node has taken over -/

/-- Node `f` has taken over the prefix `p` of the branch of `T`, which another node has won, and
still has it if it is in that term. -/
structure Holds (a : State ν ε) (f : ν) (T : ℕ) (p : List ε) : Prop where
  term_le : T ≤ a.term f
  winner : ∃ w, a.winner T = some w ∧ w ≠ f
  pre : p <+: a.branch T
  kept : a.term f = T → p <+: a.log f

/-- **What a node has taken over it keeps for the term**, if every snapshot that it installs in the
term reaches as far. -/
theorem Holds.step (hh : Holds a f T p) (h : Consistent qs R.whole a)
    (hR : ∀ a S, R.mayInstall a f S → a.term f = T → p.length ≤ S) (hs : Step R qs a a') :
    Holds a' f T p := by
  have hg := hs.grows h
  obtain ⟨w, hw, hwf⟩ := hh.winner
  refine ⟨hh.term_le.trans (hg.term f), ⟨w, hg.winner T w hw, hwf⟩, hh.pre.trans (hg.branch T), ?_⟩
  intro hterm
  -- the node was in the term before, and may be the one that has changed its log
  have hterm' : a.term f = T := le_antisymm (hterm ▸ hg.term f) hh.term_le
  have hlog := hh.kept hterm'
  cases hs with
  | observe i U hle => exact hlog
  | stand i => exact hlog
  | grant u c l hbid hup => exact hlog
  | win i hnone hbid hquorum => exact hlog
  | affirm i k hf hlog' hk => exact hlog
  | append i e hwin he =>
    rcases eq_or_ne f i with rfl | hne
    · simpa using hlog.trans (List.prefix_append _ _)
    · simpa [hne] using hlog
  | accept i l hf hon hle hkeep hwhole =>
    rcases eq_or_ne f i with rfl | hne
    · simpa using hkeep p hlog (hterm' ▸ hh.pre)
    · simpa [hne] using hlog
  | install i S hf hS hmay =>
    rcases eq_or_ne f i with rfl | hne
    · have hpre : p <+: a.branch (a.term f) := hterm' ▸ hh.pre
      have hlen : p.length ≤ S := hR a S hmay hterm'
      simpa using List.prefix_take_iff.mpr ⟨hpre, hlen⟩
    · simpa [hne] using hlog

theorem Steps.holds (hs : Steps R qs a a') (h : Consistent qs R.whole a)
    (hR : ∀ a S, R.mayInstall a f S → a.term f = T → p.length ≤ S) (hh : Holds a f T p) :
    Holds a' f T p := by
  induction hs with
  | refl => exact hh
  | tail hs hstep ih => exact ih.step (Steps.consistent hs h) hR hstep

end TermLog
