import Ferrium.Lib.Growth

/-!
# What a quorum has acknowledged is never lost

A prefix `p` of the branch of `T` that ends in an entry of `T` is *choosable* while a quorum of
nodes has acknowledged it in `T` or may still do so, because it has not gone past `T`. Under strict
rules a choosable prefix is in the log of every node that acknowledged it, in the log of every
candidate that such a node has voted for later, and hence in the log of every later winner. Being
choosable can only be lost, which makes the three statements inductive together.

A prefix is *chosen* once a quorum has acknowledged it, and *settled* if it is part of a chosen
one.

## Main results

* `Complete.step`: under strict rules a choosable prefix is in the log of every later winner;
* `Settled.compatible`: any two settled prefixes are prefixes of one another.
-/

namespace TermLog

open Branch Termed

variable {ν ε : Type*} {qs : QuorumSystem ν} {a a' a'' : State ν ε} {W : Prop}
variable {u i w : ν} {T U t t' n : ℕ} {p p' l l' : List ε}

/-! ## Acknowledged, choosable, chosen -/

/-- In term `T`, node `u` has acknowledged index `n` or a higher one. -/
def Acked (a : State ν ε) (u : ν) (T n : ℕ) : Prop :=
  ∃ k, n ≤ k ∧ a.acks u T k

theorem Acked.mono (h : Acked a u T n) (hg : Grows a a') : Acked a' u T n := by
  obtain ⟨k, hn, hk⟩ := h
  exact ⟨k, hn, hg.acks u T k hk⟩

variable [Termed ε]

/-- The prefix `p` of the branch of `T`, with an entry of `T` at its end, has been acknowledged by
a quorum of nodes or may still be. -/
structure Choosable (qs : QuorumSystem ν) (a : State ν ε) (T : ℕ) (p : List ε) : Prop where
  ne_nil : p ≠ []
  lastTerm_eq : lastTerm p = T
  pre : p <+: a.branch T
  quorum : ∃ Q, qs.IsQuorum Q ∧ ∀ u ∈ Q, Acked a u T p.length ∨ a.term u ≤ T

/-- The prefix `p` of the branch of `T`, with an entry of `T` at its end, has been acknowledged by
a quorum of nodes. -/
structure Chosen (qs : QuorumSystem ν) (a : State ν ε) (T : ℕ) (p : List ε) : Prop where
  ne_nil : p ≠ []
  lastTerm_eq : lastTerm p = T
  pre : p <+: a.branch T
  quorum : ∃ Q, qs.IsQuorum Q ∧ ∀ u ∈ Q, Acked a u T p.length

theorem Chosen.choosable (h : Chosen qs a T p) : Choosable qs a T p := by
  obtain ⟨Q, hQ, hacked⟩ := h.quorum
  exact ⟨h.ne_nil, h.lastTerm_eq, h.pre, Q, hQ, fun u hu => Or.inl (hacked u hu)⟩

theorem Chosen.mono (h : Chosen qs a T p) (hg : Grows a a') : Chosen qs a' T p := by
  obtain ⟨Q, hQ, hacked⟩ := h.quorum
  exact ⟨h.ne_nil, h.lastTerm_eq, h.pre.trans (hg.branch T), Q, hQ,
    fun u hu => (hacked u hu).mono hg⟩

omit [Termed ε] in
/-- A node acknowledges in its current term. -/
theorem acks_or_current {u i : ν} {T k n : ℕ}
    (h : a.acks u T k ∨ (u = i ∧ T = a.term i ∧ k = n)) : a.acks u T k ∨ T = a.term u := by
  rcases h with hold | ⟨rfl, hT, -⟩
  · exact Or.inl hold
  · exact Or.inr hT

/-- A step makes nothing choosable that was on the branch before: a node acknowledges only in its
current term, in which it was still free to do so. -/
theorem Choosable.of_later (h : Choosable qs a' T p) (hpre : p <+: a.branch T)
    (hterm : ∀ u, a.term u ≤ a'.term u)
    (hacks : ∀ u T k, a'.acks u T k → a.acks u T k ∨ T = a.term u) : Choosable qs a T p := by
  obtain ⟨Q, hQ, hfree⟩ := h.quorum
  refine ⟨h.ne_nil, h.lastTerm_eq, hpre, Q, hQ, fun u hu => ?_⟩
  rcases hfree u hu with ⟨k, hn, hk⟩ | hle
  · rcases hacks u T k hk with hold | hcur
    · exact Or.inl ⟨k, hn, hold⟩
    · exact Or.inr hcur.ge
  · exact Or.inr ((hterm u).trans hle)

/-! ## Completeness -/

/-- What a quorum has acknowledged, or may still acknowledge, is kept where it counts. -/
structure Complete (qs : QuorumSystem ν) (a : State ν ε) : Prop where
  /-- in the log with which a later term was won; -/
  leader : ∀ {T U p w}, Choosable qs a T p → T < U → a.winner U = some w → p <+: a.root U
  /-- in the log of a node that acknowledged it; -/
  retained : ∀ {T p u}, Choosable qs a T p → Acked a u T p.length → p <+: a.log u
  /-- in the log of a candidate that such a node voted for in a later term. -/
  voted : ∀ {T U p u c l}, Choosable qs a T p → T < U → a.votes u U c →
    Acked a u T p.length → a.bid c U = some l → p <+: l

theorem Complete.init : Complete qs (State.init : State ν ε) where
  leader _ _ hw := by simp [State.init] at hw
  retained _ hacked := hacked.elim fun _ h => h.2.elim
  voted _ _ hv := hv.elim

namespace Complete

/-- A choosable prefix of `T` is on the branch of every term from `T` on that has been won. -/
theorem prefix_branch (hc : Complete qs a) (h : Consistent qs W a) (hp : Choosable qs a T p)
    (hTU : T ≤ U) (hw : a.winner U = some w) : p <+: a.branch U := by
  rcases hTU.eq_or_lt with rfl | hlt
  · exact hp.pre
  · exact (hc.leader hp hlt hw).trans (h.root_prefix U)

/-- The quorum that may choose a prefix of `T` shares a node with the quorum that elected the
winner of a later term; that node has gone past `T`, so it has acknowledged the prefix. -/
theorem exists_acked_voter (h : Consistent qs W a) (hp : Choosable qs a T p) (hTU : T < U)
    {Q : Finset ν} {c : ν} (hQ : qs.IsQuorum Q) (hvotes : ∀ u ∈ Q, a.votes u U c) :
    ∃ u ∈ Q, Acked a u T p.length := by
  obtain ⟨Q', hQ', hfree⟩ := hp.quorum
  obtain ⟨u, hu', hu⟩ := qs.inter hQ' hQ
  refine ⟨u, hu, (hfree u hu').resolve_right fun hle => ?_⟩
  exact absurd ((h.votes_term u U c (hvotes u hu)).trans hle) (Nat.not_le_of_lt hTU)

/-- A vote for an up-to-date candidate passes on what the voter has acknowledged. -/
theorem prefix_of_upToDate (hc : Complete qs a) (h : Consistent qs W a)
    (hp : Choosable qs a T p) (hlog : p <+: a.log u) (hon : OnBranch a.branch l)
    (hup : UpToDate l (a.log u)) : p <+: l := by
  refine hup.prefix hon (h.log_on u) h.branch_le hlog fun hlt => ?_
  rw [hp.lastTerm_eq] at hlt
  have hne : l ≠ [] := by
    rintro rfl
    exact absurd hlt (Nat.not_lt_zero _)
  obtain ⟨w, hw⟩ := h.exists_winner (hon.prefix_lastTerm.ne_nil hne)
  exact hc.prefix_branch h hp hlt.le hw

theorem grant (hc : Complete qs a) (h : Consistent qs W a) {c : ν}
    (hbid : a.bid c (a.term u) = some l) (hup : UpToDate l (a.log u)) :
    Complete qs (a.grant u c) := by
  have hback : ∀ {T p}, Choosable qs (a.grant u c) T p → Choosable qs a T p := fun hp =>
    hp.of_later hp.pre (fun _ => le_rfl) fun _ _ _ hk => Or.inl hk
  exact
  { leader := fun hp hlt hw => hc.leader (hback hp) hlt hw
    retained := fun hp hacked => hc.retained (hback hp) hacked
    voted := fun {T U p v d l'} hp hlt hv hacked hbid' => by
      rcases hv with hold | ⟨rfl, rfl, rfl⟩
      · exact hc.voted (hback hp) hlt hold hacked hbid'
      · obtain rfl : l = l' := Option.some.inj (hbid.symm.trans hbid')
        exact hc.prefix_of_upToDate h (hback hp) (hc.retained (hback hp) hacked)
          (h.bid_on _ _ _ hbid) hup }

theorem win (hc : Complete qs a) (h : Consistent qs W a) (hnone : a.winner (a.term i) = none)
    (hbid : a.bid i (a.term i) = some (a.log i))
    (hquorum : ∃ Q, qs.IsQuorum Q ∧ ∀ u ∈ Q, a.votes u (a.term i) i) :
    Complete qs (a.win i) := by
  -- the entries of the new branch are all of earlier terms, so nothing on it is choosable yet
  have hpre : ∀ {T p}, Choosable qs (a.win i) T p → p <+: a.branch T := by
    intro T p hp
    rcases eq_or_ne T (a.term i) with rfl | hne
    · exfalso
      obtain ⟨q, e, rfl, he⟩ := exists_concat hp.ne_nil
      have hpre : q ++ [e] <+: a.log i := by simpa using hp.pre
      have hmem : e ∈ a.log i := hpre.subset (by simp)
      have hlt := h.bid_lt i _ _ hbid e hmem
      rw [he, hp.lastTerm_eq] at hlt
      exact lt_irrefl _ hlt
    · simpa [hne] using hp.pre
  have hback : ∀ {T p}, Choosable qs (a.win i) T p → Choosable qs a T p := fun hp =>
    hp.of_later (hpre hp) (fun _ => le_rfl) fun _ _ _ => acks_or_current
  have hacked_old : ∀ {u T p}, Choosable qs (a.win i) T p → Acked (a.win i) u T p.length →
      Acked a u T p.length := by
    rintro u T p hp ⟨k, hn, hold | ⟨rfl, rfl, rfl⟩⟩
    · exact ⟨k, hn, hold⟩
    · -- nothing of the term just won is choosable
      have := (hpre hp).ne_nil hp.ne_nil
      exact absurd (h.branch_nil _ hnone) this
  exact
  { leader := fun {T U p w} hp hlt hw => by
      rcases eq_or_ne U (a.term i) with rfl | hne
      · obtain ⟨Q, hQ, hvotes⟩ := hquorum
        obtain ⟨u, hu, hacked⟩ := exists_acked_voter h (hback hp) hlt hQ hvotes
        simpa using hc.voted (hback hp) hlt (hvotes u hu) hacked hbid
      · have := hc.leader (hback hp) hlt
          (by simpa [hne] using hw)
        simpa [hne] using this
    retained := fun hp hacked => hc.retained (hback hp) (hacked_old hp hacked)
    voted := fun hp hlt hv hacked hbid' =>
      hc.voted (hback hp) hlt hv (hacked_old hp hacked) hbid' }

/-- Acknowledging what the node holds anyway. -/
theorem affirm (hc : Complete qs a) (h : Consistent qs W a)
    (hlog : a.log i <+: a.branch (a.term i)) (hn : n ≤ (a.log i).length) :
    Complete qs (a.affirm i n) := by
  have hback : ∀ {T p}, Choosable qs (a.affirm i n) T p → Choosable qs a T p := fun hp =>
    hp.of_later hp.pre (fun _ => le_rfl) fun _ _ _ => acks_or_current
  exact
  { leader := fun hp hlt hw => hc.leader (hback hp) hlt hw
    retained := fun {T p u} hp hacked => by
      obtain ⟨k, hk, hold | ⟨rfl, rfl, rfl⟩⟩ := hacked
      · exact hc.retained (hback hp) ⟨k, hk, hold⟩
      · exact List.prefix_of_prefix_length_le hp.pre hlog (hk.trans hn)
    voted := fun {T U p u c l} hp hlt hv hacked hbid => by
      obtain ⟨k, hk, hold | ⟨rfl, rfl, rfl⟩⟩ := hacked
      · exact hc.voted (hback hp) hlt hv ⟨k, hk, hold⟩ hbid
      · exact absurd (h.votes_term _ _ _ hv) (Nat.not_le_of_lt hlt) }

variable [DecidableEq ν]

theorem observe (hc : Complete qs a) (hle : a.term i ≤ T) : Complete qs (a.observe i T) := by
  have hback : ∀ {U p}, Choosable qs (a.observe i T) U p → Choosable qs a U p := fun hp =>
    hp.of_later hp.pre (Consistent.le_update hle) fun _ _ _ hk => Or.inl hk
  exact
  { leader := fun hp hlt hw => hc.leader (hback hp) hlt hw
    retained := fun hp hacked => hc.retained (hback hp) hacked
    voted := fun hp hlt hv hacked hbid => hc.voted (hback hp) hlt hv hacked hbid }

theorem stand (hc : Complete qs a) (h : Consistent qs W a) (i : ν) :
    Complete qs (a.stand i) := by
  have hback : ∀ {U p}, Choosable qs (a.stand i) U p → Choosable qs a U p := fun hp =>
    hp.of_later hp.pre (Consistent.le_update (Nat.le_succ _)) fun _ _ _ hk => Or.inl hk
  exact
  { leader := fun hp hlt hw => hc.leader (hback hp) hlt hw
    retained := fun hp hacked => hc.retained (hback hp) hacked
    voted := fun {T U p u c l} hp hlt hv hacked hbid => by
      by_cases hnew : c = i ∧ U = a.term i + 1
      · obtain ⟨rfl, rfl⟩ := hnew
        obtain rfl : a.log c = l := by simpa [State.stand] using hbid
        rcases hv with hold | ⟨rfl, -, -⟩
        · -- nobody has voted for a candidacy that had not begun
          obtain ⟨l', hl'⟩ := h.votes_bid u _ c hold
          exact absurd (h.bid_term c _ l' hl').2 (by simp)
        · exact hc.retained (hback hp) hacked
      · have hbid' : a.bid c U = some l := by simpa only [State.stand, if_neg hnew] using hbid
        rcases hv with hold | ⟨-, hU, hci⟩
        · exact hc.voted (hback hp) hlt hold hacked hbid'
        · exact absurd ⟨hci, hU⟩ hnew }

/-- Taking another log that keeps what the old one shares with the branch of the term. -/
theorem adopt (hc : Complete qs a) (h : Consistent qs W a) (hf : a.Follows i)
    (hkeep : ∀ p, p <+: a.log i → p <+: a.branch (a.term i) → p <+: l)
    (hwhole : l <+: a.branch (a.term i)) : Complete qs (a.adopt i l) := by
  obtain ⟨w, hw, -⟩ := hf
  have hback : ∀ {T p}, Choosable qs (a.adopt i l) T p → Choosable qs a T p := fun hp =>
    hp.of_later hp.pre (fun _ => le_rfl) fun _ _ _ => acks_or_current
  exact
  { leader := fun hp hlt hw => hc.leader (hback hp) hlt hw
    retained := fun {T p u} hp hacked => by
      obtain ⟨k, hk, hold | ⟨rfl, rfl, rfl⟩⟩ := hacked
      · have hlog := hc.retained (hback hp) ⟨k, hk, hold⟩
        rcases eq_or_ne u i with rfl | hne
        · have hbranch := hc.prefix_branch h (hback hp) (h.acks_term _ _ _ hold) hw
          simpa using hkeep p hlog hbranch
        · simpa [hne] using hlog
      · have := List.prefix_of_prefix_length_le hp.pre hwhole hk
        simpa using this
    voted := fun {T U p u c l'} hp hlt hv hacked hbid => by
      obtain ⟨k, hk, hold | ⟨rfl, rfl, rfl⟩⟩ := hacked
      · exact hc.voted (hback hp) hlt hv ⟨k, hk, hold⟩ hbid
      · exact absurd (h.votes_term _ _ _ hv) (Nat.not_le_of_lt hlt) }

/-- The only node that has acknowledged the entry just appended is its author. -/
private theorem acked_append (h : Consistent qs True a) {e : ε} {i u : ν} {T : ℕ}
    (hwin : a.winner (a.term i) = some i)
    (hacked : Acked (a.append i e) u T (a.log i ++ [e]).length) (hT : T = a.term i) : u = i := by
  obtain ⟨k, hk, hold | ⟨rfl, -, -⟩⟩ := hacked
  · have hle := h.acks_le trivial u T k hold
    rw [hT, ← h.winner_log i hwin] at hle
    simp at hk
    omega
  · rfl

theorem append (hc : Complete qs a) (h : Consistent qs True a) {e : ε}
    (hwin : a.winner (a.term i) = some i) : Complete qs (a.append i e) := by
  -- a prefix on the grown branch was there before, or ends in the new entry
  have hcases : ∀ {T p}, Choosable qs (a.append i e) T p →
      Choosable qs a T p ∨ (T = a.term i ∧ p = a.log i ++ [e]) := by
    intro T p hp
    have hold : p <+: a.branch T → Choosable qs a T p := fun hpre =>
      hp.of_later hpre (fun _ => le_rfl) fun _ _ _ => acks_or_current
    rcases eq_or_ne T (a.term i) with rfl | hne
    · have hpre : p <+: a.log i ++ [e] := by simpa using hp.pre
      rcases List.prefix_concat_iff.mp hpre with heq | hlt
      · exact Or.inr ⟨rfl, heq⟩
      · exact Or.inl (hold (h.winner_log i hwin ▸ hlt))
    · exact Or.inl (hold (by simpa [hne] using hp.pre))
  have hacked_old : ∀ {u T p}, Choosable qs a T p → Acked (a.append i e) u T p.length →
      Acked a u T p.length ∨ (u = i ∧ T = a.term i) := by
    rintro u T p hp ⟨k, hk, hold | ⟨rfl, rfl, -⟩⟩
    · exact Or.inl ⟨k, hk, hold⟩
    · exact Or.inr ⟨rfl, rfl⟩
  exact
  { leader := fun {T U p w} hp hlt hw => by
      rcases hcases hp with hold | ⟨rfl, rfl⟩
      · exact hc.leader hold hlt hw
      · -- the voters of the later term have gone past this one without the new entry
        exfalso
        obtain ⟨Q, hQ, hvotes⟩ := h.winner_quorum U w hw
        obtain ⟨Q', hQ', hfree⟩ := hp.quorum
        obtain ⟨u, hu', hu⟩ := qs.inter hQ' hQ
        have hterm : U ≤ a.term u := h.votes_term u U w (hvotes u hu)
        rcases hfree u hu' with hacked | hle
        · obtain rfl := acked_append h hwin hacked rfl
          omega
        · have : a.term u ≤ a.term i := hle
          omega
    retained := fun {T p u} hp hacked => by
      have hgrow : a.log u <+: (a.append i e).log u := by
        rcases eq_or_ne u i with rfl | hne
        · simp
        · simp [hne]
      rcases hcases hp with hold | ⟨rfl, rfl⟩
      · rcases hacked_old hold hacked with hacked' | ⟨rfl, rfl⟩
        · exact (hc.retained hold hacked').trans hgrow
        · exact (h.winner_log u hwin ▸ hold.pre).trans hgrow
      · obtain rfl := acked_append h hwin hacked rfl
        simp
    voted := fun {T U p u c l} hp hlt hv hacked hbid => by
      have hterm : U ≤ a.term u := h.votes_term u U c hv
      rcases hcases hp with hold | ⟨rfl, rfl⟩
      · rcases hacked_old hold hacked with hacked' | ⟨rfl, rfl⟩
        · exact hc.voted hold hlt hv hacked' hbid
        · exact absurd hterm (Nat.not_le_of_lt hlt)
      · obtain rfl := acked_append h hwin hacked rfl
        exact absurd hterm (Nat.not_le_of_lt hlt) }

end Complete

variable [DecidableEq ν] {R R' : Rules ν ε}

/-- All the checks are made: votes need an up-to-date candidate, acknowledgements are of whole
logs, and a snapshot drops nothing that the log shares with the branch. -/
structure Rules.Strict (R : Rules ν ε) : Prop where
  upToDate : R.upToDate
  whole : R.whole
  keeps : ∀ a i S, R.mayInstall a i S → ∀ p, p <+: a.log i → p <+: a.branch (a.term i) →
    p <+: (a.branch (a.term i)).take S

/-- **Under strict rules every step keeps what may be chosen.** -/
theorem Complete.step (hc : Complete qs a) (h : Consistent qs R.whole a) (hR : R.Strict)
    (hs : Step R qs a a') : Complete qs a' := by
  cases hs with
  | observe i T hle => exact hc.observe hle
  | stand i => exact hc.stand h i
  | grant u c l hbid hup => exact hc.grant h hbid (hup hR.upToDate)
  | win i hnone hbid hquorum => exact hc.win h hnone hbid hquorum
  | append i e hwin he =>
    have htrue : Consistent qs True a := { h with acks_le := fun _ => h.acks_le hR.whole }
    exact hc.append htrue hwin
  | accept i l hf hon hle hkeep hwhole => exact hc.adopt h hf hkeep (hwhole hR.whole)
  | install i S hf hS hmay =>
    exact hc.adopt h hf (hR.keeps a i S hmay) (List.take_prefix _ _)
  | affirm i k hf hlog hk => exact hc.affirm h hlog hk

theorem Steps.complete (hs : Steps R qs a a') (hR : R.Strict) (h : Consistent qs R.whole a)
    (hc : Complete qs a) : Complete qs a' := by
  induction hs with
  | refl => exact hc
  | tail hs hstep ih => exact ih.step (Steps.consistent hs h) hR hstep

/-! ## Settled prefixes -/

omit [DecidableEq ν]

/-- `l` is part of what has been chosen in a term up to `t`. -/
def Settled (qs : QuorumSystem ν) (a : State ν ε) (t : ℕ) (l : List ε) : Prop :=
  l = [] ∨ ∃ T p, T ≤ t ∧ Chosen qs a T p ∧ l <+: p

theorem settled_nil : Settled qs a t ([] : List ε) :=
  Or.inl rfl

theorem Chosen.settled (h : Chosen qs a T p) (hle : T ≤ t) : Settled qs a t p :=
  Or.inr ⟨T, p, hle, h, List.prefix_rfl⟩

theorem Settled.of_isPrefix (h : Settled qs a t l) (hp : l' <+: l) : Settled qs a t l' := by
  rcases h with rfl | ⟨T, p, hle, hc, hl⟩
  · exact Or.inl (List.prefix_nil.mp hp)
  · exact Or.inr ⟨T, p, hle, hc, hp.trans hl⟩

theorem Settled.mono (h : Settled qs a t l) (hle : t ≤ t') (hg : Grows a a') :
    Settled qs a' t' l := by
  rcases h with rfl | ⟨T, p, hT, hc, hl⟩
  · exact Or.inl rfl
  · exact Or.inr ⟨T, p, hT.trans hle, hc.mono hg, hl⟩

/-- What is settled by term `t` is on the branch of every term from `t` on that has been won. -/
theorem Settled.prefix_branch (hl : Settled qs a t l) (hc : Complete qs a)
    (h : Consistent qs W a) (hle : t ≤ U) (hw : a.winner U = some w) : l <+: a.branch U := by
  rcases hl with rfl | ⟨T, p, hT, hp, hlp⟩
  · exact List.nil_prefix
  · exact hlp.trans (hc.prefix_branch h hp.choosable (hT.trans hle) hw)

/-- What is settled by term `t` is in the log with which any later term was won. -/
theorem Settled.prefix_root (hl : Settled qs a t l) (hc : Complete qs a) (hlt : t < U)
    (hw : a.winner U = some w) : l <+: a.root U := by
  rcases hl with rfl | ⟨T, p, hT, hp, hlp⟩
  · exact List.nil_prefix
  · exact hlp.trans (hc.leader hp.choosable (hT.trans_lt hlt) hw)

/-- **Any two settled prefixes are prefixes of one another.** -/
theorem Settled.compatible (hl : Settled qs a t l) (hl' : Settled qs a t' l')
    (hc : Complete qs a) (h : Consistent qs W a) : l <+: l' ∨ l' <+: l := by
  rcases hl with rfl | ⟨T, p, -, hp, hlp⟩
  · exact Or.inl List.nil_prefix
  rcases hl' with rfl | ⟨T', p', -, hp', hlp'⟩
  · exact Or.inr List.nil_prefix
  -- both are on the branch of the later one of the two terms
  rcases le_total T T' with hle | hle
  · obtain ⟨w, hw⟩ := h.exists_winner (hp'.pre.ne_nil hp'.ne_nil)
    exact List.prefix_or_prefix_of_prefix
      (hlp.trans (hc.prefix_branch h hp.choosable hle hw)) (hlp'.trans hp'.pre)
  · obtain ⟨w, hw⟩ := h.exists_winner (hp.pre.ne_nil hp.ne_nil)
    exact List.prefix_or_prefix_of_prefix (hlp.trans hp.pre)
      (hlp'.trans (hc.prefix_branch h hp'.choosable hle hw))

end TermLog
