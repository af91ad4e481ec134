import Ferrium.Lib.Branch
import Ferrium.Raft.Log

/-!
# The log that nothing was discarded from

A `RaftLog` keeps the entries above its snapshot point, and of the rest only the index and a term.
`Covers b l log` relates it to the complete log `l`: the entries are those of `l` above the
snapshot point, and the term recorded for that point names a branch of `b` on which the discarded
part lies. Under this relation every operation on `log` is one on `l`, in which no offset
arithmetic is left.

The recorded term need not be that of the last discarded entry. `TrueLabel` says that it is.

## Main results

* `Covers.splice`: splicing a window of a branch into a log keeps everything that the log shares
  with that branch;
* `Covers.compact`, `Covers.append`, `Covers.installSnapshot`: the other operations;
* `Covers.of_matches`: a position that passes the consistency check lies on the branch of its term.
-/

namespace Ferrium

open Branch

instance : Termed LogEntry := ⟨LogEntry.term⟩

namespace RaftLog

variable {b b' : ℕ → List LogEntry} {l l' B es : List LogEntry} {log : RaftLog} {i j : ℕ}

/-! ### Reading -/

theorem get_eq_none_of_le (h : i ≤ log.snapshotIndex) : log.get i = none := by
  simp [get, h]

/-- Above the snapshot point, an index is an offset into the entries. -/
theorem get_of_lt (h : log.snapshotIndex < i) :
    log.get i = log.entries[i - log.snapshotIndex - 1]? := by
  unfold get
  split
  · next hout =>
    have hlen : log.entries.length ≤ i - log.snapshotIndex - 1 := by
      simp only [lastIndex] at hout
      omega
    exact (List.getElem?_eq_none hlen).symm
  · rfl

/-- Only indices within the log hold an entry. -/
theorem le_lastIndex_of_get {e : LogEntry} (h : log.get i = some e) : i ≤ log.lastIndex := by
  by_contra hlt
  have hnone : log.get i = none := if_pos (Or.inr (not_le.mp hlt))
  rw [hnone] at h
  cases h

/-- What is discarded holds no entry. -/
theorem snapshotIndex_lt_of_get {e : LogEntry} (h : log.get i = some e) :
    log.snapshotIndex < i := by
  by_contra hle
  rw [get_eq_none_of_le (not_lt.mp hle)] at h
  cases h

/-- Every index above the snapshot point and not past the end holds an entry. -/
theorem exists_get_of_lt (hlt : log.snapshotIndex < i) (hle : i ≤ log.lastIndex) :
    ∃ e, log.get i = some e := by
  rw [get_of_lt hlt]
  unfold lastIndex at hle
  exact ⟨_, List.getElem?_eq_getElem (by omega)⟩

theorem termAt_snapshotIndex : log.termAt log.snapshotIndex = some log.snapshotTerm := by
  simp [termAt]

theorem termAt_of_ne (h : i ≠ log.snapshotIndex) :
    log.termAt i = (log.get i).map LogEntry.term := by
  simp [termAt, h]

/-- Where there is an entry, its term is known. -/
theorem termAt_of_get {e : LogEntry} (h : log.get i = some e) : log.termAt i = some e.term := by
  rw [termAt_of_ne (snapshotIndex_lt_of_get h).ne', h]
  rfl

/-- A position whose term is known is not below the snapshot point. -/
theorem snapshotIndex_le_of_termAt {t : ℕ} (h : log.termAt i = some t) :
    log.snapshotIndex ≤ i := by
  by_contra hlt
  rw [not_le] at hlt
  rw [termAt_of_ne hlt.ne, get_eq_none_of_le hlt.le] at h
  cases h

/-- A position whose term is known is within the log. -/
theorem le_lastIndex_of_termAt {i t : ℕ} (h : log.termAt i = some t) : i ≤ log.lastIndex := by
  rcases eq_or_ne i log.snapshotIndex with rfl | hne
  · exact Nat.le_add_right _ _
  · rw [termAt_of_ne hne, Option.map_eq_some_iff] at h
    obtain ⟨e, he, -⟩ := h
    exact le_lastIndex_of_get he

/-- A position that passes the consistency check is within the log. -/
theorem le_lastIndex_of_matches {i t : ℕ} (h : log.matches i t = true) : i ≤ log.lastIndex := by
  unfold «matches» at h
  split at h
  · next hterm => exact le_lastIndex_of_termAt hterm
  · rw [beq_iff_eq] at h
    exact h ▸ Nat.zero_le _

/-- The term of every position from the snapshot point to the end is known. -/
theorem exists_termAt (hsnap : log.snapshotIndex ≤ i) (hle : i ≤ log.lastIndex) :
    ∃ t, log.termAt i = some t := by
  rcases hsnap.eq_or_lt with rfl | hlt
  · exact ⟨_, termAt_snapshotIndex⟩
  · obtain ⟨e, he⟩ := exists_get_of_lt hlt hle
    exact ⟨e.term, termAt_of_get he⟩

/-- A position from the snapshot point on passes the consistency check with its own term only. -/
theorem termAt_of_matches {t : ℕ} (hsnap : log.snapshotIndex ≤ i)
    (h : log.matches i t = true) : log.termAt i = some t := by
  obtain ⟨s, hs⟩ := exists_termAt hsnap (le_lastIndex_of_matches h)
  unfold «matches» at h
  rw [hs] at h ⊢
  rw [beq_iff_eq.mp h]

/-- The entries `es` agree with the log from position `next` on: each position holds an entry of
the same term, or is the snapshot point with that term. -/
def agreesFrom (log : RaftLog) (next : ℕ) : List LogEntry → Prop
  | [] => True
  | entry :: rest => log.termAt next = some entry.term ∧ log.agreesFrom (next + 1) rest

instance decidableAgreesFrom (log : RaftLog) :
    ∀ (next : ℕ) (es : List LogEntry), Decidable (log.agreesFrom next es)
  | _, [] => isTrue trivial
  | next, _ :: rest => @instDecidableAnd _ _ inferInstance (decidableAgreesFrom log (next + 1) rest)

/-- Agreement at one of the entries. -/
theorem agreesFrom.termAt_eq {next : ℕ} {e : LogEntry} {es' : List LogEntry}
    (h : log.agreesFrom next (es ++ e :: es')) :
    log.termAt (next + es.length) = some e.term := by
  induction es generalizing next with
  | nil => exact h.1
  | cons x es ih =>
    have := ih h.2
    rwa [List.length_cons, Nat.add_comm es.length 1, ← Nat.add_assoc]

/-- What `splice` does: nothing if all entries agree, and else it replaces everything from the
first conflict on. -/
theorem spliceFrom_cases (log : RaftLog) (next : ℕ) (es : List LogEntry) :
    (log.agreesFrom next es ∧ log.spliceFrom next es = log) ∨
      ∃ es₁ e es₂, es = es₁ ++ e :: es₂ ∧ log.agreesFrom next es₁ ∧
        log.termAt (next + es₁.length) ≠ some e.term ∧
        log.spliceFrom next es =
          { log.truncateFrom (next + es₁.length) with
            entries := (log.truncateFrom (next + es₁.length)).entries ++ e :: es₂ } := by
  induction es generalizing next with
  | nil => exact Or.inl ⟨trivial, rfl⟩
  | cons e es ih =>
    by_cases hagree : log.termAt next = some e.term
    · rw [spliceFrom, if_pos hagree]
      rcases ih (next + 1) with ⟨hall, hsame⟩ | ⟨es₁, x, es₂, rfl, hpre, hconf, hres⟩
      · exact Or.inl ⟨⟨hagree, hall⟩, hsame⟩
      · refine Or.inr ⟨e :: es₁, x, es₂, rfl, ⟨hagree, hpre⟩, ?_, ?_⟩
        · rwa [List.length_cons, Nat.add_comm es₁.length 1, ← Nat.add_assoc]
        · rw [hres, List.length_cons, Nat.add_comm es₁.length 1, ← Nat.add_assoc]
    · rw [spliceFrom, if_neg hagree]
      exact Or.inr ⟨[], e, es, rfl, trivial, hagree, rfl⟩

/-- Splicing does not move the snapshot point. -/
@[simp]
theorem snapshotIndex_splice (log : RaftLog) (prev : ℕ) (es : List LogEntry) :
    (log.splice prev es).snapshotIndex = log.snapshotIndex := by
  unfold splice
  rcases log.spliceFrom_cases (prev + 1) es with ⟨-, hsame⟩ | ⟨es₁, e, es₂, -, -, -, hres⟩
  · rw [hsame]
  · rw [hres, truncateFrom]
    split <;> rfl

/-- Splicing does not touch the term of the snapshot point. -/
theorem snapshotTerm_splice (log : RaftLog) (prev : ℕ) (es : List LogEntry) :
    (log.splice prev es).snapshotTerm = log.snapshotTerm := by
  unfold splice
  rcases log.spliceFrom_cases (prev + 1) es with ⟨-, hsame⟩ | ⟨es₁, e, es₂, -, -, -, hres⟩
  · rw [hsame]
  · rw [hres, truncateFrom]
    split <;> rfl

/-- Where the entries `es` are spliced in behind `prev`, the first one does not fall into the
discarded part. -/
def fitsAt (log : RaftLog) (prev : ℕ) (es : List LogEntry) : Prop :=
  log.snapshotIndex ≤ prev ∨ ∀ e ∈ es.head?, log.termAt (prev + 1) = some e.term

instance decidableFitsAt (log : RaftLog) (prev : ℕ) (es : List LogEntry) :
    Decidable (log.fitsAt prev es) :=
  inferInstanceAs (Decidable (_ ∨ _))

/-- Entries that fit have their first conflict above the snapshot point. -/
theorem fitsAt.snapshotIndex_le {prev : ℕ} {e : LogEntry} {es₁ es₂ : List LogEntry}
    (h : log.fitsAt prev (es₁ ++ e :: es₂))
    (hconf : log.termAt (prev + 1 + es₁.length) ≠ some e.term) :
    log.snapshotIndex ≤ prev + es₁.length := by
  rcases h with hle | hhead
  · omega
  · cases es₁ with
    | nil => exact absurd (hhead e (by simp)) (by simpa using hconf)
    | cons x es₁ =>
      have := snapshotIndex_le_of_termAt (hhead x (by simp))
      simp only [List.length_cons]
      omega

/-- Compaction changes nothing, or it discards everything up to an index in the log, and records the
term of the entry there. -/
theorem compact_cases (log : RaftLog) (i : ℕ) :
    log.compact i = log ∨ ∃ e, log.get i = some e ∧
      log.compact i = ⟨log.entries.drop (i - log.snapshotIndex), i, e.term⟩ := by
  by_cases hin : i ≤ log.snapshotIndex ∨ log.lastIndex < i
  · exact Or.inl (if_pos hin)
  · have heq : log.compact i = _ := if_neg hin
    rw [not_or, not_le, not_lt] at hin
    obtain ⟨e, he⟩ := exists_get_of_lt hin.1 hin.2
    rw [termAt_of_get he, Option.getD_some] at heq
    exact Or.inr ⟨e, he, heq⟩

/-- Compaction only moves the snapshot point up, and not beyond the given index. -/
theorem snapshotIndex_compact (log : RaftLog) (i : ℕ) :
    log.snapshotIndex ≤ (log.compact i).snapshotIndex ∧
      ((log.compact i).snapshotIndex = log.snapshotIndex ∨
        (log.compact i).snapshotIndex = i) := by
  rcases log.compact_cases i with heq | ⟨e, he, heq⟩ <;> rw [heq]
  · exact ⟨le_rfl, Or.inl rfl⟩
  · exact ⟨(snapshotIndex_lt_of_get he).le, Or.inr rfl⟩

/-! ### The complete log -/

/-- `log` is what is left of the complete log `l`: its entries are those of `l` above the snapshot
point, and the discarded part lies on the branch of the recorded term. -/
structure Covers (b : ℕ → List LogEntry) (l : List LogEntry) (log : RaftLog) : Prop where
  length_eq : l.length = log.lastIndex
  entries_eq : log.entries = l.drop log.snapshotIndex
  label : l.take log.snapshotIndex <+: b log.snapshotTerm

/-- The term recorded for the snapshot point is that of the entry discarded last. -/
def TrueLabel (l : List LogEntry) (log : RaftLog) : Prop :=
  log.snapshotTerm = Branch.lastTerm (l.take log.snapshotIndex)

theorem covers_new : Covers b [] RaftLog.new :=
  ⟨rfl, rfl, List.nil_prefix⟩

theorem trueLabel_new : TrueLabel [] RaftLog.new := rfl

namespace Covers

theorem snapshotIndex_le (h : Covers b l log) : log.snapshotIndex ≤ l.length := by
  have hlen := h.length_eq
  unfold lastIndex at hlen
  omega

theorem mono (h : Covers b l log) (hb : ∀ t, b t <+: b' t) : Covers b' l log :=
  ⟨h.length_eq, h.entries_eq, h.label.trans (hb _)⟩

/-- Above the snapshot point the log holds the entries of the complete one. -/
theorem get_eq (h : Covers b l log) (hlt : log.snapshotIndex < i) :
    log.get i = l[i - 1]? := by
  rw [get_of_lt hlt, h.entries_eq, List.getElem?_drop]
  congr 1
  omega

/-- An entry found in the log stands at its index in the complete one. -/
theorem of_get_eq_some (h : Covers b l log) {e : LogEntry} (hget : log.get i = some e) :
    log.snapshotIndex < i ∧ l[i - 1]? = some e := by
  have hlt := snapshotIndex_lt_of_get hget
  exact ⟨hlt, h.get_eq hlt ▸ hget⟩

/-- An index above the snapshot point and not past the end holds an entry. -/
theorem exists_get (h : Covers b l log) (hlt : log.snapshotIndex < i) (hle : i ≤ l.length) :
    ∃ e, log.get i = some e :=
  exists_get_of_lt hlt (hle.trans h.length_eq.le)

theorem termAt_eq (h : Covers b l log) (hlt : log.snapshotIndex < i) :
    log.termAt i = (l[i - 1]?).map LogEntry.term := by
  rw [termAt_of_ne hlt.ne', h.get_eq hlt]

/-- A position with a known term is within the complete log, and the log up to it lies on the
branch of that term. -/
theorem of_termAt (h : Covers b l log) (hon : OnBranch b l) {t : ℕ}
    (ht : log.termAt i = some t) : i ≤ l.length ∧ l.take i <+: b t := by
  rcases (snapshotIndex_le_of_termAt ht).eq_or_lt with heq | hlt
  · subst heq
    rw [termAt_snapshotIndex] at ht
    obtain rfl : log.snapshotTerm = t := Option.some.inj ht
    exact ⟨h.snapshotIndex_le, h.label⟩
  · rw [h.termAt_eq hlt, Option.map_eq_some_iff] at ht
    obtain ⟨e, he, rfl⟩ := ht
    have hlen : i - 1 < l.length := (List.getElem?_eq_some_iff.mp he).1
    have htake : l.take i = l.take (i - 1) ++ [e] := by
      rw [← take_succ_eq_concat he]
      congr 1
      omega
    exact ⟨by omega, htake ▸ hon _ _ (htake ▸ List.take_prefix _ _)⟩

/-- A position that passes the consistency check is within the log, and the log up to it lies on
the branch of that term; it is not below the snapshot point unless it is `0`. -/
theorem of_matches (h : Covers b l log) (hon : OnBranch b l) {t : ℕ}
    (hm : log.matches i t = true) :
    i ≤ l.length ∧ l.take i <+: b t ∧ (log.snapshotIndex ≤ i ∨ i = 0) := by
  unfold «matches» at hm
  split at hm
  · next t' ht =>
    obtain rfl : t' = t := by simpa using hm
    obtain ⟨hle, hpre⟩ := h.of_termAt hon ht
    exact ⟨hle, hpre, Or.inl (snapshotIndex_le_of_termAt ht)⟩
  · obtain rfl : i = 0 := by simpa using hm
    exact ⟨Nat.zero_le _, List.nil_prefix, Or.inr rfl⟩

/-- The log lies on the branch of its last term. -/
theorem prefix_lastTerm (h : Covers b l log) (hon : OnBranch b l) : l <+: b log.lastTerm := by
  have hsplit : l.take log.snapshotIndex ++ log.entries = l := by
    rw [h.entries_eq, List.take_append_drop]
  unfold RaftLog.lastTerm
  split
  · next e he =>
    have hne : log.entries ≠ [] := by
      rintro hnil
      simp [hnil] at he
    obtain ⟨q, x, hq, -⟩ := exists_concat hne
    obtain rfl : x = e := by simpa [hq] using he
    have hl : l = l.take log.snapshotIndex ++ q ++ [x] := by
      rw [List.append_assoc, ← hq, hsplit]
    have := hon (l.take log.snapshotIndex ++ q) x (hl ▸ List.prefix_rfl)
    rw [hl]
    exact this
  · next hnone =>
    have hnil : log.entries = [] := by simpa using hnone
    rw [hnil, List.append_nil] at hsplit
    exact hsplit ▸ h.label

/-- With a true label the last term is that of the complete log. -/
theorem lastTerm_eq (h : Covers b l log) (htrue : TrueLabel l log) :
    log.lastTerm = Branch.lastTerm l := by
  have hsplit : l.take log.snapshotIndex ++ log.entries = l := by
    rw [h.entries_eq, List.take_append_drop]
  unfold RaftLog.lastTerm
  split
  · next e he =>
    conv_rhs => rw [← hsplit]
    unfold Branch.lastTerm
    rw [List.getLast?_append, he]
    rfl
  · next hnone =>
    have hnil : log.entries = [] := by simpa using hnone
    rw [hnil, List.append_nil] at hsplit
    rw [htrue, hsplit]

/-- With a true label every term that is known is that of the complete log. -/
theorem termAt_eq_lastTerm (h : Covers b l log) (htrue : TrueLabel l log)
    (hsnap : log.snapshotIndex ≤ i) (hle : i ≤ l.length) :
    log.termAt i = some (Branch.lastTerm (l.take i)) := by
  rcases hsnap.eq_or_lt with rfl | hlt
  · rw [termAt_snapshotIndex, htrue]
  · obtain ⟨e, he⟩ := h.exists_get hlt hle
    obtain ⟨-, hget⟩ := h.of_get_eq_some he
    have htake : l.take i = l.take (i - 1) ++ [e] := by
      rw [← take_succ_eq_concat hget, Nat.sub_add_cancel (Nat.zero_lt_of_lt hlt)]
    rw [h.termAt_eq hlt, hget, htake, lastTerm_concat]
    rfl

/-- The entries from `start` on, for a start above the snapshot point. -/
theorem entriesFrom_eq (h : Covers b l log) (hlt : log.snapshotIndex < i) :
    log.entriesFrom i = l.drop (i - 1) := by
  rw [entriesFrom, if_neg (not_le.mpr hlt), h.entries_eq, List.drop_drop]
  congr 1
  omega

/-! ### The operations -/

theorem append (h : Covers b l log) (es : List LogEntry) :
    Covers b (l ++ es) (log.append es) where
  length_eq := by
    have := h.length_eq
    simp only [RaftLog.append, lastIndex, List.length_append] at this ⊢
    omega
  entries_eq := by
    simp only [RaftLog.append]
    rw [List.drop_append_of_le_length h.snapshotIndex_le, h.entries_eq]
  label := by
    simp only [RaftLog.append]
    rw [List.take_append_of_le_length h.snapshotIndex_le]
    exact h.label

/-- Compaction discards nothing from the complete log. -/
theorem compact (h : Covers b l log) (hon : OnBranch b l) (i : ℕ) :
    Covers b l (log.compact i) := by
  rcases log.compact_cases i with heq | ⟨e, he, heq⟩ <;> rw [heq]
  · exact h
  · have hlt := snapshotIndex_lt_of_get he
    have hle := le_lastIndex_of_get he
    refine ⟨?_, ?_, ?_⟩
    · have hlen := h.length_eq
      simp only [lastIndex, List.length_drop] at hlen hle ⊢
      omega
    · rw [h.entries_eq, List.drop_drop, Nat.add_sub_cancel' hlt.le]
    · exact (h.of_termAt hon (termAt_of_get he)).2

/-- Compaction records the true term of its point. -/
theorem trueLabel_compact (h : Covers b l log) (htrue : TrueLabel l log) (i : ℕ) :
    TrueLabel l (log.compact i) := by
  rcases log.compact_cases i with heq | ⟨e, he, heq⟩ <;> rw [heq]
  · exact htrue
  · obtain ⟨hlt, hget⟩ := h.of_get_eq_some he
    have htake : l.take i = l.take (i - 1) ++ [e] := by
      rw [← take_succ_eq_concat hget]
      congr 1
      omega
    simp only [TrueLabel, htake, lastTerm_concat]
    rfl

theorem installSnapshot (log : RaftLog) {S t : ℕ} (hS : S ≤ B.length) (hlabel : B.take S <+: b t) :
    Covers b (B.take S) (log.installSnapshot S t) where
  length_eq := by simp [RaftLog.installSnapshot, lastIndex, hS]
  entries_eq := by simp [RaftLog.installSnapshot]
  label := by simpa [RaftLog.installSnapshot, List.take_take] using hlabel

/-- Replacing everything from an offset on that is not below the snapshot point. -/
theorem replaceFrom (h : Covers b l log) {q : ℕ} (hS : log.snapshotIndex ≤ q)
    (hq : q ≤ l.length) (es : List LogEntry) :
    Covers b (l.take q ++ es)
      { log with entries := (l.take q).drop log.snapshotIndex ++ es } where
  length_eq := by
    simp only [lastIndex, List.length_append, List.length_take, List.length_drop]
    omega
  entries_eq := by
    rw [List.drop_append_of_le_length]
    simp only [List.length_take]
    omega
  label := by
    rw [List.take_append_of_le_length, List.take_take, min_eq_left hS]
    · exact h.label
    · simp only [List.length_take]
      omega

section Splice

variable {prev : ℕ}

/-- The part of the branch below a window has the length that its position says. -/
private theorem length_take_of_eq (hprev : prev ≤ l.length) (heq : l.take prev = B.take prev) :
    (B.take prev).length = prev := by
  rw [← heq, List.length_take, min_eq_left hprev]

/-- Entries of the branch that agree with the log in their terms are the log's own. -/
theorem prefix_of_agreesFrom (h : Covers b l log) (hon : OnBranch b l) (honB : OnBranch b B)
    (hprev : prev ≤ l.length) (heq : l.take prev = B.take prev)
    (hwin : B.take prev ++ es <+: B) (hagree : log.agreesFrom (prev + 1) es) :
    B.take prev ++ es <+: l := by
  rcases eq_or_ne es [] with rfl | hne
  · rw [List.append_nil, ← heq]
    exact List.take_prefix _ _
  · -- the branch and the log lie on the branch of the last term, up to the same index
    obtain ⟨q, e, rfl, -⟩ := exists_concat hne
    have hlen := length_take_of_eq hprev heq
    obtain ⟨hle, hpre⟩ := h.of_termAt hon hagree.termAt_eq
    have hpreB : B.take prev ++ (q ++ [e]) <+: b e.term := by
      rw [← List.append_assoc] at hwin ⊢
      exact honB _ _ hwin
    have hsame : B.take prev ++ (q ++ [e]) = l.take (prev + 1 + q.length) := by
      refine (List.prefix_of_prefix_length_le hpreB hpre ?_).eq_of_length ?_ <;>
        simp only [List.length_append, List.length_take, hlen, List.length_singleton] <;> omega
    rw [hsame]
    exact List.take_prefix _ _

/-- A common prefix of the log and the branch does not reach a position where the terms of the two
differ. -/
theorem length_le_of_conflict (h : Covers b l log) (hprev : prev ≤ l.length)
    (heq : l.take prev = B.take prev) {es₁ es₂ : List LogEntry} {e : LogEntry}
    (hwin : B.take prev ++ (es₁ ++ e :: es₂) <+: B)
    (hS : log.snapshotIndex ≤ prev + es₁.length)
    (hconf : log.termAt (prev + 1 + es₁.length) ≠ some e.term)
    {p : List LogEntry} (hp : p <+: l) (hpB : p <+: B) : p.length ≤ prev + es₁.length := by
  by_contra hlong
  rw [not_le] at hlong
  have hl : l[prev + es₁.length]? = p[prev + es₁.length]? := by
    rw [List.prefix_iff_getElem?.mp hp _ hlong, List.getElem?_eq_getElem hlong]
  have hB : p[prev + es₁.length]? = some e := by
    obtain ⟨rest, hrest⟩ := hwin
    have hpB' := List.prefix_iff_getElem?.mp hpB _ hlong
    rw [← List.getElem?_eq_getElem hlong] at hpB'
    have hlen := length_take_of_eq hprev heq
    rw [← hpB', ← hrest, List.append_assoc, List.append_assoc,
      List.getElem?_append_right (by omega), hlen, Nat.add_sub_cancel_left,
      List.getElem?_append_right le_rfl, Nat.sub_self]
    rfl
  apply hconf
  rw [h.termAt_eq (by omega), show prev + 1 + es₁.length - 1 = prev + es₁.length by omega, hl, hB]
  rfl

/-- Splicing the window `es` of the branch `B` at `prev`, where the log agrees with the branch up
to `prev`, and the first entry does not fall into the discarded part. The result holds the window,
and keeps everything that the log shares with the branch; it is the log itself if all entries
agree, and the branch up to the end of the window if not. What was discarded stays the same. -/
theorem splice (h : Covers b l log) (hon : OnBranch b l) (honB : OnBranch b B)
    (hprev : prev ≤ l.length) (heq : l.take prev = B.take prev)
    (hwin : B.take prev ++ es <+: B)
    (hpos : log.fitsAt prev es) :
    ∃ l', Covers b l' (log.splice prev es) ∧ B.take prev ++ es <+: l' ∧
      (∀ p, p <+: l → p <+: B → p <+: l') ∧
      (TrueLabel l log → TrueLabel l' (log.splice prev es)) ∧
      ((log.agreesFrom (prev + 1) es ∧ l' = l) ∨
        (¬log.agreesFrom (prev + 1) es ∧ l' = B.take prev ++ es)) := by
  rcases spliceFrom_cases log (prev + 1) es with
    ⟨hall, hres⟩ | ⟨es₁, e, es₂, rfl, hpre, hconf, hres⟩
  · rw [RaftLog.splice, hres]
    exact ⟨l, h, h.prefix_of_agreesFrom hon honB hprev heq hwin hall, fun p hp _ => hp, id,
      Or.inl ⟨hall, rfl⟩⟩
  · -- the first conflict is at `prev + 1 + es₁.length`, above the snapshot point
    have hlen := length_take_of_eq hprev heq
    have hwin₁ : B.take prev ++ es₁ <+: B := by
      refine List.IsPrefix.trans ?_ hwin
      rw [List.prefix_append_right_inj]
      exact List.prefix_append _ _
    have hkept := h.prefix_of_agreesFrom hon honB hprev heq hwin₁ hpre
    have hq : prev + es₁.length ≤ l.length := by
      have := hkept.length_le
      rwa [List.length_append, hlen] at this
    have hS : log.snapshotIndex ≤ prev + es₁.length := hpos.snapshotIndex_le hconf
    have htake : l.take (prev + es₁.length) = B.take prev ++ es₁ := by
      refine ((List.prefix_iff_eq_take.mp hkept).trans ?_).symm
      rw [List.length_append, hlen]
    have hnew : B.take prev ++ (es₁ ++ e :: es₂) =
        l.take (prev + es₁.length) ++ e :: es₂ := by
      rw [htake, List.append_assoc]
    have hspliced : log.splice prev (es₁ ++ e :: es₂) =
        { log with
          entries := (l.take (prev + es₁.length)).drop log.snapshotIndex ++ e :: es₂ } := by
      have hbelow : ¬prev + 1 + es₁.length ≤ log.snapshotIndex := by omega
      have hoff : prev + 1 + es₁.length - log.snapshotIndex - 1 =
          prev + es₁.length - log.snapshotIndex := by omega
      rw [RaftLog.splice, hres, truncateFrom, if_neg hbelow, h.entries_eq, List.drop_take, hoff]
    refine ⟨l.take (prev + es₁.length) ++ e :: es₂, ?_, hnew ▸ List.prefix_rfl, fun p hp hpB => ?_,
      fun htrue => ?_, Or.inr ⟨fun hagree => hconf hagree.termAt_eq, hnew.symm⟩⟩
    · rw [hspliced]
      exact h.replaceFrom hS hq _
    · have hle := h.length_le_of_conflict hprev heq hwin hS hconf hp hpB
      exact List.prefix_append_of_prefix (List.prefix_take_iff.mpr ⟨hp, hle⟩)
    · rw [hspliced]
      unfold TrueLabel
      rw [List.take_append_of_le_length, List.take_take, min_eq_left hS]
      · exact htrue
      · simp only [List.length_take]
        omega

end Splice

/-- A log is what is left of one complete log only. -/
theorem unique (h : Covers b l log) (h' : Covers b l' log) : l = l' := by
  have hlen : l.length = l'.length := h.length_eq.trans h'.length_eq.symm
  have htake : l.take log.snapshotIndex = l'.take log.snapshotIndex := by
    refine (List.prefix_of_prefix_length_le h.label h'.label ?_).eq_of_length ?_ <;>
      simp only [List.length_take, hlen, le_refl]
  rw [← List.take_append_drop log.snapshotIndex l, ← List.take_append_drop log.snapshotIndex l',
    htake, ← h.entries_eq, ← h'.entries_eq]

end Covers

end RaftLog

end Ferrium
