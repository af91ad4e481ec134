import Ferrium.Lib.Run
import Ferrium.Raft.FullLog

/-!
# Compaction is not visible

A `RaftLog` that is compacted now and then is compared with one that goes through the same
operations but is never compacted. Wherever the first one can still be asked, both give the same
answers.

Between the two logs stands one relation, `Shadows`. The recorded term of the snapshot point is part
of it: after a compaction, it is all that is left of the entry there.

## Main results

* `Shadows.splice`, `Shadows.compact`: the operations keep the relation;
* `sameAnswers_of_admissible`: so no sequence of operations tells the logs apart.
-/

namespace Ferrium

/-- An operation on a log. -/
inductive LogOp
  | append (entries : List LogEntry)
  | compact (index : ℕ)
  /-- Splice `entries` in behind `prev`, for which the term `prevTerm` was checked. -/
  | splice (prev prevTerm : ℕ) (entries : List LogEntry)
  deriving DecidableEq, Repr

namespace LogOp

/-- The effect of an operation. -/
def run (log : RaftLog) : LogOp → RaftLog
  | .append entries => log.append entries
  | .compact index => log.compact index
  | .splice prev _ entries => log.splice prev entries

/-- The effect of an operation on a log that never discards anything. -/
def runUncompacted (log : RaftLog) : LogOp → RaftLog
  | .compact _ => log
  | op => op.run log

/-- Entries are spliced in only behind a position that passes the consistency check and has not been
discarded. -/
def Admissible (log : RaftLog) : LogOp → Prop
  | .splice prev prevTerm _ => log.matches prev prevTerm = true ∧ log.snapshotIndex ≤ prev
  | .append _ | .compact _ => True

instance decidableAdmissible (log : RaftLog) : ∀ op, Decidable (Admissible log op)
  | .splice prev prevTerm _ =>
    inferInstanceAs (Decidable (log.matches prev prevTerm = true ∧ log.snapshotIndex ≤ prev))
  | .append _ | .compact _ => isTrue trivial

end LogOp

namespace RaftLog

variable {log full : RaftLog} {i : ℕ}

/-- The term of the last entry is the term at the last index. -/
theorem termAt_lastIndex (log : RaftLog) : log.termAt log.lastIndex = some log.lastTerm := by
  unfold lastTerm
  cases hlast : log.entries.getLast? with
  | none =>
    have hnil : log.entries = [] := List.getLast?_eq_none_iff.mp hlast
    have hend : log.lastIndex = log.snapshotIndex := by simp [lastIndex, hnil]
    rw [hend, termAt_snapshotIndex]
  | some e =>
    have hpos : 0 < log.entries.length := by
      rw [List.length_pos_iff]
      rintro hnil
      simp [hnil] at hlast
    have hlt : log.snapshotIndex < log.lastIndex := by
      unfold lastIndex
      omega
    have hoffset : log.lastIndex - log.snapshotIndex - 1 = log.entries.length - 1 := by
      unfold lastIndex
      omega
    rw [termAt_of_ne hlt.ne', get_of_lt hlt, hoffset, ← List.getLast?_eq_getElem?, hlast]
    rfl

/-- Logs with the same first `k` entries know the same terms there. -/
theorem termAt_congr {full' : RaftLog} {k : ℕ} (hindex : full'.snapshotIndex = full.snapshotIndex)
    (hterm : full'.snapshotTerm = full.snapshotTerm)
    (htake : full'.entries.take k = full.entries.take k) (hle : i ≤ full.snapshotIndex + k) :
    full'.termAt i = full.termAt i := by
  by_cases hfirst : i = full.snapshotIndex
  · rw [termAt, if_pos (hfirst.trans hindex.symm), termAt, if_pos hfirst, hterm]
  · rw [termAt_of_ne hfirst, termAt_of_ne (by rwa [hindex])]
    rcases Nat.lt_or_ge full.snapshotIndex i with hlt | hge
    · rw [get_of_lt hlt, get_of_lt (hindex.trans_lt hlt), hindex,
        ← List.getElem?_take_of_lt (by omega : i - full.snapshotIndex - 1 < k), htake,
        List.getElem?_take_of_lt (by omega)]
    · rw [get_eq_none_of_le hge, get_eq_none_of_le (hge.trans hindex.ge)]

/-- `log` is what compaction has left of `full`. -/
structure Shadows (log full : RaftLog) : Prop where
  full_snapshotIndex : full.snapshotIndex = 0
  le_length : log.snapshotIndex ≤ full.entries.length
  entries_eq : log.entries = full.entries.drop log.snapshotIndex
  label : full.termAt log.snapshotIndex = some log.snapshotTerm

namespace Shadows

theorem get_eq (h : Shadows log full) (hlt : log.snapshotIndex < i) :
    log.get i = full.get i := by
  have hzero := h.full_snapshotIndex
  rw [get_of_lt hlt, get_of_lt (by omega), h.entries_eq, List.getElem?_drop, hzero]
  congr 1
  omega

theorem termAt_eq (h : Shadows log full) (hle : log.snapshotIndex ≤ i) :
    log.termAt i = full.termAt i := by
  rcases eq_or_lt_of_le hle with rfl | hlt
  · rw [termAt_snapshotIndex, h.label]
  · have hpos : i ≠ full.snapshotIndex := by
      have := h.full_snapshotIndex
      omega
    rw [termAt_of_ne hlt.ne', termAt_of_ne hpos, h.get_eq hlt]

theorem lastIndex_eq (h : Shadows log full) : log.lastIndex = full.lastIndex := by
  have := h.le_length
  simp only [lastIndex, h.entries_eq, h.full_snapshotIndex, List.length_drop]
  omega

theorem lastTerm_eq (h : Shadows log full) : log.lastTerm = full.lastTerm := by
  have hsnap : log.snapshotIndex ≤ log.lastIndex := Nat.le_add_right _ _
  have hterm := h.termAt_eq hsnap
  rw [termAt_lastIndex, h.lastIndex_eq, termAt_lastIndex] at hterm
  exact Option.some.inj hterm

theorem entriesFrom_eq (h : Shadows log full) (hlt : log.snapshotIndex < i) :
    log.entriesFrom i = full.entriesFrom i := by
  have hzero := h.full_snapshotIndex
  unfold entriesFrom
  rw [if_neg (by omega), if_neg (by omega), h.entries_eq, List.drop_drop, hzero]
  congr 1
  omega

/-! ### The operations -/

theorem new : Shadows RaftLog.new RaftLog.new where
  full_snapshotIndex := rfl
  le_length := le_rfl
  entries_eq := rfl
  label := rfl

/-- Both logs are cut behind position `k`, which has not been discarded, and continued with the
same entries. -/
theorem replaceFrom (h : Shadows log full) {k : ℕ} (hsnap : log.snapshotIndex ≤ k)
    (hlen : k ≤ full.entries.length) (entries : List LogEntry) :
    Shadows { log with entries := log.entries.take (k - log.snapshotIndex) ++ entries }
      { full with entries := full.entries.take k ++ entries } where
  full_snapshotIndex := h.full_snapshotIndex
  le_length := by
    simp only [List.length_append, List.length_take]
    omega
  entries_eq := by
    have hkept : log.snapshotIndex ≤ (full.entries.take k).length := by
      rw [List.length_take]
      omega
    rw [List.drop_append_of_le_length hkept, List.drop_take, h.entries_eq]
  label := by
    rw [← h.label]
    have htake : (full.entries.take k ++ entries).take k = full.entries.take k := by
      rw [List.take_append_of_le_length (by simp [hlen]), List.take_take, Nat.min_self]
    exact termAt_congr rfl rfl htake (hsnap.trans (Nat.le_add_left _ _))

theorem append (h : Shadows log full) (entries : List LogEntry) :
    Shadows (log.append entries) (full.append entries) := by
  have hall := h.replaceFrom h.le_length le_rfl entries
  rwa [← List.length_drop, ← h.entries_eq, List.take_length, List.take_length] at hall

theorem compact (h : Shadows log full) (index : ℕ) : Shadows (log.compact index) full := by
  rcases log.compact_cases index with heq | ⟨e, he, heq⟩ <;> rw [heq]
  · exact h
  · have habove := snapshotIndex_lt_of_get he
    have hbelow := le_lastIndex_of_get he
    have hlast := h.lastIndex_eq
    have hzero := h.full_snapshotIndex
    refine ⟨hzero, ?_, ?_, ?_⟩
    · show index ≤ full.entries.length
      unfold lastIndex at hlast hbelow
      omega
    · show log.entries.drop _ = full.entries.drop index
      rw [h.entries_eq, List.drop_drop]
      congr 1
      omega
    · show full.termAt index = some e.term
      rw [← h.termAt_eq habove.le, termAt_of_get he]

/-- The loop of `splice`: both logs take the same decisions, because they are asked above the
snapshot point only. -/
theorem spliceFrom (h : Shadows log full) {next : ℕ} (hsnap : log.snapshotIndex < next)
    (hlast : next ≤ log.lastIndex + 1) (entries : List LogEntry) :
    Shadows (log.spliceFrom next entries) (full.spliceFrom next entries) := by
  induction entries generalizing next with
  | nil => exact h
  | cons entry rest ih =>
    rw [RaftLog.spliceFrom, RaftLog.spliceFrom, ← h.termAt_eq hsnap.le]
    by_cases hagree : log.termAt next = some entry.term
    · rw [if_pos hagree, if_pos hagree]
      have hin : next ≤ log.lastIndex := le_lastIndex_of_termAt hagree
      exact ih (by omega) (by omega)
    · -- at the first disagreement both logs are cut, each at its own offset of the same index
      rw [if_neg hagree, if_neg hagree]
      have hzero := h.full_snapshotIndex
      have hlen : next - 1 ≤ full.entries.length := by
        have := h.lastIndex_eq
        unfold lastIndex at this hlast
        omega
      have hcut := h.replaceFrom (k := next - 1) (by omega) hlen (entry :: rest)
      have hoffset : next - 1 - log.snapshotIndex = next - log.snapshotIndex - 1 := by omega
      have hoffset' : next - 1 = next - full.snapshotIndex - 1 := by omega
      rw [hoffset, hoffset'] at hcut
      unfold truncateFrom
      rw [if_neg (by omega), if_neg (by omega)]
      exact hcut

theorem splice (h : Shadows log full) {prev prevTerm : ℕ}
    (hmatch : log.matches prev prevTerm = true) (hsnap : log.snapshotIndex ≤ prev)
    (entries : List LogEntry) : Shadows (log.splice prev entries) (full.splice prev entries) :=
  h.spliceFrom (Nat.lt_succ_of_le hsnap) (Nat.succ_le_succ (le_lastIndex_of_matches hmatch)) entries

/-- **An operation keeps the relation.** -/
theorem run (h : Shadows log full) {op : LogOp} (hop : op.Admissible log) :
    Shadows (op.run log) (op.runUncompacted full) := by
  cases op with
  | append entries => exact h.append entries
  | compact index => exact h.compact index
  | splice prev prevTerm entries => exact h.splice hop.1 hop.2 entries

end Shadows

/-- The two logs give the same answers, as far as the first one has not discarded what it is asked
for. -/
structure SameAnswers (log full : RaftLog) : Prop where
  lastIndex : log.lastIndex = full.lastIndex
  lastTerm : log.lastTerm = full.lastTerm
  termAt : ∀ i, log.snapshotIndex ≤ i → log.termAt i = full.termAt i
  «matches» : ∀ i t, log.snapshotIndex ≤ i → log.matches i t = full.matches i t
  get : ∀ i, log.snapshotIndex < i → log.get i = full.get i
  entriesFrom : ∀ i, log.snapshotIndex < i → log.entriesFrom i = full.entriesFrom i

theorem Shadows.sameAnswers (h : Shadows log full) : SameAnswers log full where
  lastIndex := h.lastIndex_eq
  lastTerm := h.lastTerm_eq
  termAt _ hle := h.termAt_eq hle
  «matches» i t hle := by
    unfold RaftLog.matches
    rw [h.termAt_eq hle]
  get _ hlt := h.get_eq hlt
  entriesFrom _ hlt := h.entriesFrom_eq hlt

/-- **A log that is compacted cannot be told from one that is not**, by any sequence of admissible
operations. -/
theorem sameAnswers_of_admissible {ops : List LogOp}
    (h : Run.Guarded LogOp.run LogOp.Admissible RaftLog.new ops) :
    SameAnswers (Run.exec LogOp.run RaftLog.new ops)
      (Run.exec LogOp.runUncompacted RaftLog.new ops) := by
  suffices hrun : ∀ {log full : RaftLog} {ops : List LogOp}, Shadows log full →
      Run.Guarded LogOp.run LogOp.Admissible log ops →
      Shadows (Run.exec LogOp.run log ops) (Run.exec LogOp.runUncompacted full ops) from
    (hrun Shadows.new h).sameAnswers
  intro log full ops hshadows hguarded
  induction ops generalizing log full with
  | nil => exact hshadows
  | cons op ops ih => exact ih (hshadows.run hguarded.1) hguarded.2

/-- Three entries, of which two are discarded, one conflict right behind the snapshot point, and a
compaction of everything that is left. -/
def compactedOps : List LogOp :=
  [.append [⟨1, [65]⟩, ⟨1, [66]⟩, ⟨2, [67]⟩], .compact 2, .compact 9,
    .splice 2 1 [⟨3, [68]⟩, ⟨3, [69]⟩], .compact 4, .splice 4 3 [⟨4, [70]⟩]]

theorem sameAnswers_compactedOps :
    Run.Guarded LogOp.run LogOp.Admissible RaftLog.new compactedOps ∧
      (Run.exec LogOp.run RaftLog.new compactedOps).snapshotIndex = 4 ∧
      (Run.exec LogOp.runUncompacted RaftLog.new compactedOps).snapshotIndex = 0 ∧
      SameAnswers (Run.exec LogOp.run RaftLog.new compactedOps)
        (Run.exec LogOp.runUncompacted RaftLog.new compactedOps) :=
  ⟨by decide, by decide, by decide, sameAnswers_of_admissible (by decide)⟩

end RaftLog

end Ferrium
