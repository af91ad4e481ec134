import Mathlib.Data.List.Basic
import Mathlib.Data.Nat.Notation

/-!
# The replicated log

Embedding of `src/raft/log.rs`. Log indices are 1-based; index `0` is the sentinel before the
first entry. After a snapshot the low end of the log is discarded, and
`snapshotIndex`/`snapshotTerm` remember the last entry that the snapshot covers.

Indices and terms are the `u64`s of the source, taken as natural numbers. When the additions of the
source leave the range of `u64` is a question of its own (`U64.Overflows`).
-/

namespace Ferrium

/-- A single command replicated across the cluster. -/
structure LogEntry where
  /-- Leader term in which the entry was created. -/
  term : ℕ
  /-- Opaque, already serialized state-machine command. -/
  command : List UInt8
  deriving DecidableEq, Repr

/-- An in-memory Raft log with snapshot bookkeeping. -/
structure RaftLog where
  /-- Entries after the snapshot point; the first one has index `snapshotIndex + 1`. -/
  entries : List LogEntry
  /-- Index of the last entry included in the most recent snapshot. -/
  snapshotIndex : ℕ
  /-- Term of the last entry included in the most recent snapshot. -/
  snapshotTerm : ℕ
  deriving DecidableEq, Repr

namespace RaftLog

/-- The empty log. -/
def new : RaftLog :=
  { entries := [], snapshotIndex := 0, snapshotTerm := 0 }

/-- Index of the last entry (`0` if the log is empty and un-snapshotted). -/
def lastIndex (self : RaftLog) : ℕ :=
  self.snapshotIndex + self.entries.length

/-- Term of the last entry. -/
def lastTerm (self : RaftLog) : ℕ :=
  match self.entries.getLast? with
  | some entry => entry.term
  | none => self.snapshotTerm

/-- The first index physically present in `entries`. -/
def firstIndex (self : RaftLog) : ℕ :=
  self.snapshotIndex + 1

/-- The entry at a 1-based log `index`, if present. -/
def get (self : RaftLog) (index : ℕ) : Option LogEntry :=
  if index ≤ self.snapshotIndex ∨ self.lastIndex < index then none
  else self.entries[index - self.snapshotIndex - 1]?

/-- Term of the entry at `index`, if known (present or the snapshot point). -/
def termAt (self : RaftLog) (index : ℕ) : Option ℕ :=
  if index = self.snapshotIndex then some self.snapshotTerm
  else (self.get index).map LogEntry.term

/-- Append a batch of entries to the tail. The source also returns the new `lastIndex`. -/
def append (self : RaftLog) (newEntries : List LogEntry) : RaftLog :=
  { self with entries := self.entries ++ newEntries }

/-- All entries with index at least `start` (used to build AppendEntries). -/
def entriesFrom (self : RaftLog) (start : ℕ) : List LogEntry :=
  if start ≤ self.snapshotIndex then self.entries
  else self.entries.drop (start - self.snapshotIndex - 1)

/-- Whether the log contains an entry at `index` whose term is `term`. An index whose term is not
known matches only when it is `0`. -/
def «matches» (self : RaftLog) (index term : ℕ) : Bool :=
  match self.termAt index with
  | some t => t == term
  | none => index == 0

/-- Discard all entries with index at least `index`. -/
def truncateFrom (self : RaftLog) (index : ℕ) : RaftLog :=
  if index ≤ self.snapshotIndex then { self with entries := [] }
  else { self with entries := self.entries.take (index - self.snapshotIndex - 1) }

/-- The loop of `splice`, at position `next` with the entries still to merge: skip what already
agrees; at the first conflict (or at new territory) drop everything from `next` on and append
the remainder. -/
def spliceFrom (self : RaftLog) (next : ℕ) : List LogEntry → RaftLog
  | [] => self
  | entry :: rest =>
    if self.termAt next = some entry.term then self.spliceFrom (next + 1) rest
    else
      let truncated := self.truncateFrom next
      { truncated with entries := truncated.entries ++ entry :: rest }

/-- Merge leader-supplied entries starting at `prevIndex + 1`, truncating any conflicting suffix.
The source also returns the resulting `lastIndex`. -/
def splice (self : RaftLog) (prevIndex : ℕ) (incoming : List LogEntry) : RaftLog :=
  self.spliceFrom (prevIndex + 1) incoming

/-- Install a snapshot received from the leader: discard all buffered entries and reset the
snapshot point to the given position. -/
def installSnapshot (_self : RaftLog) (lastIncludedIndex lastIncludedTerm : ℕ) : RaftLog :=
  { entries := [], snapshotIndex := lastIncludedIndex, snapshotTerm := lastIncludedTerm }

/-- Compact the log up to and including `index`, recording the snapshot point. -/
def compact (self : RaftLog) (index : ℕ) : RaftLog :=
  if index ≤ self.snapshotIndex ∨ self.lastIndex < index then self
  else
    { entries := self.entries.drop (index - self.snapshotIndex)
      snapshotIndex := index
      snapshotTerm := (self.termAt index).getD self.snapshotTerm }

end RaftLog

end Ferrium
