import Ferrium.Raft.Message
import Mathlib.Data.Finset.Card

/-!
# Role and per-role volatile bookkeeping

Embedding of `src/raft/state.rs`. The two `HashMap`s of `LeaderProgress` are partial functions and
the `HashSet` of `VoteTally` is a `Finset`: nothing depends on their iteration order.
-/

namespace Ferrium

/-- The three Raft roles. -/
inductive Role
  | follower
  | candidate
  | leader
  deriving DecidableEq, Repr

/-- State a leader keeps for each follower. -/
structure LeaderProgress where
  /-- Next log index to send to each peer. -/
  nextIndexMap : NodeId → Option ℕ
  /-- Highest log index known to be replicated on each peer. -/
  matchIndexMap : NodeId → Option ℕ

namespace LeaderProgress

/-- The empty progress of a fresh node. -/
def default : LeaderProgress :=
  { nextIndexMap := fun _ => none, matchIndexMap := fun _ => none }

/-- Initialize progress when first becoming leader: `next_index` optimistic (the leader's last
index plus one), `match_index` pessimistic (`0`). -/
def reset (peers : List NodeId) (lastLogIndex : ℕ) : LeaderProgress :=
  { nextIndexMap := fun peer => if peer ∈ peers then some (lastLogIndex + 1) else none
    matchIndexMap := fun peer => if peer ∈ peers then some 0 else none }

/-- Next log index to send to `peer`, `1` if nothing is recorded. -/
def nextIndex (self : LeaderProgress) (peer : NodeId) : ℕ :=
  (self.nextIndexMap peer).getD 1

/-- Highest index known to be replicated on `peer`, `0` if nothing is recorded. -/
def matchIndex (self : LeaderProgress) (peer : NodeId) : ℕ :=
  (self.matchIndexMap peer).getD 0

/-- Record the next index to send to `peer`. -/
def setNextIndex (self : LeaderProgress) (peer : NodeId) (index : ℕ) : LeaderProgress :=
  { self with nextIndexMap := fun p => if p = peer then some index else self.nextIndexMap p }

/-- Record the highest index known to be replicated on `peer`. -/
def setMatchIndex (self : LeaderProgress) (peer : NodeId) (index : ℕ) : LeaderProgress :=
  { self with matchIndexMap := fun p => if p = peer then some index else self.matchIndexMap p }

@[simp]
theorem matchIndex_setNextIndex (self : LeaderProgress) (peer p : NodeId) (index : ℕ) :
    (self.setNextIndex peer index).matchIndex p = self.matchIndex p := rfl

@[simp]
theorem nextIndex_setMatchIndex (self : LeaderProgress) (peer p : NodeId) (index : ℕ) :
    (self.setMatchIndex peer index).nextIndex p = self.nextIndex p := rfl

/-- Only the named peer's next index moves. -/
@[simp]
theorem nextIndex_setNextIndex (self : LeaderProgress) (peer p : NodeId) (index : ℕ) :
    (self.setNextIndex peer index).nextIndex p =
      if p = peer then index else self.nextIndex p := by
  unfold nextIndex setNextIndex
  split <;> simp_all

/-- Only the named peer's match index moves. -/
@[simp]
theorem matchIndex_setMatchIndex (self : LeaderProgress) (peer p : NodeId) (index : ℕ) :
    (self.setMatchIndex peer index).matchIndex p =
      if p = peer then index else self.matchIndex p := by
  unfold matchIndex setMatchIndex
  split <;> simp_all

@[simp]
theorem matchIndex_reset (peers : List NodeId) (lastLogIndex : ℕ) (p : NodeId) :
    (reset peers lastLogIndex).matchIndex p = 0 := by
  unfold matchIndex reset
  by_cases h : p ∈ peers <;> simp [h]

theorem nextIndex_reset {peers : List NodeId} {p : NodeId} (lastLogIndex : ℕ) (h : p ∈ peers) :
    (reset peers lastLogIndex).nextIndex p = lastLogIndex + 1 := by
  simp [nextIndex, reset, h]

end LeaderProgress

/-- Tally of votes received during a candidacy. -/
structure VoteTally where
  granted : Finset NodeId

namespace VoteTally

/-- A tally without votes: the fresh one, and what `clear` leaves. -/
def empty : VoteTally := ⟨∅⟩

/-- Record a vote. The source also returns the running `count` of distinct grants. -/
def record (self : VoteTally) (voter : NodeId) : VoteTally :=
  ⟨insert voter self.granted⟩

/-- The number of distinct grants. -/
def count (self : VoteTally) : ℕ :=
  self.granted.card

end VoteTally

end Ferrium
