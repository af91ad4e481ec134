import Ferrium.Storage.Apply

/-!
# Snapshot and replay

The driver fills a snapshot with the contents of its store at the time of sending, which may be
newer than the index that the snapshot is labelled with. The receiver then applies some commands
that the snapshot already contains. That does no harm: under each key there is what the last command
that mentions the key has left there (`WriteCommand.get_applyList`), and the commands that are
applied twice are followed by those that came after them the first time.
-/

namespace Ferrium

open StorageEngine

namespace WriteCommand

variable {σ : Type*} [StorageEngine σ]

/-- What the last command that writes the key leaves there. -/
def lastWritten (key : String) : List WriteCommand → Option (Option (List UInt8))
  | [] => none
  | command :: commands => (lastWritten key commands).or (command.written key)

theorem lastWritten_append (key : String) (commands later : List WriteCommand) :
    lastWritten key (commands ++ later) =
      (lastWritten key later).or (lastWritten key commands) := by
  induction commands with
  | nil => exact (Option.or_none).symm
  | cons command commands ih => rw [List.cons_append, lastWritten, ih, lastWritten, Option.or_assoc]

/-- **The last writer wins**: under each key is what the last command left there, or what was there
in the beginning. -/
theorem get_applyList [LawfulStorageEngine σ] (engine : σ) (commands : List WriteCommand)
    (key : String) :
    get (applyList engine commands) key = (lastWritten key commands).getD (get engine key) := by
  induction commands generalizing engine with
  | nil => rfl
  | cons command commands ih =>
    have hfirst := congrFun (command.get_apply engine) key
    rw [command.effect_apply] at hfirst
    show get (applyList (command.apply engine).2 commands) key = _
    rw [ih, hfirst, lastWritten, Option.getD_or]

/-- Commands that have been applied can be applied once more, if all that came after the first of
them is. -/
theorem lastWritten_overlap (key : String) (before again later : List WriteCommand)
    (value : Option (List UInt8)) :
    (lastWritten key (again ++ later)).getD ((lastWritten key (before ++ again)).getD value) =
      (lastWritten key (before ++ again ++ later)).getD value := by
  simp only [lastWritten_append, Option.getD_or]
  cases lastWritten key again <;> rfl

end WriteCommand

namespace MemoryEngine

open WriteCommand

/-- **Snapshot plus replay converges.** An engine that is restored from a snapshot which covers the
first `L` commands, in any order of the pairs, and then applies all commands from position `S ≤ L`
on, has the contents that all commands lead to. -/
theorem get_replayed (commands : List WriteCommand) {S L : ℕ} (hSL : S ≤ L)
    {pairs : List KeyValue}
    (hpairs : pairs.Perm (snapshot (applyList MemoryEngine.new (commands.take L))))
    (engine : MemoryEngine) :
    get (applyList (restore engine pairs) (commands.drop S)) =
        get (applyList MemoryEngine.new commands) ∧
      (snapshot (applyList (restore engine pairs) (commands.drop S))).Perm
        (snapshot (applyList MemoryEngine.new commands)) := by
  -- the commands up to `S`, those that are applied twice, and the rest
  have htake : commands.take L = commands.take S ++ (commands.drop S).take (L - S) := by
    rw [← List.take_add, Nat.add_sub_of_le hSL]
  have hdrop : commands.drop S = (commands.drop S).take (L - S) ++ commands.drop L := by
    conv_lhs => rw [← List.take_append_drop (L - S) (commands.drop S), List.drop_drop,
      Nat.add_sub_of_le hSL]
  have hcontents : get (applyList (restore engine pairs) (commands.drop S)) =
      get (applyList MemoryEngine.new commands) := by
    funext key
    have hoverlap := lastWritten_overlap key (commands.take S) ((commands.drop S).take (L - S))
      (commands.drop L) (get MemoryEngine.new key)
    rw [← hdrop, ← htake, List.take_append_drop] at hoverlap
    rw [get_applyList, get_applyList, get_restore_of_perm hpairs, get_applyList, hoverlap]
  exact ⟨hcontents, snapshot_perm hcontents⟩

/-- The snapshot covers two writes and is labelled with the first; the last command deletes one of
the two keys. -/
def threeCommands : List WriteCommand :=
  [.set "a" [1], .set "b" [2], .del ["a", "c"]]

/-- The pairs of the snapshot come in the other order. -/
theorem get_replayed_threeCommands :
    get (applyList (restore (set MemoryEngine.new "d" [4]) [("a", [1]), ("b", [2])])
        (threeCommands.drop 1)) =
      get (applyList MemoryEngine.new threeCommands) :=
  (get_replayed threeCommands (by decide : 1 ≤ 2) (by decide +kernel)
    (set MemoryEngine.new "d" [4])).1

end MemoryEngine

end Ferrium
