import Ferrium.Storage.Apply
import Mathlib.Data.Finset.Card
import Mathlib.Data.List.Perm.Basic

/-!
# What a deletion counts

`WriteCommand::Del` counts the keys by a filter that deletes them as it goes, so a key that is
listed again is no longer there. The count is that of the different keys that were present.

## Main results

* `WriteCommand.fst_apply_del`: the count, for every lawful engine;
* `MemoryEngine.apply_del_spec`: what a deletion returns and leaves in the in-memory map, and that
  the order of the keys does not matter.
-/

namespace Ferrium

open StorageEngine

/-- The keys of a list that are present. -/
def Contents.presentAmong (contents : Contents) (keys : List String) : Finset String :=
  keys.toFinset.filter fun key => (contents key).isSome

/-- Once the first key has been deleted, it is not counted again. -/
theorem Contents.card_presentAmong_cons (contents : Contents) (key : String)
    (keys : List String) :
    (contents.presentAmong (key :: keys)).card =
      (if (contents key).isSome then 1 else 0) +
        (Contents.presentAmong (Function.update contents key none) keys).card := by
  have hrest : Contents.presentAmong (Function.update contents key none) keys =
      (contents.presentAmong (key :: keys)).erase key := by
    ext k
    simp only [presentAmong, Finset.mem_filter, Finset.mem_erase, List.mem_toFinset, List.mem_cons]
    rcases eq_or_ne k key with rfl | hne
    · simp
    · simp [hne]
  have hmem : key ∈ contents.presentAmong (key :: keys) ↔ (contents key).isSome := by
    simp [presentAmong]
  rw [hrest]
  split
  · next hsome => rw [Nat.add_comm, Finset.card_erase_add_one (hmem.mpr hsome)]
  · next hnone => rw [Nat.zero_add, Finset.erase_eq_of_notMem fun h => hnone (hmem.mp h)]

namespace WriteCommand

variable {σ : Type*} [StorageEngine σ] [LawfulStorageEngine σ]

theorem fst_foldl_delKey (keys : List String) (state : ℕ × σ) :
    (keys.foldl delKey state).1 =
      state.1 + (Contents.presentAmong (get state.2) keys).card := by
  induction keys generalizing state with
  | nil => simp [Contents.presentAmong]
  | cons key keys ih =>
    -- the rest of the list is counted in the engine from which the key is gone
    rw [List.foldl_cons, ih, Contents.card_presentAmong_cons]
    simp only [delKey, LawfulStorageEngine.get_del, LawfulStorageEngine.del_fst]
    split <;> omega

/-- The count is the number of different keys of the list that are present. -/
theorem fst_apply_del (keys : List String) (engine : σ) :
    ((WriteCommand.del keys).apply engine).1 =
      (Contents.presentAmong (get engine) keys).card :=
  (fst_foldl_delKey keys (0, engine)).trans (Nat.zero_add _)

end WriteCommand

namespace MemoryEngine

/-- Deleting a key removes one pair if the key is there, and none otherwise. -/
theorem len_del (self : MemoryEngine) (key : String) :
    len (del self key).2 + (if (del self key).1 then 1 else 0) = len self := by
  have hkeys : ∀ engine : MemoryEngine, len engine = engine.map.keys.length :=
    fun engine => (List.length_map _).symm
  have hpresent : (del self key).1 = true ↔ key ∈ self.map.keys := by
    rw [← AList.mem_keys, ← AList.lookup_isSome]
    rfl
  have herase : (del self key).2.map.keys = self.map.keys.erase key := AList.keys_erase key self.map
  rw [hkeys, hkeys, herase]
  split
  · next h => exact List.length_erase_add_one (hpresent.mp h)
  · next h => rw [List.erase_of_not_mem fun hmem => h (hpresent.mpr hmem), Nat.add_zero]

theorem len_foldl_delKey (keys : List String) (state : ℕ × MemoryEngine) :
    len (keys.foldl WriteCommand.delKey state).2 + (keys.foldl WriteCommand.delKey state).1 =
      len state.2 + state.1 := by
  induction keys generalizing state with
  | nil => rfl
  | cons key keys ih =>
    have hlen := len_del state.2 key
    rw [List.foldl_cons, ih]
    simp only [WriteCommand.delKey]
    split at hlen <;> split <;> first | omega | contradiction

/-- Two keys can be deleted in either order. -/
instance : RightCommutative
    (WriteCommand.delKey : ℕ × MemoryEngine → String → ℕ × MemoryEngine) where
  right_comm state a b := by
    obtain ⟨count, self⟩ := state
    rcases eq_or_ne a b with rfl | hne
    · rfl
    · -- neither deletion changes whether the other key is there
      have ha : (self.map.erase b).lookup a = self.map.lookup a := AList.lookup_erase_ne hne
      have hb : (self.map.erase a).lookup b = self.map.lookup b := AList.lookup_erase_ne hne.symm
      simp only [WriteCommand.delKey, StorageEngine.del, ha, hb, AList.erase_erase a b]
      split <;> split <;> rfl

/-- **A deletion counts each removed key once.** It returns the number of different keys of the list
that were present, removes them and nothing else, makes the map smaller by that number, and does not
depend on the order of the list. -/
theorem apply_del_spec (self : MemoryEngine) (keys : List String) :
    let result := (WriteCommand.del keys).apply self
    result.1 = (Contents.presentAmong (get self) keys).card ∧
      (∀ key ∈ keys, get result.2 key = none) ∧
      (∀ key ∉ keys, get result.2 key = get self key) ∧
      len result.2 + result.1 = len self ∧
      ∀ keys' : List String, keys.Perm keys' → (WriteCommand.del keys').apply self = result := by
  have hget := (WriteCommand.del keys).get_apply self
  refine ⟨WriteCommand.fst_apply_del keys self, ?_, ?_, len_foldl_delKey keys (0, self), ?_⟩
  · intro key hmem
    rw [hget]
    exact if_pos hmem
  · intro key hmem
    rw [hget]
    exact if_neg hmem
  · intro keys' hperm
    exact (hperm.foldl_eq (0, self)).symm

/-- Three keys in a list that has one of them twice, in a map that holds two of them. -/
theorem apply_del_repeated :
    let self : MemoryEngine := set (set (set new "x" [1]) "y" [2]) "z" [3]
    let keys := ["x", "w", "x", "z"]
    ((WriteCommand.del keys).apply self).1 = 2 ∧
      (Contents.presentAmong (get self) keys).card = 2 ∧
      len self = 3 ∧ len ((WriteCommand.del keys).apply self).2 = 1 ∧
      (WriteCommand.del ["z", "x", "x", "w"]).apply self = (WriteCommand.del keys).apply self := by
  intro self keys
  have hspec := apply_del_spec self keys
  have hcount : ((WriteCommand.del keys).apply self).1 = 2 := by decide
  have hlen : len self = 3 := by decide
  refine ⟨hcount, hspec.1.symm.trans hcount, hlen, ?_, hspec.2.2.2.2 _ (by decide)⟩
  have hsum := hspec.2.2.2.1
  omega

end MemoryEngine

end Ferrium
