import Ferrium.Raft.Message
import Mathlib.Data.List.AList

/-!
# Storage engines

Embedding of `src/storage/engine.rs` and `src/storage/memory.rs`. The methods of the trait that
change the engine through interior mutability return the changed engine here. Values of type
`Bytes` are lists of bytes.

What the replicated store relies on is collected in `LawfulStorageEngine`, in terms of the contents
that an engine presents through `get`.
-/

namespace Ferrium

/-- A key/value backend that the state machine applies committed writes to. -/
class StorageEngine (σ : Type*) where
  /-- Fetch a value, or `none` if the key is absent. -/
  get : σ → String → Option (List UInt8)
  /-- Insert or overwrite a key. -/
  set : σ → String → List UInt8 → σ
  /-- Remove a key, returning whether it existed. -/
  del : σ → String → Bool × σ
  /-- Number of stored keys. -/
  len : σ → ℕ
  /-- Materialize the full contents for snapshotting. -/
  snapshot : σ → List KeyValue
  /-- Replace the entire contents from a snapshot. -/
  restore : σ → List KeyValue → σ

/-- What an engine holds, key by key. -/
abbrev Contents := String → Option (List UInt8)

open StorageEngine

/-- The methods do to the contents what they are meant to do. -/
class LawfulStorageEngine (σ : Type*) [StorageEngine σ] : Prop where
  get_set : ∀ (engine : σ) key value,
    get (set engine key value) = Function.update (get engine) key (some value)
  del_fst : ∀ (engine : σ) key, (del engine key).1 = (get engine key).isSome
  get_del : ∀ (engine : σ) key, get (del engine key).2 = Function.update (get engine) key none
  get_restore : ∀ engine engine' : σ, get (restore engine (snapshot engine')) = get engine'

/-- An in-memory key/value map. -/
structure MemoryEngine where
  map : AList fun _ : String => List UInt8

namespace MemoryEngine

/-- The empty map. -/
def new : MemoryEngine := ⟨∅⟩

/-- The `HashMap` gives its pairs out in an order that nothing depends on; here it is the order of
the association list. -/
instance : StorageEngine MemoryEngine where
  get self key := self.map.lookup key
  set self key value := ⟨self.map.insert key value⟩
  del self key := ((self.map.lookup key).isSome, ⟨self.map.erase key⟩)
  len self := self.map.entries.length
  snapshot self := self.map.entries.map fun pair => (pair.1, pair.2)
  restore _ entries := ⟨entries.foldl (fun map pair => map.insert pair.1 pair.2) ∅⟩

/-- Inserting pairs with different keys one after the other. -/
theorem lookup_foldl_insert (pairs : List (Sigma fun _ : String => List UInt8))
    (hnodup : pairs.NodupKeys) (map : AList fun _ : String => List UInt8) (key : String) :
    ((pairs.map fun pair => (pair.1, pair.2)).foldl
        (fun map pair => map.insert pair.1 pair.2) map).lookup key =
      (pairs.dlookup key).or (map.lookup key) := by
  induction pairs generalizing map with
  | nil => rfl
  | cons pair pairs ih =>
    obtain ⟨k, value⟩ := pair
    obtain ⟨hfresh, hrest⟩ := List.nodupKeys_cons.mp hnodup
    rw [List.map_cons, List.foldl_cons, ih hrest]
    rcases eq_or_ne key k with rfl | hne
    · -- the key does not occur again, so the pair is not overwritten
      rw [List.dlookup_eq_none.mpr hfresh, AList.lookup_insert, List.dlookup_cons_eq]
      rfl
    · rw [AList.lookup_insert_ne hne, List.dlookup_cons_ne _ _ hne]

instance : LawfulStorageEngine MemoryEngine where
  get_set self key value := by
    funext k
    rcases eq_or_ne k key with rfl | hne
    · rw [Function.update_self]
      exact AList.lookup_insert self.map
    · rw [Function.update_of_ne hne]
      exact AList.lookup_insert_ne hne
  del_fst _ _ := rfl
  get_del self key := by
    funext k
    rcases eq_or_ne k key with rfl | hne
    · rw [Function.update_self]
      exact AList.lookup_erase k self.map
    · rw [Function.update_of_ne hne]
      exact AList.lookup_erase_ne hne
  get_restore _ self := by
    funext key
    refine (lookup_foldl_insert self.map.entries self.map.nodupKeys ∅ key).trans ?_
    rw [AList.lookup_empty, Option.or_none]
    rfl

/-- The order in which the pairs of a snapshot come does not matter. -/
theorem get_restore_of_perm {pairs : List KeyValue} {self : MemoryEngine}
    (h : pairs.Perm (snapshot self)) (engine : MemoryEngine) :
    get (restore engine pairs) = get self := by
  have hmap : pairs = (pairs.map fun pair => (⟨pair.1, pair.2⟩ : Sigma fun _ => List UInt8)).map
      fun pair => (pair.1, pair.2) := by
    rw [List.map_map]
    exact (List.map_id pairs).symm
  have hperm : (pairs.map fun pair => ⟨pair.1, pair.2⟩).Perm self.map.entries := by
    have := h.map fun pair => (⟨pair.1, pair.2⟩ : Sigma fun _ => List UInt8)
    simpa [snapshot, Function.comp_def] using this
  have hnodup := (List.perm_nodupKeys hperm).mpr self.map.nodupKeys
  funext key
  have hlookup := lookup_foldl_insert _ hnodup ∅ key
  rw [← hmap, AList.lookup_empty, Option.or_none, List.perm_dlookup key hnodup hperm] at hlookup
  exact hlookup

/-- Engines with the same contents have the same snapshot, up to the order of the pairs. -/
theorem snapshot_perm {self other : MemoryEngine} (h : get self = get other) :
    (snapshot self).Perm (snapshot other) := by
  have hperm : self.map.entries.Perm other.map.entries := by
    refine List.lookup_ext self.map.nodupKeys other.map.nodupKeys fun key value => ?_
    have hkey : self.map.lookup key = other.map.lookup key := congrFun h key
    exact iff_of_eq (congrArg (value ∈ ·) hkey)
  exact hperm.map _

end MemoryEngine

end Ferrium
