import Ferrium.Raft.Node
import Ferrium.Storage.Engine

/-!
# Bridging committed log entries and the storage engine

Embedding of `src/apply.rs`. A client write is encoded into a `WriteCommand`, stored in the log, and
decoded and applied once it is committed; the driver and the simulation treat what a node hands out
in the same way (`Committed.applyTo`). The serialization is left open as a `Codec`.

On the contents of an engine a command has an `effect` that does not depend on the engine, so the
contents after a log has been applied are a function of the log (`replay`).
-/

namespace Ferrium

open StorageEngine

/-- A state-machine mutation replicated through Raft. -/
inductive WriteCommand
  | set (key : String) (value : List UInt8)
  | del (keys : List String)
  deriving DecidableEq, Repr

/-- The serialization of commands, which is that of `serde_json` in the source: what is encoded can
be decoded again. -/
structure Codec where
  encode : WriteCommand → List UInt8
  /-- The source reports an error for a corrupt entry, which no caller looks at. -/
  decode : List UInt8 → Option WriteCommand
  decode_encode : ∀ command, decode (encode command) = some command

/-- Serialized commands are not empty, as is the case with the JSON texts of the source: the apply
loop passes over an entry with an empty command. -/
def Codec.NonEmpty (codec : Codec) : Prop :=
  ∀ command, codec.encode command ≠ []

namespace WriteCommand

variable {σ : Type*} [StorageEngine σ]

/-- Delete one key of a `Del`, counting those that existed. -/
def delKey (state : ℕ × σ) (key : String) : ℕ × σ :=
  let deleted := StorageEngine.del state.2 key
  (if deleted.1 then state.1 + 1 else state.1, deleted.2)

/-- Apply this command to the state machine, returning the integer reply surfaced to the client. -/
def apply (self : WriteCommand) (engine : σ) : ℕ × σ :=
  match self with
  | .set key value => (1, StorageEngine.set engine key value)
  | .del keys => keys.foldl delKey (0, engine)

/-- Apply commands one after the other. -/
def applyList (engine : σ) (commands : List WriteCommand) : σ :=
  commands.foldl (fun engine command => (command.apply engine).2) engine

/-- What a command does to the contents of an engine. -/
def effect : WriteCommand → Contents → Contents
  | .set key value, contents => Function.update contents key (some value)
  | .del keys, contents => fun key => if key ∈ keys then none else contents key

theorem get_foldl_delKey [LawfulStorageEngine σ] (keys : List String) (state : ℕ × σ) :
    get (keys.foldl delKey state).2 = effect (.del keys) (get state.2) := by
  induction keys generalizing state with
  | nil => simp [effect]
  | cons key keys ih =>
    rw [List.foldl_cons, ih]
    funext k
    simp only [effect, delKey, LawfulStorageEngine.get_del, List.mem_cons]
    rcases eq_or_ne k key with rfl | hne
    · simp
    · simp [hne]

/-- Every lawful engine applies a command by its effect. -/
theorem get_apply [LawfulStorageEngine σ] (self : WriteCommand) (engine : σ) :
    get (self.apply engine).2 = self.effect (get engine) := by
  cases self with
  | set key value => exact LawfulStorageEngine.get_set engine key value
  | del keys => exact get_foldl_delKey keys (0, engine)

/-- What the command leaves under a key, if it writes the key. -/
def written (key : String) : WriteCommand → Option (Option (List UInt8))
  | .set key' value => if key = key' then some (some value) else none
  | .del keys => if key ∈ keys then some none else none

theorem effect_apply (self : WriteCommand) (contents : Contents) (key : String) :
    self.effect contents key = (self.written key).getD (contents key) := by
  cases self with
  | set key' value =>
    by_cases h : key = key' <;> simp [effect, written, h]
  | del keys =>
    by_cases h : key ∈ keys <;> simp [effect, written, h]

end WriteCommand

namespace Codec

variable (codec : Codec)

/-- What the bytes of a log entry do to the contents: those that do not decode do nothing. -/
def effect (bytes : List UInt8) (contents : Contents) : Contents :=
  match codec.decode bytes with
  | some command => command.effect contents
  | none => contents

/-- What an entry does to the contents; the apply loop passes over empty commands. -/
def entryEffect (contents : Contents) (entry : LogEntry) : Contents :=
  if entry.command = [] then contents else codec.effect entry.command contents

/-- The contents that a log leads to. -/
def replay (contents : Contents) (log : List LogEntry) : Contents :=
  log.foldl codec.entryEffect contents

theorem replay_append (contents : Contents) (log log' : List LogEntry) :
    codec.replay contents (log ++ log') = codec.replay (codec.replay contents log) log' :=
  List.foldl_append

/-- The bytes of a log entry are those of a command that leaves `value` under the key. -/
def Writes (bytes : List UInt8) (key : String) (value : Option (List UInt8)) : Prop :=
  bytes ≠ [] ∧ ∃ command, codec.decode bytes = some command ∧ command.written key = some value

variable {codec} {bytes : List UInt8} {key : String} {value : Option (List UInt8)}

theorem entryEffect_of_writes {entry : LogEntry} (h : codec.Writes entry.command key value)
    (contents : Contents) : codec.entryEffect contents entry key = value := by
  obtain ⟨hne, command, hdecode, hwritten⟩ := h
  simp only [entryEffect, if_neg hne, effect, hdecode]
  rw [command.effect_apply, hwritten]
  rfl

theorem entryEffect_of_not_writes {entry : LogEntry}
    (h : ∀ value, ¬codec.Writes entry.command key value) (contents : Contents) :
    codec.entryEffect contents entry key = contents key := by
  unfold entryEffect
  split
  · rfl
  · next hne =>
    unfold effect
    cases hdecode : codec.decode entry.command with
    | none => rfl
    | some command =>
      dsimp only
      rw [command.effect_apply]
      cases hwritten : command.written key with
      | none => rfl
      | some value => exact absurd ⟨hne, command, hdecode, hwritten⟩ (h value)

/-- **The last write counts**: if a key is written in a log, the contents have what was written
last, there or later. -/
theorem replay_of_writes {log : List LogEntry} {k : ℕ} {entry : LogEntry}
    (hentry : log[k]? = some entry) (hwrites : codec.Writes entry.command key value)
    (contents : Contents) :
    ∃ k' entry', k ≤ k' ∧ log[k']? = some entry' ∧
      codec.Writes entry'.command key (codec.replay contents log key) := by
  induction log using List.reverseRecOn with
  | nil => cases hentry
  | append_singleton log last ih =>
    rw [replay_append]
    have hreplay : codec.replay (codec.replay contents log) [last] key =
        codec.entryEffect (codec.replay contents log) last key := rfl
    rw [hreplay]
    have hlast : (log ++ [last])[log.length]? = some last := by simp
    by_cases hwritten : ∃ value', codec.Writes last.command key value'
    · obtain ⟨value', hvalue'⟩ := hwritten
      rw [entryEffect_of_writes hvalue']
      refine ⟨log.length, last, ?_, hlast, hvalue'⟩
      have hk := (List.getElem?_eq_some_iff.mp hentry).1
      simp only [List.length_append, List.length_singleton] at hk
      omega
    · -- the last entry does not count, and is not the one that writes the key
      rw [entryEffect_of_not_writes fun value' hvalue' => hwritten ⟨value', hvalue'⟩]
      have hk : k < log.length := by
        by_contra hge
        have hk := (List.getElem?_eq_some_iff.mp hentry).1
        simp only [List.length_append, List.length_singleton] at hk
        obtain rfl : k = log.length := by omega
        rw [hlast] at hentry
        exact hwritten ⟨value, Option.some.inj hentry ▸ hwrites⟩
      rw [List.getElem?_append_left hk] at hentry
      obtain ⟨k', entry', hle, hentry', hwrites'⟩ := ih hentry
      have hk' := (List.getElem?_eq_some_iff.mp hentry').1
      exact ⟨k', entry', hle, by rw [List.getElem?_append_left hk']; exact hentry', hwrites'⟩

end Codec

variable {σ : Type*} [StorageEngine σ]

/-- Apply one thing that has been handed out: a command that decodes, or a snapshot. -/
def Committed.applyTo (codec : Codec) (engine : σ) : Committed → σ
  | .command _ bytes =>
    match codec.decode bytes with
    | some write => (write.apply engine).2
    | none => engine
  | .snapshot data => restore engine data

theorem get_applyTo_command [LawfulStorageEngine σ] (codec : Codec) (engine : σ) (index : ℕ)
    (bytes : List UInt8) :
    get ((Committed.command index bytes).applyTo codec engine) =
      codec.effect bytes (get engine) := by
  unfold Committed.applyTo Codec.effect
  dsimp only
  cases codec.decode bytes with
  | none => rfl
  | some write => exact write.get_apply engine

/-! ### A codec

A serialization that is simple enough to be evaluated, for runs on concrete commands. A command is a
list of lists of numbers below `2 ^ 24`; a number is the byte `1` and three more, and a list ends
with the byte `0`. -/

namespace Codec

/-- The bytes of a number. -/
def encodeNat (n : ℕ) : List UInt8 :=
  [1, UInt8.ofNat (n / 65536), UInt8.ofNat (n / 256), UInt8.ofNat n]

/-- The bytes of a list of lists. -/
def encodeLists (lists : List (List ℕ)) : List UInt8 :=
  lists.flatMap fun list => list.flatMap encodeNat ++ [0]

/-- Put a number in front of the first list. -/
def consHead (n : ℕ) : List (List ℕ) → Option (List (List ℕ))
  | list :: lists => some ((n :: list) :: lists)
  | [] => none

/-- Read a list of lists. -/
def decodeLists : List UInt8 → Option (List (List ℕ))
  | [] => some []
  | 0 :: bytes => (decodeLists bytes).map ([] :: ·)
  | 1 :: a :: b :: c :: bytes =>
    (decodeLists bytes).bind (consHead ((a.toNat * 256 + b.toNat) * 256 + c.toNat))
  | _ => none

theorem decodeLists_encodeNat {n : ℕ} (h : n < 16777216) (bytes : List UInt8) :
    decodeLists (encodeNat n ++ bytes) = (decodeLists bytes).bind (consHead n) := by
  have hvalue : ((UInt8.ofNat (n / 65536)).toNat * 256 + (UInt8.ofNat (n / 256)).toNat) * 256 +
      (UInt8.ofNat n).toNat = n := by
    simp only [UInt8.toNat_ofNat']
    omega
  show (decodeLists bytes).bind (consHead _) = _
  rw [hvalue]

theorem decodeLists_append {list : List ℕ} (h : ∀ n ∈ list, n < 16777216) (bytes : List UInt8) :
    decodeLists (list.flatMap encodeNat ++ [0] ++ bytes) = (decodeLists bytes).map (list :: ·) := by
  induction list with
  | nil => rfl
  | cons n list ih =>
    rw [List.flatMap_cons, List.append_assoc, List.append_assoc,
      decodeLists_encodeNat (h n List.mem_cons_self), ← List.append_assoc,
      ih fun k hk => h k (List.mem_cons_of_mem _ hk)]
    cases decodeLists bytes <;> rfl

theorem decodeLists_encodeLists {lists : List (List ℕ)}
    (h : ∀ list ∈ lists, ∀ n ∈ list, n < 16777216) :
    decodeLists (encodeLists lists) = some lists := by
  induction lists with
  | nil => rfl
  | cons list lists ih =>
    have hrest := ih fun l hl => h l (List.mem_cons_of_mem _ hl)
    have hhead := decodeLists_append (h list List.mem_cons_self) (encodeLists lists)
    rw [hrest] at hhead
    exact hhead

/-- The code points of a string. -/
def codes (text : String) : List ℕ :=
  text.toList.map Char.toNat

/-- The string with the given code points. -/
def ofCodes (list : List ℕ) : String :=
  String.ofList (list.map Char.ofNat)

@[simp]
theorem ofCodes_codes (text : String) : ofCodes (codes text) = text := by
  simp [ofCodes, codes, Function.comp_def]

theorem lt_of_mem_codes {text : String} {n : ℕ} (h : n ∈ codes text) : n < 16777216 := by
  obtain ⟨char, -, rfl⟩ := List.mem_map.mp h
  rcases char.valid with hlow | ⟨-, hhigh⟩
  · exact hlow.trans (by decide)
  · exact hhigh.trans (by decide)

/-- The lists for a command. -/
def toLists : WriteCommand → List (List ℕ)
  | .set key value => [[0], codes key, value.map UInt8.toNat]
  | .del keys => [1] :: keys.map codes

/-- The command for a list of lists. -/
def ofLists : List (List ℕ) → Option WriteCommand
  | [[0], key, value] => some (.set (ofCodes key) (value.map UInt8.ofNat))
  | [1] :: keys => some (.del (keys.map ofCodes))
  | _ => none

theorem lt_of_mem_toLists (command : WriteCommand) :
    ∀ list ∈ toLists command, ∀ n ∈ list, n < 16777216 := by
  cases command with
  | set key value =>
    intro list hlist n hn
    simp only [toLists, List.mem_cons, List.not_mem_nil, or_false] at hlist
    rcases hlist with rfl | rfl | rfl
    · simp_all
    · exact lt_of_mem_codes hn
    · obtain ⟨byte, -, rfl⟩ := List.mem_map.mp hn
      have := byte.toNat_lt
      omega
  | del keys =>
    intro list hlist n hn
    rcases List.mem_cons.mp hlist with rfl | hkeys
    · simp_all
    · obtain ⟨key, -, rfl⟩ := List.mem_map.mp hkeys
      exact lt_of_mem_codes hn

theorem ofLists_toLists (command : WriteCommand) : ofLists (toLists command) = some command := by
  cases command with
  | set key value => simp [toLists, ofLists, Function.comp_def]
  | del keys => simp [toLists, ofLists, Function.comp_def]

/-- Commands as lists of numbers. -/
def tagged : Codec where
  encode command := encodeLists (toLists command)
  decode bytes := (decodeLists bytes).bind ofLists
  decode_encode command := by
    rw [decodeLists_encodeLists (lt_of_mem_toLists command)]
    exact ofLists_toLists command

theorem nonEmpty_tagged : tagged.NonEmpty := by
  intro command
  cases command <;> simp [tagged, encodeLists, toLists, encodeNat]

end Codec

end Ferrium
