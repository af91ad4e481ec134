import Ferrium.Protocol.Grammar

/-!
# Encoding and decoding frames

A frame that is encoded is decoded back, whatever comes behind it, exactly if no simple string and
no error in it contains a CRLF: these two are delimited by the end of the line, and everything else
by a length. The encoding of such a frame is one of the ways to write it in the grammar.

## Main results

* `Frame.yields_parse`: no simple string and no error of a parsed frame contains a CRLF;
* `Frame.derives_encode`: a frame without such texts derives from its encoding;
* `Frame.decode_encode_iff`: these are all the frames that are decoded back;
* `Frame.decode_encode_of_decode`: decoding and encoding is a normal form.
-/

namespace Ferrium

open Incremental Scanner

namespace Frame

theorem encodeItems_eq_flatMap (items : List Frame) : encodeItems items = items.flatMap encode := by
  induction items with
  | nil => rfl
  | cons item items ih => rw [encodeItems, ih, List.flatMap_cons]

/-- The frame itself, apart from its items, has no text that contains a CRLF. -/
def LineSafe : Frame → Prop
  | .simple text | .error text => ¬HasCrlf (asBytes text)
  | .integer _ | .bulk _ | .null | .array _ => True

/-- No simple string and no error that occurs in the frame contains a CRLF. -/
def SingleLine (frame : Frame) : Prop :=
  frame.Everywhere LineSafe

variable {frameSize : ℕ}

theorem singleLine_array {items : List Frame} :
    (array items).SingleLine ↔ ∀ item ∈ items, item.SingleLine := by
  rw [SingleLine, Everywhere, everywhereIn_iff]
  exact ⟨And.right, fun h => ⟨trivial, h⟩⟩

/-! ### What is parsed -/

theorem Derives.singleLine {used : List UInt8} {frame : Frame} (h : Derives used frame) :
    frame.SingleLine := by
  induction h with
  | simple hcrlf => exact hcrlf
  | error hcrlf => exact hcrlf
  | array _ _ _ ih =>
    refine singleLine_array.mpr fun item hitem => ?_
    obtain ⟨part, hmem, rfl⟩ := List.mem_map.mp hitem
    exact ih part hmem
  | inline _ _ _ =>
    refine singleLine_array.mpr fun item hitem => ?_
    obtain ⟨word, -, rfl⟩ := List.mem_map.mp hitem
    exact trivial
  | integer _ => trivial
  | bulk _ _ => trivial
  | nullBulk _ _ => trivial
  | nullArray _ _ => trivial

/-- **No simple string and no error of a parsed frame contains a CRLF.** -/
theorem yields_parse (frameSize depth : ℕ) : Yields SingleLine (parse frameSize depth) :=
  (reads_parse frameSize depth).yields fun _ _ hderives => hderives.singleLine

/-! ### What is encoded -/

theorem numeral_toString (n : Int64) : Numeral (asBytes (toString n.toInt)) n :=
  i64FromStr_eq_some_iff_numeral.mp (i64FromStr_toString n)

/-- The length of something that is in memory is an `i64`. -/
theorem exists_numeral_length {n : ℕ} (h : n ≤ isizeMax) :
    ∃ len : Int64, len.toInt = n ∧ Numeral (asBytes (toString n)) len := by
  have hlen : (Int64.ofInt n).toInt = n := by
    unfold isizeMax at h
    exact Int64.toInt_ofInt_of_le (by omega) (by omega)
  have hnumeral := numeral_toString (Int64.ofInt n)
  rw [hlen] at hnumeral
  exact ⟨Int64.ofInt n, hlen, hnumeral⟩

/-- **A frame derives from its encoding** if it fits and its texts are single lines. -/
theorem derives_encode {frame : Frame} (hline : frame.SingleLine) (hfits : frame.Fits frameSize) :
    Derives (encode frame) frame := by
  induction frame using ind with
  | simple text => exact .simple hline
  | error text => exact .error hline
  | integer n => exact .integer (numeral_toString n)
  | bulk data =>
    obtain ⟨len, hlen, hnumeral⟩ := exists_numeral_length hfits
    have hderives := Derives.bulk hnumeral hlen
    rw [← List.append_assoc] at hderives
    exact hderives
  | null =>
    have hminus : Numeral [byte '-', byte '1'] (-1) :=
      i64FromStr_eq_some_iff_numeral.mp (by decide +kernel)
    exact .nullBulk hminus (by decide)
  | array items ih =>
    rw [SingleLine, Everywhere, everywhereIn_iff] at hline
    rw [Fits, Everywhere, everywhereIn_iff] at hfits
    obtain ⟨len, hlen, hnumeral⟩ := exists_numeral_length hfits.1.1
    -- each item stands with the bytes that it is encoded by
    have hparts : ∀ part ∈ items.map fun item => (encode item, item), Derives part.1 part.2 := by
      intro part hpart
      obtain ⟨item, hitem, rfl⟩ := List.mem_map.mp hpart
      exact ih item hitem (hline.2 item hitem) (hfits.2 item hitem)
    have hderives := Derives.array hnumeral (by rw [hlen, List.length_map]) hparts
    rw [List.flatMap_map, List.map_map] at hderives
    rw [encode, encodeItems_eq_flatMap]
    simpa [Function.comp_def] using hderives

/-- An error ends with its line, whatever comes behind it. -/
theorem decode_error {text : String} (h : ¬HasCrlf (asBytes text)) (rest : List UInt8) :
    decode frameSize (byte '-' :: (asBytes text ++ crlf ++ rest)) = .done (.error text) rest :=
  mapError_eq_done.mpr ((Derives.error h).parseFrame_of_reservable trivial rest)

/-- **A frame is parsed back** if it fits and its texts are single lines. -/
theorem parseFrame_encode {frame : Frame} (hline : frame.SingleLine)
    (hfits : frame.Fits frameSize) (rest : List UInt8) :
    parseFrame frameSize (encode frame ++ rest) = .done frame rest :=
  (derives_encode hline hfits).parseFrame_of_reservable hfits.reservable rest

/-- The same for a frame that nothing comes behind. -/
theorem decode_encode_nil_iff {frame : Frame} (hfits : frame.Fits frameSize) :
    decode frameSize (encode frame) = .done frame [] ↔ frame.SingleLine := by
  constructor
  · intro h
    exact yields_parse frameSize _ (mapError_eq_done.mp h)
  · intro hline
    have hparse := parseFrame_encode hline hfits []
    rw [List.append_nil] at hparse
    exact mapError_eq_done.mpr hparse

/-- **Encoding and decoding is the identity exactly on the frames whose texts are single lines.** -/
theorem decode_encode_iff {frame : Frame} (hfits : frame.Fits frameSize) :
    (∀ rest, decode frameSize (encode frame ++ rest) = .done frame rest) ↔ frame.SingleLine := by
  constructor
  · intro h
    have hnil := h []
    rw [List.append_nil] at hnil
    exact (decode_encode_nil_iff hfits).mp hnil
  · intro hline rest
    exact mapError_eq_done.mpr (parseFrame_encode hline hfits rest)

/-- A frame of each kind, with a bulk string that is the end of a line. -/
def everyKind : Frame :=
  .array [.simple "OK", .error "ERR \r", .integer (-12), .bulk crlf, .null, .array []]

theorem decode_encode_everyKind :
    everyKind.Fits 40 ∧
      ((∀ rest, decode 40 (encode everyKind ++ rest) = .done everyKind rest) ↔
        everyKind.SingleLine) := by
  have hfits : everyKind.Fits 40 := by
    simp [Fits, everyKind, Everywhere, EverywhereIn, HasSize, isizeMax, crlf]
  exact ⟨hfits, decode_encode_iff hfits⟩

/-! ### Decoding and encoding again -/

/-- The first frame of a buffer, encoded again. -/
def normalise (frameSize : ℕ) (buffer : List UInt8) : Option (List UInt8) :=
  match decode frameSize buffer with
  | .done frame _ => some (encode frame)
  | .more => none
  | .fail _ => none

theorem normalise_of_done {buffer rest : List UInt8} {frame : Frame}
    (h : decode frameSize buffer = .done frame rest) :
    normalise frameSize buffer = some (encode frame) := by
  rw [normalise, h]

/-- **What is decoded is decoded again from its encoding**, however it was written: decoding and
encoding is a normal form. -/
theorem decode_encode_of_decode {buffer rest : List UInt8} {frame : Frame}
    (h : decode frameSize buffer = .done frame rest) (hfits : frame.Fits frameSize) :
    decode frameSize (encode frame) = .done frame [] ∧
      (normalise frameSize buffer).bind (normalise frameSize) = normalise frameSize buffer := by
  have hline : frame.SingleLine := yields_parse frameSize _ (mapError_eq_done.mp h)
  have hagain : decode frameSize (encode frame) = .done frame [] :=
    (decode_encode_nil_iff hfits).mpr hline
  refine ⟨hagain, ?_⟩
  rw [normalise_of_done h, Option.bind_some, normalise_of_done hagain]

/-- Lengths with a sign and with zeros in front, and an inline command with spaces around it. -/
def paddedRequest : List UInt8 :=
  [byte '*', byte '+', byte '0', byte '2'] ++ crlf ++ [byte '$', byte '0', byte '1'] ++ crlf ++
    [byte 'k'] ++ crlf ++ [byte ' ', byte 'v', byte ' '] ++ crlf

theorem decode_encode_of_decode_paddedRequest :
    decode 40 paddedRequest = .done (.array [.bulk [byte 'k'], .array [.bulk [byte 'v']]]) [] ∧
      decode 40 (encode (.array [.bulk [byte 'k'], .array [.bulk [byte 'v']]])) =
        .done (.array [.bulk [byte 'k'], .array [.bulk [byte 'v']]]) [] ∧
      (normalise 40 paddedRequest).bind (normalise 40) = normalise 40 paddedRequest := by
  have hdecode : decode 40 paddedRequest =
      .done (.array [.bulk [byte 'k'], .array [.bulk [byte 'v']]]) [] := rfl
  have hfits : (array [.bulk [byte 'k'], .array [.bulk [byte 'v']]]).Fits 40 := by
    simp [Fits, Everywhere, EverywhereIn, HasSize, isizeMax]
  exact ⟨hdecode, decode_encode_of_decode hdecode hfits⟩

end Frame

end Ferrium
