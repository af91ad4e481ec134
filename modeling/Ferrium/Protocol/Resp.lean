import Ferrium.Lib.Incremental
import Ferrium.Protocol.Text

/-!
# RESP2 framing

Embedding of `src/protocol/resp.rs` and of the error type of `src/error.rs`. The cursor of the
source is the list of the bytes that it has not passed yet, and a parser is a `Scanner` of these
bytes: `ParseError::Incomplete` is the outcome `more`, and the buffer is left as it was.

The parser calls itself for the items of an array. It takes at least one byte before that, so its
nesting is bounded by the number of bytes in the buffer, which bounds the recursion here. The
parser also reserves memory for the items that an array announces: a request beyond what a `Vec` can
hold is a panic. How large a frame is in memory is up to the compiler, and a parameter. Memory that
runs out, and the size of the stack, are not modelled.

## Main results

* `line_eq_done`: a line ends at the first CRLF;
* `Frame.parse_eq`: the bound on the nesting does not matter;
* `Frame.decoder`: the decoder is stable, so that partial frames can be waited for.
-/

namespace Ferrium

open Incremental Scanner

/-- The set of errors ferrium can produce. -/
inductive Error
  | io (message : String)
  | protocol (message : String)
  /-- A write was routed to a node that is not the current leader, with the leader we know about. -/
  | notLeader (leader : Option String)
  | unknownCommand (name : String)
  | wrongArity (name : String)
  | storage (message : String)
  | cluster (message : String)
  deriving DecidableEq, Repr

/-- A single RESP2 value. -/
inductive Frame
  /-- `+OK\r\n` -/
  | simple (text : String)
  /-- `-ERR message\r\n` -/
  | error (text : String)
  /-- `:1000\r\n` -/
  | integer (n : Int64)
  /-- `$5\r\nhello\r\n` -/
  | bulk (data : List UInt8)
  /-- `$-1\r\n` -/
  | null
  /-- `*2\r\n...` -/
  | array (items : List Frame)
  deriving Repr

/-- Why a parser gives up. -/
inductive ParseError
  /-- The bytes are malformed and the connection is unrecoverable. -/
  | invalid (message : String)
  /-- The task panics, which is not a value of the source. -/
  | panic
  deriving DecidableEq, Repr

/-! ### The cursor -/

/-- Read up to and including the next CRLF, returning the line without it. -/
def line : Scanner UInt8 ParseError (List UInt8)
  | [] => .more
  | [_] => .more
  | a :: b :: rest =>
    if a = byte '\r' ∧ b = byte '\n' then .done [] rest
    else
      match line (b :: rest) with
      | .done text rest => .done (a :: text) rest
      | .more => .more
      | .fail error => .fail error

/-- The debug format of a slice of bytes. -/
def debugBytes (bytes : List UInt8) : String :=
  "[" ++ ", ".intercalate (bytes.map fun b => toString b.toNat) ++ "]"

def parseInt (text : List UInt8) : Scanner UInt8 ParseError Int64 :=
  match (fromUtf8 text).bind fun _ => i64FromStr text with
  | some n => pure n
  | none => fail (.invalid ("invalid integer: " ++ debugBytes text))

def readString : Scanner UInt8 ParseError String := do
  let text ← line
  match fromUtf8 text with
  | some s => pure s
  | none => fail (.invalid "invalid utf-8 in simple string")

namespace Frame

/-! ### The parser -/

/-- Behind the tag of a bulk string. -/
def parseBulk : Scanner UInt8 ParseError Frame := do
  let len ← parseInt (← line)
  if len.toInt < 0 then pure .null
  else
    let data ← take len.toInt.toNat
    let ending ← take 2
    if ending ≠ crlf then fail (.invalid "bulk not terminated by CRLF")
    else pure (.bulk data)

/-- The largest number of bytes of a `Vec`, which is `isize::MAX`. -/
def isizeMax : ℕ :=
  9223372036854775807

/-- Behind the tag of an array, with the parser of its items. -/
def parseArray (frameSize : ℕ) (parse : Scanner UInt8 ParseError Frame) :
    Scanner UInt8 ParseError Frame := do
  let len ← parseInt (← line)
  if len.toInt < 0 then pure .null
  else if isizeMax < len.toInt.toNat * frameSize then fail .panic
  else
    let items ← times parse len.toInt.toNat
    pure (.array items)

/-- Inline commands (a bare line) are treated as an array of the whitespace-split words. -/
def parseInline : Scanner UInt8 ParseError Frame := do
  let text ← line
  pure (.array (((text.splitOn (byte ' ')).filter (· ≠ [])).map .bulk))

/-- Behind any tag, with the parser of the items of an array. -/
def parseTagged (frameSize : ℕ) (parse : Scanner UInt8 ParseError Frame) (tag : UInt8) :
    Scanner UInt8 ParseError Frame :=
  if tag = byte '+' then do
    let text ← readString
    pure (.simple text)
  else if tag = byte '-' then do
    let text ← readString
    pure (.error text)
  else if tag = byte ':' then do
    let n ← parseInt (← line)
    pure (.integer n)
  else if tag = byte '$' then parseBulk
  else if tag = byte '*' then parseArray frameSize parse
  else unread tag parseInline

/-- The parser, up to a depth of the nesting. -/
def parse (frameSize : ℕ) : ℕ → Scanner UInt8 ParseError Frame
  | 0 => more
  | depth + 1 => do
    let tag ← item
    parseTagged frameSize (parse frameSize depth) tag

/-- The parser: the bytes of the buffer bound the depth. -/
def parseFrame (frameSize : ℕ) : Scanner UInt8 ParseError Frame :=
  fun input => parse frameSize input.length input

/-- How a call of the decoder does not end with a frame. -/
inductive Fault
  | error (error : Error)
  | panic
  deriving DecidableEq, Repr

/-- What the decoder makes of an error of the parser. -/
def Fault.ofParseError : ParseError → Fault
  | .invalid message => .error (.protocol message)
  | .panic => .panic

/-- Attempt to decode a single frame from the buffer. -/
def decode (frameSize : ℕ) : Scanner UInt8 Fault Frame :=
  mapError Fault.ofParseError (parseFrame frameSize)

mutual

/-- Serialize a frame. -/
def encode : Frame → List UInt8
  | .simple text => byte '+' :: (asBytes text ++ crlf)
  | .error text => byte '-' :: (asBytes text ++ crlf)
  | .integer n => byte ':' :: (asBytes (toString n.toInt) ++ crlf)
  | .bulk data => byte '$' :: (asBytes (toString data.length) ++ crlf ++ data ++ crlf)
  | .null => [byte '$', byte '-', byte '1'] ++ crlf
  | .array items => byte '*' :: (asBytes (toString items.length) ++ crlf ++ encodeItems items)

/-- The loop over the items of an array. -/
def encodeItems : List Frame → List UInt8
  | [] => []
  | item :: items => encode item ++ encodeItems items

end

end Frame

/-! ### Lines -/

theorem line_cons_cons {a b : UInt8} {rest : List UInt8} (h : ¬(a = byte '\r' ∧ b = byte '\n')) :
    line (a :: b :: rest) =
      match line (b :: rest) with
      | .done text rest => .done (a :: text) rest
      | .more => .more
      | .fail error => .fail error := by
  rw [line, if_neg h]

theorem stable_line : Stable line := by
  intro input suffix h
  induction input with
  | nil => exact absurd rfl h
  | cons a input ih =>
    cases input with
    | nil => exact absurd rfl h
    | cons b rest =>
      by_cases hend : a = byte '\r' ∧ b = byte '\n'
      · rw [List.cons_append, List.cons_append, line, line, if_pos hend, if_pos hend]
        rfl
      · -- whether there is a line is decided behind `a`, with the suffix or without it
        rw [line_cons_cons hend] at h
        rw [List.cons_append, List.cons_append, line_cons_cons hend, line_cons_cons hend,
          ← List.cons_append]
        cases hrest : line (b :: rest) with
        | more =>
          rw [hrest] at h
          exact absurd rfl h
        | done text tail =>
          rw [ih (by simp [hrest]), hrest]
          rfl
        | fail error =>
          rw [ih (by simp [hrest]), hrest]
          rfl

theorem line_append_crlf {text : List UInt8} (h : ¬HasCrlf text) (rest : List UInt8) :
    line (text ++ crlf ++ rest) = .done text rest := by
  induction text with
  | nil => exact if_pos ⟨rfl, rfl⟩
  | cons a text ih =>
    rw [hasCrlf_cons, not_or] at h
    have hline := ih h.2
    -- the next byte, in the text or the CR of its end, does not make an end of line with `a`
    obtain ⟨b, tail, htail, hne⟩ : ∃ b tail, text ++ crlf ++ rest = b :: tail ∧
        ¬(a = byte '\r' ∧ b = byte '\n') := by
      cases text with
      | nil => exact ⟨byte '\r', byte '\n' :: rest, rfl, fun hab => absurd hab.2 (by decide)⟩
      | cons b text =>
        exact ⟨b, text ++ crlf ++ rest, rfl, fun hab => h.1 ⟨hab.1, text, by rw [hab.2]⟩⟩
    rw [List.cons_append, List.cons_append, htail, line_cons_cons hne, ← htail, hline]

/-- **A line ends at the first CRLF.** -/
theorem line_eq_done {input text rest : List UInt8} :
    line input = .done text rest ↔ input = text ++ crlf ++ rest ∧ ¬HasCrlf text := by
  constructor
  · intro h
    induction input generalizing text with
    | nil => cases h
    | cons a input ih =>
      cases input with
      | nil => cases h
      | cons b tail =>
        by_cases hend : a = byte '\r' ∧ b = byte '\n'
        · rw [line, if_pos hend] at h
          obtain ⟨rfl, rfl⟩ := Outcome.done.inj h
          exact ⟨by rw [hend.1, hend.2]; rfl, not_hasCrlf_nil⟩
        · rw [line_cons_cons hend] at h
          cases hrest : line (b :: tail) with
          | more =>
            rw [hrest] at h
            cases h
          | fail error =>
            rw [hrest] at h
            cases h
          | done text' rest' =>
            rw [hrest] at h
            obtain ⟨rfl, rfl⟩ := Outcome.done.inj h
            obtain ⟨heq, hno⟩ := ih hrest
            refine ⟨by rw [heq]; rfl, fun hcrlf => ?_⟩
            -- an end of line in the text would be the one tested here, or one in the rest
            rcases hasCrlf_cons.mp hcrlf with ⟨ha, tail', rfl⟩ | hlater
            · obtain ⟨hb, -⟩ := List.cons.inj heq
              exact hend ⟨ha, hb⟩
            · exact hno hlater
  · rintro ⟨rfl, h⟩
    exact line_append_crlf h rest

theorem consumes_line : Consumes 2 line := by
  intro input text rest h
  obtain ⟨rfl, -⟩ := line_eq_done.mp h
  refine ⟨text ++ crlf, ?_, rfl⟩
  rw [List.length_append]
  exact Nat.le_add_left 2 _

/-! ### The parser is stable and takes bytes -/

theorem stable_parseInt (text : List UInt8) : Stable (parseInt text) := by
  unfold parseInt
  split
  · exact stable_pure _
  · exact stable_fail _

theorem consumes_parseInt (text : List UInt8) : Consumes 0 (parseInt text) := by
  unfold parseInt
  split
  · exact consumes_pure _
  · exact consumes_fail 0 _

theorem stable_readString : Stable readString := by
  refine stable_line.bind fun text => ?_
  split
  · exact stable_pure _
  · exact stable_fail _

theorem consumes_readString : Consumes 2 readString := by
  refine consumes_line.bind_zero fun text => ?_
  split
  · exact consumes_pure _
  · exact consumes_fail 0 _

namespace Frame

variable {frameSize : ℕ} {p q : Scanner UInt8 ParseError Frame}

theorem stable_parseBulk : Stable parseBulk := by
  refine stable_line.bind fun text => (stable_parseInt text).bind fun len => ?_
  split
  · exact stable_pure _
  · refine (stable_take _).bind fun data => (stable_take _).bind fun ending => ?_
    split
    · exact stable_fail _
    · exact stable_pure _

theorem consumes_parseBulk : Consumes 2 parseBulk := by
  refine consumes_line.bind_zero fun text => (consumes_parseInt text).bind_zero fun len => ?_
  split
  · exact consumes_pure _
  · refine ((consumes_take _).mono (Nat.zero_le _)).bind_zero fun data =>
      ((consumes_take _).mono (Nat.zero_le _)).bind_zero fun ending => ?_
    split
    · exact consumes_fail 0 _
    · exact consumes_pure _

theorem stable_parseArray (hp : Stable p) : Stable (parseArray frameSize p) := by
  refine stable_line.bind fun text => (stable_parseInt text).bind fun len => ?_
  split
  · exact stable_pure _
  · split
    · exact stable_fail _
    · exact (hp.times _).bind fun items => stable_pure _

theorem consumes_parseArray (hp : Consumes 0 p) : Consumes 2 (parseArray frameSize p) := by
  refine consumes_line.bind_zero fun text => (consumes_parseInt text).bind_zero fun len => ?_
  split
  · exact consumes_pure _
  · split
    · exact consumes_fail 0 _
    · exact (hp.times _).bind_zero fun items => consumes_pure _

theorem stable_parseTagged (hp : Stable p) (tag : UInt8) :
    Stable (parseTagged frameSize p tag) := by
  unfold parseTagged
  split_ifs
  · exact stable_readString.bind fun text => stable_pure _
  · exact stable_readString.bind fun text => stable_pure _
  · exact stable_line.bind fun text => (stable_parseInt text).bind fun n => stable_pure _
  · exact stable_parseBulk
  · exact stable_parseArray hp
  · exact (stable_line.bind fun text => stable_pure _).unread tag

theorem consumes_parseTagged (hp : Consumes 0 p) (tag : UInt8) :
    Consumes 1 (parseTagged frameSize p tag) := by
  unfold parseTagged
  split_ifs
  · exact (consumes_readString.bind_zero fun text => consumes_pure _).mono (Nat.le_succ 1)
  · exact (consumes_readString.bind_zero fun text => consumes_pure _).mono (Nat.le_succ 1)
  · exact (consumes_line.bind_zero fun text => (consumes_parseInt text).bind_zero fun n =>
      consumes_pure _).mono (Nat.le_succ 1)
  · exact consumes_parseBulk.mono (Nat.le_succ 1)
  · exact (consumes_parseArray hp).mono (Nat.le_succ 1)
  · exact (consumes_line.bind_zero fun text => consumes_pure _).unread tag

theorem stable_parse (frameSize depth : ℕ) : Stable (parse frameSize depth) := by
  induction depth with
  | zero => exact stable_more
  | succ depth ih => exact stable_item.bind fun tag => stable_parseTagged ih tag

theorem consumes_parse (frameSize depth : ℕ) : Consumes 2 (parse frameSize depth) := by
  induction depth with
  | zero => exact consumes_more 2
  | succ depth ih =>
    exact consumes_item.bind fun tag => consumes_parseTagged (ih.mono (Nat.zero_le 2)) tag

/-- Only the items of an array depend on the parser of the items. -/
theorem parseTagged_congr {k : ℕ} {input : List UInt8} (hp : Consumes 0 p)
    (h : ∀ input : List UInt8, input.length ≤ k → p input = q input) (tag : UInt8)
    (hshort : input.length ≤ k) :
    parseTagged frameSize p tag input = parseTagged frameSize q tag input := by
  unfold parseTagged
  split_ifs with hsimple herror hinteger hbulk harray
  iterate 4 rfl
  · refine bind_congr_done fun text rest hline => bind_congr_done fun len rest' hlen => ?_
    have hle := consumes_line.length_le hline
    have hle' := (consumes_parseInt text).length_le hlen
    split_ifs
    · rfl
    · rfl
    · rw [bind_apply, bind_apply, times_congr hp h _ (by omega)]
  · rfl

theorem parse_succ {depth : ℕ} {input : List UInt8} (h : input.length ≤ depth) :
    parse frameSize (depth + 1) input = parse frameSize depth input := by
  induction depth generalizing input with
  | zero =>
    obtain rfl := List.eq_nil_of_length_eq_zero (Nat.le_zero.mp h)
    rfl
  | succ depth ih =>
    cases input with
    | nil => rfl
    | cons tag rest =>
      have hconsumes := (consumes_parse frameSize (depth + 1)).mono (Nat.zero_le 2)
      exact parseTagged_congr hconsumes (fun input hshort => ih hshort) tag
        (Nat.le_of_succ_le_succ h)

/-- **The bound on the nesting does not matter** if it is at least the number of bytes. -/
theorem parse_eq {depth : ℕ} {input : List UInt8} (h : input.length ≤ depth) :
    parse frameSize depth input = parseFrame frameSize input := by
  induction depth, h using Nat.le_induction with
  | base => rfl
  | succ depth hle ih => exact (parse_succ hle).trans ih

theorem stable_parseFrame (frameSize : ℕ) : Stable (parseFrame frameSize) := by
  intro input suffix h
  have hlen : input.length ≤ (input ++ suffix).length := by
    rw [List.length_append]
    exact Nat.le_add_right _ _
  rw [← parse_eq hlen] at h ⊢
  exact stable_parse frameSize _ input suffix h

theorem consumes_parseFrame (frameSize : ℕ) : Consumes 2 (parseFrame frameSize) :=
  fun input _ _ h => consumes_parse frameSize input.length h

/-- The decoder of a connection. -/
def decoder (frameSize : ℕ) : Decoder UInt8 Fault Frame where
  run := decode frameSize
  stable := (stable_parseFrame frameSize).mapError _
  consumes := by
    intro input frame rest h
    exact (consumes_parseFrame frameSize).mono (Nat.le_succ 1) (mapError_eq_done.mp h)

/-! ### The frames in a frame -/

/-- Induction over the items of arrays. -/
@[elab_as_elim]
theorem ind {motive : Frame → Prop} (simple : ∀ text, motive (.simple text))
    (error : ∀ text, motive (.error text)) (integer : ∀ n, motive (.integer n))
    (bulk : ∀ data, motive (.bulk data)) (null : motive .null)
    (array : ∀ items, (∀ item ∈ items, motive item) → motive (.array items)) :
    ∀ frame, motive frame
  | .simple text => simple text
  | .error text => error text
  | .integer n => integer n
  | .bulk data => bulk data
  | .null => null
  | .array items =>
    array items fun item _ => ind simple error integer bulk null array item

mutual

/-- Every frame that occurs in the frame satisfies `P`. -/
def Everywhere (P : Frame → Prop) : Frame → Prop
  | .simple text => P (.simple text)
  | .error text => P (.error text)
  | .integer n => P (.integer n)
  | .bulk data => P (.bulk data)
  | .null => P .null
  | .array items => P (.array items) ∧ EverywhereIn P items

/-- Every frame that occurs in one of the frames satisfies `P`. -/
def EverywhereIn (P : Frame → Prop) : List Frame → Prop
  | [] => True
  | item :: items => Everywhere P item ∧ EverywhereIn P items

end

theorem everywhereIn_iff {P : Frame → Prop} {items : List Frame} :
    EverywhereIn P items ↔ ∀ item ∈ items, Everywhere P item := by
  induction items with
  | nil => simp [EverywhereIn]
  | cons item items ih => simp [EverywhereIn, ih]

/-- The frame itself fits into memory: its length is an `i64`, and no `Vec` has more than `isizeMax`
bytes. -/
def HasSize (frameSize : ℕ) : Frame → Prop
  | .bulk data => data.length ≤ isizeMax
  | .array items => items.length ≤ isizeMax ∧ items.length * frameSize ≤ isizeMax
  | .simple _ | .error _ | .integer _ | .null => True

/-- Every frame that occurs in the frame fits into memory. -/
def Fits (frameSize : ℕ) (frame : Frame) : Prop :=
  frame.Everywhere (HasSize frameSize)

end Frame

end Ferrium
