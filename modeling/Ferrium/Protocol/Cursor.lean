import Ferrium.Lib.Positioned
import Ferrium.Protocol.Grammar

/-!
# The cursor of the decoder

Embedding of the cursor and of the parser of `src/protocol/resp.rs` one level below
`Protocol.Resp`: a slice of bytes and a position in it, with every operation that can panic. These
are additions and subtractions of `usize`, the bytes and the ranges of a slice, and the memory that
is reserved for an array. A position and the lengths of the input are numbers, and what does not fit
into a `usize` is a panic.

Nothing of the source bounds the recursion of the parser and the loop over a line. Both have a bound
here, and to reach it is an outcome of its own. The parser counts its calls.

The parser at a position does what the parser of `Protocol.Resp` does with the rest of the bytes, so
that the only panics are those that are known from there.

## Main results

* `Cursor.follows_parse`: the parser at a position follows the parser of the bytes;
* `Cursor.decode_eq`: the decoder of the source is the decoder of the bytes;
* `Cursor.decode_panics_iff`: when the decoder panics;
* `Cursor.parse_ends`: the parser ends, within the slice, after few calls.
-/

namespace Ferrium

open Incremental

/-- A buffer of bytes. Nothing in memory is larger than `isize::MAX` bytes. -/
structure Buffer where
  bytes : List UInt8
  length_le : bytes.length ≤ Frame.isizeMax

namespace Cursor

open Reader

/-! ### What can panic -/

variable {α : Type}

/-- The task panics. -/
def panic : Reader UInt8 ParseError α :=
  fault .panic

/-- The number of values of a `usize`. -/
def usizeCount : ℕ :=
  18446744073709551616

/-- The sum of two `usize`. -/
def add (a b : ℕ) : Reader UInt8 ParseError ℕ :=
  if a + b < usizeCount then pure (a + b) else panic

/-- The difference of two `usize`. -/
def sub (a b : ℕ) : Reader UInt8 ParseError ℕ :=
  if b ≤ a then pure (a - b) else panic

/-- The byte of the slice at an index. -/
def byteAt (i : ℕ) : Reader UInt8 ParseError UInt8 := do
  match (← buffer)[i]? with
  | some b => pure b
  | none => panic

/-- The range of the slice from an index up to another. -/
def range (start stop : ℕ) : Reader UInt8 ParseError (List UInt8) := do
  let buf ← buffer
  if start ≤ stop ∧ stop ≤ buf.length then pure ((buf.drop start).take (stop - start)) else panic

/-- Reserve memory for the items of an array. -/
def withCapacity (frameSize count : ℕ) : Reader UInt8 ParseError Unit :=
  if Frame.isizeMax < count * frameSize then panic else pure ()

/-! ### The cursor -/

def u8 : Reader UInt8 ParseError UInt8 := do
  match (← buffer)[← position]? with
  | none => short
  | some b =>
    seek (← add (← position) 1)
    pure b

/-- Whether a line ends at the position. The second byte is looked at only if the first one is a
carriage return. -/
def atCrlf : Reader UInt8 ParseError Bool := do
  if (← byteAt (← position)) = byte '\r' then
    let next ← byteAt (← add (← position) 1)
    pure (decide (next = byte '\n'))
  else pure false

/-- The loop over a line that starts at `start`, for at most `bound` bytes. -/
def lineFrom (start : ℕ) : ℕ → Reader UInt8 ParseError (List UInt8)
  | 0 => exhausted
  | bound + 1 => do
    if (← add (← position) 1) < (← buffer).length then
      if ← atCrlf then
        let text ← range start (← position)
        seek (← add (← position) 2)
        pure text
      else
        seek (← add (← position) 1)
        lineFrom start bound
    else short

/-- Read up to and including the next CRLF, returning the line without it. -/
def line : Reader UInt8 ParseError (List UInt8) := do
  let start ← position
  lineFrom start ((← buffer).length + 1)

def take (n : ℕ) : Reader UInt8 ParseError (List UInt8) := do
  if (← buffer).length < (← add (← position) n) then short
  else
    let data ← range (← position) (← add (← position) n)
    seek (← add (← position) n)
    pure data

/-! ### The parser -/

def parseInt (text : List UInt8) : Reader UInt8 ParseError Int64 :=
  match (fromUtf8 text).bind fun _ => i64FromStr text with
  | some n => pure n
  | none => fault (.invalid ("invalid integer: " ++ debugBytes text))

def readString : Reader UInt8 ParseError String := do
  let text ← line
  match fromUtf8 text with
  | some s => pure s
  | none => fault (.invalid "invalid utf-8 in simple string")

/-- Behind the tag of a bulk string. -/
def parseBulk : Reader UInt8 ParseError Frame := do
  let len ← parseInt (← line)
  if len.toInt < 0 then pure .null
  else
    let data ← take len.toInt.toNat
    let ending ← take 2
    if ending ≠ crlf then fault (.invalid "bulk not terminated by CRLF")
    else pure (.bulk data)

/-- Behind the tag of an array, with the parser of its items. -/
def parseArray (frameSize : ℕ) (parse : Reader UInt8 ParseError Frame) :
    Reader UInt8 ParseError Frame := do
  let len ← parseInt (← line)
  if len.toInt < 0 then pure .null
  else
    withCapacity frameSize len.toInt.toNat
    let items ← parse.times len.toInt.toNat
    pure (.array items)

/-- An inline command, whose line starts with the byte that was taken for a tag. -/
def parseInline : Reader UInt8 ParseError Frame := do
  seek (← sub (← position) 1)
  let text ← line
  pure (.array (((text.splitOn (byte ' ')).filter (· ≠ [])).map .bulk))

/-- Behind any tag, with the parser of the items of an array. -/
def parseTagged (frameSize : ℕ) (parse : Reader UInt8 ParseError Frame) (tag : UInt8) :
    Reader UInt8 ParseError Frame :=
  if tag = byte '+' then do
    let text ← readString
    pure (.simple text)
  else if tag = byte '-' then do
    let text ← readString
    pure (.error text)
  else if tag = byte ':' then do
    let n ← parseInt (← line)
    pure (.integer n)
  else if tag = byte '$' then parseBulk
  else if tag = byte '*' then parseArray frameSize parse
  else parseInline

/-- The parser, for at most `bound` calls within each other. -/
def parse (frameSize : ℕ) : ℕ → Reader UInt8 ParseError Frame
  | 0 => exhausted
  | bound + 1 => do
    call
    let tag ← u8
    parseTagged frameSize (parse frameSize bound) tag

/-- Attempt to decode a single frame from the buffer, and advance the buffer past it. -/
def decode (frameSize : ℕ) (src : Buffer) : Verdict Frame.Fault (Frame × List UInt8) :=
  match parse frameSize (src.bytes.length + 1) src.bytes 0 with
  | ⟨.ok frame, consumed, _, _⟩ =>
    if consumed ≤ src.bytes.length then .ok (frame, src.bytes.drop consumed) else .fault .panic
  | ⟨.short, _, _, _⟩ => .short
  | ⟨.fault error, _, _, _⟩ => .fault (Frame.Fault.ofParseError error)
  | ⟨.exhausted, _, _, _⟩ => .exhausted

/-! ### The cursor takes what the scanners take -/

variable {buf : List UInt8} {pos room : ℕ}

/-- Sums of a position and a length fit into a `usize`. -/
theorem add_eq {n here : ℕ} (hlimit : buf.length ≤ Frame.isizeMax) (hpos : pos ≤ buf.length)
    (hn : n ≤ Frame.isizeMax) : add pos n buf here = ⟨.ok (pos + n), here, 0, 0⟩ := by
  unfold Frame.isizeMax at hlimit hn
  have hfits : pos + n < usizeCount := by
    unfold usizeCount
    omega
  unfold add
  rw [if_pos hfits]
  rfl

theorem byteAt_eq {b : UInt8} {i : ℕ} (h : buf[i]? = some b) :
    byteAt i buf pos = ⟨.ok b, pos, 0, 0⟩ := by
  unfold byteAt
  rw [bind_of_look rfl, h]
  rfl

theorem range_eq {start stop : ℕ} (hstart : start ≤ stop) (hstop : stop ≤ buf.length) :
    range start stop buf pos = ⟨.ok ((buf.drop start).take (stop - start)), pos, 0, 0⟩ := by
  unfold range
  rw [bind_of_look rfl, if_pos ⟨hstart, hstop⟩]
  rfl

theorem u8_of_lt (hlimit : buf.length ≤ Frame.isizeMax) {tag : UInt8} (h : buf[pos]? = some tag) :
    u8 buf pos = ⟨.ok tag, pos + 1, pos + 1, 0⟩ := by
  have hpos : pos ≤ buf.length := (List.getElem?_eq_some_iff.mp h).1.le
  unfold u8
  rw [bind_of_look rfl, bind_of_look rfl, h]
  dsimp only
  rw [bind_of_look rfl, bind_of_look (add_eq hlimit hpos (by decide))]
  rfl

theorem u8_of_le (h : buf.length ≤ pos) : u8 buf pos = ⟨.short, pos, 0, 0⟩ := by
  unfold u8
  rw [bind_of_look rfl, bind_of_look rfl, List.getElem?_eq_none h]
  rfl

/-- Where there are two bytes left, the cursor sees whether they end a line. -/
theorem atCrlf_eq (hlimit : buf.length ≤ Frame.isizeMax) {a b : UInt8} (ha : buf[pos]? = some a)
    (hb : buf[pos + 1]? = some b) :
    atCrlf buf pos = ⟨.ok (decide (a = byte '\r' ∧ b = byte '\n')), pos, 0, 0⟩ := by
  have hpos : pos ≤ buf.length := (List.getElem?_eq_some_iff.mp ha).1.le
  unfold atCrlf
  rw [bind_of_look rfl, bind_of_look (byteAt_eq ha)]
  by_cases hreturn : a = byte '\r'
  · rw [if_pos hreturn, bind_of_look rfl, bind_of_look (add_eq hlimit hpos (by decide)),
      bind_of_look (byteAt_eq hb)]
    simp only [hreturn, true_and]
    rfl
  · rw [if_neg hreturn]
    simp only [hreturn, false_and, decide_false]
    rfl

/-- The bytes behind a position with two bytes left. -/
theorem drop_eq_cons_cons {a b : UInt8} (ha : buf[pos]? = some a) (hb : buf[pos + 1]? = some b) :
    buf.drop pos = a :: b :: buf.drop (pos + 2) := by
  obtain ⟨hlt, rfl⟩ := List.getElem?_eq_some_iff.mp ha
  obtain ⟨hlt', rfl⟩ := List.getElem?_eq_some_iff.mp hb
  rw [List.drop_eq_getElem_cons hlt, List.drop_eq_getElem_cons hlt']

theorem line_of_length_lt {input : List UInt8} (h : input.length < 2) :
    Ferrium.line input = .more := by
  match input, h with
  | [], _ => rfl
  | [_], _ => rfl

/-- A byte that is passed belongs to the line. -/
theorem line_pass {a b : UInt8} (ha : buf[pos]? = some a) (hb : buf[pos + 1]? = some b)
    (hne : ¬(a = byte '\r' ∧ b = byte '\n')) {start : ℕ} (hstart : start ≤ pos) :
    (Ferrium.line >>= fun text => pure ((buf.drop start).take (pos - start) ++ text) :
        Scanner UInt8 ParseError (List UInt8)) (buf.drop pos) =
      (Ferrium.line >>= fun text => pure ((buf.drop start).take (pos + 1 - start) ++ text) :
        Scanner UInt8 ParseError (List UInt8)) (buf.drop (pos + 1)) := by
  obtain ⟨hlt, hget⟩ := List.getElem?_eq_some_iff.mp ha
  obtain ⟨hlt', hget'⟩ := List.getElem?_eq_some_iff.mp hb
  have htake : (buf.drop start).take (pos + 1 - start) =
      (buf.drop start).take (pos - start) ++ [a] := by
    rw [Nat.sub_add_comm hstart, List.take_add_one, List.getElem?_drop, Nat.add_sub_cancel' hstart,
      ha]
    rfl
  have hdrop : buf.drop (pos + 1) = b :: buf.drop (pos + 2) := by
    rw [List.drop_eq_getElem_cons hlt', hget']
  rw [Incremental.bind_apply, Incremental.bind_apply, drop_eq_cons_cons ha hb, line_cons_cons hne,
    htake, hdrop]
  cases Ferrium.line (b :: buf.drop (pos + 2)) with
  | more => rfl
  | fail error => rfl
  | done text rest =>
    dsimp only
    rw [List.append_assoc, List.singleton_append]

/-- The loop finds the line that the scanner finds, behind the bytes that it has passed already. -/
theorem tracks_lineFrom (hlimit : buf.length ≤ Frame.isizeMax) {start bound : ℕ}
    (hstart : start ≤ pos) (hpos : pos ≤ buf.length) (hbound : buf.length < pos + bound) :
    Tracks buf pos (lineFrom start bound buf pos)
      ((Ferrium.line >>= fun text => pure ((buf.drop start).take (pos - start) ++ text))
        (buf.drop pos)) := by
  induction bound generalizing pos with
  | zero => omega
  | succ bound ih =>
    unfold lineFrom
    rw [bind_of_look rfl, bind_of_look (add_eq hlimit hpos (by decide)), bind_of_look rfl]
    by_cases hlt : pos + 1 < buf.length
    · rw [if_pos hlt]
      obtain ⟨a, ha⟩ : ∃ a, buf[pos]? = some a := ⟨_, List.getElem?_eq_getElem (by omega)⟩
      obtain ⟨b, hb⟩ : ∃ b, buf[pos + 1]? = some b := ⟨_, List.getElem?_eq_getElem hlt⟩
      rw [bind_of_look (atCrlf_eq hlimit ha hb)]
      by_cases hend : a = byte '\r' ∧ b = byte '\n'
      · have hline : Ferrium.line (buf.drop pos) = .done [] (buf.drop (pos + 2)) := by
          rw [drop_eq_cons_cons ha hb, Ferrium.line, if_pos hend]
        rw [if_pos (decide_eq_true hend), bind_of_look rfl, bind_of_look (range_eq hstart hpos),
          bind_of_look rfl, bind_of_look (add_eq hlimit hpos (by decide)), seek_bind_pure,
          bind_of_done hline, List.append_nil]
        exact Tracks.ok (by omega) (by omega) (by omega)
      · rw [if_neg (by simpa using hend), bind_of_look rfl,
          bind_of_look (add_eq hlimit hpos (by decide)), line_pass ha hb hend hstart]
        have hlater := ih (Nat.le_succ_of_le hstart) hlt.le (by omega)
        rw [Reader.bind_of_ok (rfl : seek (pos + 1) buf pos = ⟨.ok (), pos + 1, pos + 1, 0⟩)]
        exact hlater.after hlt.le (Nat.le_succ (pos + 0))
    · have hline : Ferrium.line (buf.drop pos) = .more :=
        line_of_length_lt (by rw [List.length_drop]; omega)
      rw [if_neg hlt, Incremental.bind_apply, hline]
      exact Tracks.short hpos (Nat.zero_le _) (by omega)

theorem follows_line : Follows Frame.isizeMax room line Ferrium.line := by
  intro buf pos hlimit hpos _
  have htracks := tracks_lineFrom hlimit (Nat.le_refl pos) hpos
    (by omega : buf.length < pos + (buf.length + 1))
  have hpure : (Ferrium.line >>= fun text => pure ((buf.drop pos).take (pos - pos) ++ text))
      (buf.drop pos) = Ferrium.line (buf.drop pos) := by
    rw [Incremental.bind_apply, Nat.sub_self, List.take_zero]
    cases Ferrium.line (buf.drop pos) <;> rfl
  rw [hpure] at htracks
  unfold line
  rw [bind_of_look rfl, bind_of_look rfl]
  exact htracks

theorem follows_take {n : ℕ} (hn : n ≤ Frame.isizeMax) :
    Follows Frame.isizeMax room (take n) (Scanner.take n) := by
  intro buf pos hlimit hpos _
  unfold take Scanner.take
  rw [bind_of_look rfl, bind_of_look rfl, bind_of_look (add_eq hlimit hpos hn), List.length_drop]
  by_cases hshort : buf.length < pos + n
  · rw [if_pos hshort, if_pos (by omega)]
    exact Tracks.short hpos (Nat.zero_le _) (by omega)
  · have hrange : (buf.drop pos).take (pos + n - pos) = (buf.drop pos).take n := by
      rw [Nat.add_sub_cancel_left]
    rw [if_neg hshort, if_neg (by omega), bind_of_look rfl, bind_of_look rfl,
      bind_of_look (add_eq hlimit hpos hn),
      bind_of_look (range_eq (Nat.le_add_right pos n) (by omega)), bind_of_look rfl,
      bind_of_look (add_eq hlimit hpos hn), seek_bind_pure, hrange, List.drop_drop]
    exact Tracks.ok (by omega) (by omega) (by omega)

/-! ### The parser follows the parser of the bytes -/

theorem follows_parseInt (text : List UInt8) :
    Follows Frame.isizeMax room (parseInt text) (Ferrium.parseInt text) := by
  unfold parseInt Ferrium.parseInt
  cases (fromUtf8 text).bind fun _ => i64FromStr text with
  | none => exact follows_fault _
  | some n => exact follows_pure n

theorem follows_readString : Follows Frame.isizeMax room readString Ferrium.readString := by
  refine follows_line.bind fun text => ?_
  cases fromUtf8 text with
  | none => exact follows_fault _
  | some s => exact follows_pure s

/-- A length that is an `i64` is the length of something in memory. -/
theorem toNat_toInt_le (n : Int64) : n.toInt.toNat ≤ Frame.isizeMax := by
  have hlt := n.toInt_lt
  unfold Frame.isizeMax
  omega

theorem follows_parseBulk : Follows Frame.isizeMax room parseBulk Frame.parseBulk := by
  refine follows_line.bind fun text => (follows_parseInt text).bind fun len => ?_
  by_cases hneg : len.toInt < 0
  · rw [if_pos hneg, if_pos hneg]
    exact follows_pure _
  · rw [if_neg hneg, if_neg hneg]
    refine (follows_take (toNat_toInt_le len)).bind fun data =>
      (follows_take (by decide)).bind fun ending => ?_
    by_cases hcrlf : ending ≠ crlf
    · rw [if_pos hcrlf, if_pos hcrlf]
      exact follows_fault _
    · rw [if_neg hcrlf, if_neg hcrlf]
      exact follows_pure _

variable {frameSize : ℕ} {r : Reader UInt8 ParseError Frame} {p : Scanner UInt8 ParseError Frame}

theorem follows_parseArray (hr : Follows Frame.isizeMax room r p) :
    Follows Frame.isizeMax room (parseArray frameSize r) (Frame.parseArray frameSize p) := by
  refine follows_line.bind fun text => (follows_parseInt text).bind fun len => ?_
  by_cases hneg : len.toInt < 0
  · rw [if_pos hneg, if_pos hneg]
    exact follows_pure _
  · rw [if_neg hneg, if_neg hneg]
    by_cases hmemory : Frame.isizeMax < len.toInt.toNat * frameSize
    · rw [if_pos hmemory, withCapacity, if_pos hmemory]
      exact follows_fault _
    · have hitems := (hr.times len.toInt.toNat).bind fun items => follows_pure (Frame.array items)
      rw [if_neg hmemory, withCapacity, if_neg hmemory]
      intro buf pos hlimit hpos hroom
      rw [bind_of_look rfl]
      exact hitems hlimit hpos hroom

theorem quiet_add (a b : ℕ) : Quiet (add a b) := by
  unfold add
  split
  · exact quiet_conclude _
  · exact quiet_conclude _

theorem quiet_byteAt (i : ℕ) : Quiet (byteAt i) := by
  refine quiet_buffer.bind fun buf => ?_
  cases buf[i]? with
  | none => exact quiet_conclude _
  | some b => exact quiet_conclude _

theorem quiet_range (start stop : ℕ) : Quiet (range start stop) := by
  refine quiet_buffer.bind fun buf => ?_
  split
  · exact quiet_conclude _
  · exact quiet_conclude _

theorem quiet_atCrlf : Quiet atCrlf := by
  refine quiet_position.bind fun pos => (quiet_byteAt pos).bind fun b => ?_
  split
  · exact quiet_position.bind fun pos => (quiet_add pos 1).bind fun i =>
      (quiet_byteAt i).bind fun next => quiet_conclude _
  · exact quiet_conclude _

theorem quiet_lineFrom (start bound : ℕ) : Quiet (lineFrom start bound) := by
  induction bound with
  | zero => exact quiet_conclude _
  | succ bound ih =>
    refine quiet_position.bind fun pos => (quiet_add pos 1).bind fun next =>
      quiet_buffer.bind fun buf => ?_
    split
    · refine quiet_atCrlf.bind fun ending => ?_
      split
      · exact quiet_position.bind fun pos => (quiet_range start pos).bind fun text =>
          quiet_position.bind fun pos => (quiet_add pos 2).bind fun target =>
            (quiet_seek target).bind fun _ => quiet_conclude _
      · exact quiet_position.bind fun pos => (quiet_add pos 1).bind fun target =>
          (quiet_seek target).bind fun _ => ih
    · exact quiet_conclude _

theorem quiet_line : Quiet line :=
  quiet_position.bind fun start => quiet_buffer.bind fun _ => quiet_lineFrom start _

/-- An inline command goes back to the byte that was taken for a tag, and takes it with its line. -/
theorem tracks_parseInline {tag : UInt8} (hlimit : buf.length ≤ Frame.isizeMax)
    (htag : buf[pos]? = some tag) :
    Tracks buf (pos + 1) (parseInline buf (pos + 1))
      (Scanner.unread tag Frame.parseInline (buf.drop (pos + 1))) := by
  obtain ⟨hlt, rfl⟩ := List.getElem?_eq_some_iff.mp htag
  let words : List UInt8 → Frame := fun text =>
    .array (((text.splitOn (byte ' ')).filter (· ≠ [])).map .bulk)
  -- what is read from the position of the tag on, with the line that the parser of the bytes finds
  have hline : Tracks buf pos ((line >>= fun text => pure (words text)) buf pos)
      (Frame.parseInline (buf.drop pos)) :=
    (follows_line.bind fun text => follows_pure (words text)) hlimit hlt.le (Nat.le_add_left _ pos)
  have hquiet : Quiet (line >>= fun text => pure (words text)) :=
    quiet_line.bind fun text => quiet_conclude _
  have hconsumes : Consumes 2 Frame.parseInline :=
    consumes_line.bind_zero fun text => consumes_pure _
  have htakes : ∀ frame rest, Frame.parseInline (buf.drop pos) = .done frame rest →
      rest.length < (buf.drop pos).length := by
    intro frame rest hdone
    have hle := hconsumes.length_le hdone
    omega
  have hback : sub (pos + 1) 1 buf (pos + 1) = ⟨.ok pos, pos + 1, 0, 0⟩ := by
    rw [sub, if_pos (Nat.le_add_left 1 pos)]
    rfl
  rw [Scanner.unread, ← List.drop_eq_getElem_cons hlt, parseInline, bind_of_look rfl,
    bind_of_look hback]
  rw [Reader.bind_of_ok (rfl : seek pos buf (pos + 1) = ⟨.ok (), pos, pos, 0⟩)]
  exact (hline.succ (hquiet buf pos) hlt htakes).after hlt.le (Nat.le_refl _)

/-- Behind the first byte, which is taken for a tag. -/
theorem tracks_parseTagged (hr : Follows Frame.isizeMax room r p) {tag : UInt8}
    (hlimit : buf.length ≤ Frame.isizeMax) (htag : buf[pos]? = some tag)
    (hroom : buf.length ≤ pos + 1 + room) :
    Tracks buf (pos + 1) (parseTagged frameSize r tag buf (pos + 1))
      (Frame.parseTagged frameSize p tag (buf.drop (pos + 1))) := by
  have hlt : pos + 1 ≤ buf.length := (List.getElem?_eq_some_iff.mp htag).1
  unfold parseTagged Frame.parseTagged
  split_ifs with hsimple herror hinteger hbulk harray
  · exact (follows_readString.bind fun text => follows_pure _) hlimit hlt hroom
  · exact (follows_readString.bind fun text => follows_pure _) hlimit hlt hroom
  · exact (follows_line.bind fun text => (follows_parseInt text).bind fun n => follows_pure _)
      hlimit hlt hroom
  · exact follows_parseBulk hlimit hlt hroom
  · exact follows_parseArray hr hlimit hlt hroom
  · exact tracks_parseInline hlimit htag

/-- **The parser at a position does what the parser of the bytes does**, if it may call itself once
more than there are bytes. -/
theorem follows_parse {bound : ℕ} (hbound : room < bound) :
    Follows Frame.isizeMax room (parse frameSize bound) (Frame.parseFrame frameSize) := by
  induction bound generalizing room with
  | zero => omega
  | succ bound ih =>
    intro buf pos hlimit hpos hroom
    have hcall : call buf pos = (⟨.ok (), pos, 0, 1⟩ : Reading ParseError Unit) := rfl
    rw [parse, Reader.bind_of_ok hcall]
    cases htag : buf[pos]? with
    | none =>
      -- the call that finds nothing is the last one
      have hle : buf.length ≤ pos := List.getElem?_eq_none_iff.mp htag
      rw [Reader.bind_apply, u8_of_le hle, List.drop_eq_nil_of_le hle]
      exact Tracks.short hpos (Nat.zero_le _) (Nat.succ_le_succ hpos)
    | some tag =>
      obtain ⟨hlt, hget⟩ := List.getElem?_eq_some_iff.mp htag
      have hitems : Follows Frame.isizeMax (room - 1) (parse frameSize bound)
        (Frame.parseFrame frameSize) := ih (by omega)
      have htagged : Tracks buf (pos + 1)
          (parseTagged frameSize (parse frameSize bound) tag buf (pos + 1))
          (Frame.parseTagged frameSize (Frame.parseFrame frameSize) tag (buf.drop (pos + 1))) :=
        tracks_parseTagged hitems hlimit htag (by omega)
      rw [Reader.bind_of_ok (u8_of_lt hlimit htag), List.drop_eq_getElem_cons hlt, hget,
        Frame.parseFrame_cons]
      -- the call is paid for by the tag
      exact (htagged.after hlt (Nat.le_refl (pos + 1 + 0))).after (Nat.zero_le _)
        (Nat.le_refl (pos + 1))

/-! ### The decoder -/

/-- What the decoder does with the buffer, in terms of what it finds in the bytes. -/
def verdictOf : Outcome UInt8 Frame.Fault Frame → Verdict Frame.Fault (Frame × List UInt8)
  | .done frame rest => .ok (frame, rest)
  | .more => .short
  | .fail fault => .fault fault

/-- **The decoder of the source is the decoder of the bytes**: it neither runs out of calls nor has
another reason to panic. -/
theorem decode_eq (frameSize : ℕ) (src : Buffer) :
    decode frameSize src = verdictOf (Frame.decode frameSize src.bytes) := by
  have hparse : Tracks src.bytes 0 (parse frameSize (src.bytes.length + 1) src.bytes 0)
      (Frame.parseFrame frameSize (src.bytes.drop 0)) :=
    follows_parse (Nat.lt_succ_self src.bytes.length) src.length_le (Nat.zero_le _)
      (Nat.le_add_left _ _)
  rw [List.drop_zero] at hparse
  unfold decode Frame.decode Scanner.mapError
  generalize parse frameSize (src.bytes.length + 1) src.bytes 0 = reading at hparse
  generalize Frame.parseFrame frameSize src.bytes = outcome at hparse
  cases hparse with
  | ok hpos _ _ => exact if_pos hpos
  | short _ _ _ => rfl
  | fault _ _ _ => rfl

/-- **When the decoder panics**: where it comes to an array that is too large to reserve. Otherwise
it returns a frame, asks for more bytes or returns an error. -/
theorem decode_panics_iff (frameSize : ℕ) (src : Buffer) :
    (decode frameSize src = .fault .panic ↔ Frame.Overcommits frameSize src.bytes) ∧
      (¬Frame.Overcommits frameSize src.bytes →
        (∃ frame rest, decode frameSize src = .ok (frame, rest)) ∨
          decode frameSize src = .short ∨
          ∃ error, decode frameSize src = .fault (.error error)) := by
  rw [← Frame.decode_eq_panic_iff, decode_eq]
  cases Frame.decode frameSize src.bytes with
  | done frame rest => exact ⟨by simp [verdictOf], fun _ => Or.inl ⟨frame, rest, rfl⟩⟩
  | more => exact ⟨by simp [verdictOf], fun _ => Or.inr (Or.inl rfl)⟩
  | fail fault =>
    cases fault with
    | error error => exact ⟨by simp [verdictOf], fun _ => Or.inr (Or.inr ⟨error, rfl⟩)⟩
    | panic => exact ⟨by simp [verdictOf], fun hno => absurd rfl hno⟩

/-- The largest count that an array can announce, and nothing behind it. -/
def largestArray : Buffer where
  bytes := byte '*' :: (asBytes "9223372036854775807" ++ crlf)
  length_le := by decide +kernel

/-- The count alone makes the decoder panic, whatever the size of a frame is, from two bytes on. -/
theorem decode_largestArray_of_le {frameSize : ℕ} (hsize : 2 ≤ frameSize) :
    decode frameSize largestArray = .fault .panic := by
  have hnumeral : Numeral (asBytes "9223372036854775807") 9223372036854775807 :=
    i64FromStr_eq_some_iff_numeral.mp (by decide +kernel)
  have hvalue : (9223372036854775807 : Int64).toInt.toNat = Frame.isizeMax := by decide
  have hover : Frame.Overcommits frameSize largestArray.bytes := by
    have hmemory : Frame.isizeMax < (9223372036854775807 : Int64).toInt.toNat * frameSize := by
      rw [hvalue]
      unfold Frame.isizeMax
      omega
    have hhere : Frame.Overcommits frameSize
        (byte '*' :: (asBytes "9223372036854775807" ++ crlf ++ [])) :=
      Frame.Overcommits.here hnumeral (by decide) hmemory
    rw [List.append_nil] at hhere
    exact hhere
  rw [decode_eq, Frame.decode_eq_panic_iff.mpr hover]
  rfl

/-- Twenty-two bytes of a client make the task panic, with frames of 32 bytes. -/
theorem decode_largestArray : decode 32 largestArray = .fault .panic :=
  decode_largestArray_of_le (by decide)

/-! ### The parser ends -/

/-- **The parser ends within the buffer.** From every position, with a bound on its recursion that
leaves one call for every byte behind the position and one more, it does not reach the bound, the
cursor does not pass the end of the buffer, a frame takes two bytes at least, and all calls together
are at most one more than the bytes of the buffer. -/
theorem parse_ends (frameSize : ℕ) (src : Buffer) {pos bound : ℕ} (hpos : pos ≤ src.bytes.length)
    (hbound : src.bytes.length < pos + bound) :
    (parse frameSize bound src.bytes pos).verdict ≠ .exhausted ∧
      (parse frameSize bound src.bytes pos).pos ≤ src.bytes.length ∧
      (parse frameSize bound src.bytes pos).reach ≤ src.bytes.length ∧
      (∀ frame, (parse frameSize bound src.bytes pos).verdict = .ok frame →
        pos + 2 ≤ (parse frameSize bound src.bytes pos).pos) ∧
      (parse frameSize bound src.bytes pos).calls ≤ src.bytes.length + 1 := by
  have hparse : Tracks src.bytes pos (parse frameSize bound src.bytes pos)
      (Frame.parseFrame frameSize (src.bytes.drop pos)) :=
    follows_parse (by omega : src.bytes.length - pos < bound) src.length_le hpos (by omega)
  have hconsumes : ∀ frame rest, Frame.parseFrame frameSize (src.bytes.drop pos) =
      .done frame rest → rest.length + 2 ≤ (src.bytes.drop pos).length :=
    fun frame rest h => (Frame.consumes_parseFrame frameSize).length_le h
  generalize parse frameSize bound src.bytes pos = reading at hparse
  generalize Frame.parseFrame frameSize (src.bytes.drop pos) = outcome at hparse hconsumes
  cases hparse with
  | @ok frame pos' reach calls hpos' hreach hcalls =>
    have htaken := hconsumes frame _ rfl
    rw [List.length_drop, List.length_drop] at htaken
    refine ⟨by simp, hpos', hreach, fun _ _ => ?_, ?_⟩
    · dsimp only
      omega
    · dsimp only
      omega
  | short hpos' hreach hcalls =>
    refine ⟨by simp, hpos', hreach, fun frame h => (by cases h), ?_⟩
    dsimp only
    omega
  | fault hpos' hreach hcalls =>
    refine ⟨by simp, hpos', hreach, fun frame h => (by cases h), ?_⟩
    dsimp only
    omega

/-- An array of nine, of which one is there, and that one is an array again. -/
def openArray : Buffer where
  bytes := asBytes "*9\r\n*1\r\n:+5\r\n"
  length_le := by decide +kernel

theorem parse_openArray_ends :
    openArray.bytes.length < 4 + 10 ∧
      (parse 40 10 openArray.bytes 4).verdict ≠ .exhausted ∧
      (parse 40 10 openArray.bytes 4).pos ≤ openArray.bytes.length ∧
      (parse 40 10 openArray.bytes 4).reach ≤ openArray.bytes.length ∧
      (∀ frame, (parse 40 10 openArray.bytes 4).verdict = .ok frame →
        4 + 2 ≤ (parse 40 10 openArray.bytes 4).pos) ∧
      (parse 40 10 openArray.bytes 4).calls ≤ openArray.bytes.length + 1 := by
  have hlength : openArray.bytes.length = 13 := by decide +kernel
  have hbound : openArray.bytes.length < 4 + 10 := by omega
  exact ⟨hbound, parse_ends 40 openArray (by omega) hbound⟩

end Cursor

end Ferrium
