import Ferrium.Protocol.Resp
import Mathlib.Data.List.TakeWhile
import Mathlib.Data.Nat.Digits.Defs

/-!
# The grammar of the decoder

What the decoder accepts, as a grammar that does not mention it: which bytes derive a frame. A line
ends at its first CRLF, the data of a bulk string may contain any bytes, and an array is followed by
as many derivable frames as it announces.

The decoder is held to the grammar in both directions. The only frames of the grammar that it does
not return are those with an array for which it cannot reserve the memory; these are no values of
the source, as a `Vec` of this size does not exist. The parser panics there, and there only.

## Main results

* `Frame.reads_parse`: the bytes that are taken for a frame derive it;
* `Frame.Derives.parseFrame`: bytes that derive a frame are parsed to it, unless memory for an array
  cannot be reserved;
* `Frame.decode_iff_derives`: the decoder accepts the grammar, which is unambiguous;
* `Frame.parseFrame_eq_panic_iff`: when the parser panics.
-/

namespace Ferrium

open Incremental Scanner

/-! ### Numerals -/

/-- A sequence of ASCII digits. -/
def AllDigits (digits : List UInt8) : Prop :=
  ∀ b ∈ digits, byte '0' ≤ b ∧ b ≤ byte '9'

/-- The number that a sequence of digits denotes. -/
def decimal (digits : List UInt8) : ℕ :=
  Nat.ofDigits 10 (digits.reverse.map fun b => b.toNat - 48)

/-- An optional sign and at least one digit, with a value that is an `i64`. -/
inductive Numeral : List UInt8 → Int64 → Prop
  | plain {digits : List UInt8} {n : Int64} :
      digits ≠ [] → AllDigits digits → n.toInt = decimal digits → Numeral digits n
  | plus {digits : List UInt8} {n : Int64} :
      digits ≠ [] → AllDigits digits → n.toInt = decimal digits → Numeral (byte '+' :: digits) n
  | minus {digits : List UInt8} {n : Int64} :
      digits ≠ [] → AllDigits digits → n.toInt = -decimal digits → Numeral (byte '-' :: digits) n

theorem allDigits_cons {b : UInt8} {digits : List UInt8} :
    AllDigits (b :: digits) ↔ (byte '0' ≤ b ∧ b ≤ byte '9') ∧ AllDigits digits :=
  List.forall_mem_cons

/-- The first digit counts for as many powers of ten as there are digits behind it. -/
theorem decimal_cons (b : UInt8) (digits : List UInt8) :
    decimal (b :: digits) = (b.toNat - 48) * 10 ^ digits.length + decimal digits := by
  simp only [decimal, List.reverse_cons, List.map_append, List.map_cons, List.map_nil,
    Nat.ofDigits_append, Nat.ofDigits_singleton, List.length_map, List.length_reverse]
  ring

/-- Reading digits succeeds on digits, and finds the number that they denote. -/
theorem digitsValue_eq_some {digits : List UInt8} {acc v : ℕ} :
    digitsValue digits acc = some v ↔
      AllDigits digits ∧ v = acc * 10 ^ digits.length + decimal digits := by
  induction digits generalizing acc with
  | nil =>
    simp only [digitsValue, Option.some.injEq, AllDigits, decimal, List.not_mem_nil,
      List.reverse_nil, List.map_nil, Nat.ofDigits_nil, List.length_nil, pow_zero, mul_one,
      Nat.add_zero, IsEmpty.forall_iff, implies_true, true_and]
    exact eq_comm
  | cons b digits ih =>
    rw [digitsValue, allDigits_cons, decimal_cons, List.length_cons, pow_succ]
    by_cases hdigit : byte '0' ≤ b ∧ b ≤ byte '9'
    · rw [if_pos hdigit, ih]
      refine and_congr ⟨fun h => ⟨hdigit, h⟩, And.right⟩ ?_
      rw [show (10 * acc + (b.toNat - 48)) * 10 ^ digits.length + decimal digits =
        acc * (10 ^ digits.length * 10) +
          ((b.toNat - 48) * 10 ^ digits.length + decimal digits) by ring]
    · rw [if_neg hdigit]
      exact ⟨fun h => (by cases h), fun h => absurd h.1.1 hdigit⟩

theorem unsigned_eq_some {digits : List UInt8} {v : ℕ} :
    unsigned digits = some v ↔ digits ≠ [] ∧ AllDigits digits ∧ v = decimal digits := by
  unfold unsigned
  by_cases hnil : digits = []
  · rw [if_pos hnil]
    exact ⟨fun h => (by cases h), fun h => absurd hnil h.1⟩
  · rw [if_neg hnil, digitsValue_eq_some, Nat.zero_mul, Nat.zero_add]
    exact ⟨fun h => ⟨hnil, h⟩, And.right⟩

/-- Parsing an `i64` is reading a number whose value is an `i64`. -/
theorem i64FromStr_eq_some {text : List UInt8} {n : Int64} :
    i64FromStr text = some n ↔ signed text = some n.toInt := by
  have hlo := n.le_toInt
  have hhi := n.toInt_lt
  have hmin : Int64.minValue.toInt = -2 ^ 63 := by decide
  have hmax : Int64.maxValue.toInt = 2 ^ 63 - 1 := by decide
  unfold i64FromStr
  cases hsigned : signed text with
  | none => simp
  | some z =>
    rw [Option.some.injEq]
    dsimp only
    by_cases hrange : Int64.minValue.toInt ≤ z ∧ z ≤ Int64.maxValue.toInt
    · rw [if_pos hrange, Option.some.injEq]
      constructor
      · rintro rfl
        exact (Int64.toInt_ofInt_of_le (by omega) (by omega)).symm
      · rintro rfl
        exact Int64.ofInt_toInt n
    · rw [if_neg hrange]
      refine ⟨fun h => (by cases h), ?_⟩
      rintro rfl
      exact absurd ⟨by omega, by omega⟩ hrange

/-! The three ways to write a number: with a plus sign, with a minus sign, and without a sign. -/

theorem signed_plus_eq_some {digits : List UInt8} {z : ℤ} :
    signed (byte '+' :: digits) = some z ↔ ∃ v : ℕ, unsigned digits = some v ∧ z = v := by
  rw [signed, if_pos rfl]
  cases unsigned digits with
  | none => simp
  | some v => simp [eq_comm]

theorem signed_minus_eq_some {digits : List UInt8} {z : ℤ} :
    signed (byte '-' :: digits) = some z ↔ ∃ v : ℕ, unsigned digits = some v ∧ z = -v := by
  rw [signed, if_neg (by decide), if_pos rfl]
  cases unsigned digits with
  | none => simp
  | some v => simp [eq_comm]

theorem signed_cons_eq_some {b : UInt8} {digits : List UInt8} {z : ℤ} (hplus : b ≠ byte '+')
    (hminus : b ≠ byte '-') :
    signed (b :: digits) = some z ↔ ∃ v : ℕ, unsigned (b :: digits) = some v ∧ z = v := by
  rw [signed, if_neg hplus, if_neg hminus]
  cases unsigned (b :: digits) with
  | none => simp
  | some v => simp [eq_comm]

/-- **Numerals are what is parsed as an `i64`.** -/
theorem i64FromStr_eq_some_iff_numeral {text : List UInt8} {n : Int64} :
    i64FromStr text = some n ↔ Numeral text n := by
  rw [i64FromStr_eq_some]
  constructor
  · intro h
    cases text with
    | nil => cases h
    | cons b digits =>
      by_cases hplus : b = byte '+'
      · subst hplus
        obtain ⟨v, hv, heq⟩ := signed_plus_eq_some.mp h
        obtain ⟨hne, hdigits, rfl⟩ := unsigned_eq_some.mp hv
        exact Numeral.plus hne hdigits heq
      · by_cases hminus : b = byte '-'
        · subst hminus
          obtain ⟨v, hv, heq⟩ := signed_minus_eq_some.mp h
          obtain ⟨hne, hdigits, rfl⟩ := unsigned_eq_some.mp hv
          exact Numeral.minus hne hdigits heq
        · obtain ⟨v, hv, heq⟩ := (signed_cons_eq_some hplus hminus).mp h
          obtain ⟨hne, hdigits, rfl⟩ := unsigned_eq_some.mp hv
          exact Numeral.plain hne hdigits heq
  · intro h
    cases h with
    | plain hne hdigits hvalue =>
      cases text with
      | nil => exact absurd rfl hne
      | cons b digits =>
        -- a digit is none of the two signs
        obtain ⟨hlo, -⟩ := (allDigits_cons.mp hdigits).1
        have hplus : b ≠ byte '+' := by
          rintro rfl
          exact absurd hlo (by decide)
        have hminus : b ≠ byte '-' := by
          rintro rfl
          exact absurd hlo (by decide)
        exact (signed_cons_eq_some hplus hminus).mpr
          ⟨_, unsigned_eq_some.mpr ⟨hne, hdigits, rfl⟩, hvalue⟩
    | plus hne hdigits hvalue =>
      exact signed_plus_eq_some.mpr ⟨_, unsigned_eq_some.mpr ⟨hne, hdigits, rfl⟩, hvalue⟩
    | minus hne hdigits hvalue =>
      exact signed_minus_eq_some.mpr ⟨_, unsigned_eq_some.mpr ⟨hne, hdigits, rfl⟩, hvalue⟩

/-- The bytes of a numeral are digits and signs. -/
theorem Numeral.mem {text : List UInt8} {n : Int64} (h : Numeral text n) {b : UInt8}
    (hb : b ∈ text) : 43 ≤ b.toNat ∧ b.toNat ≤ 57 := by
  have hdigit : ∀ digits : List UInt8, AllDigits digits → b ∈ digits →
      43 ≤ b.toNat ∧ b.toNat ≤ 57 := by
    intro digits hdigits hmem
    obtain ⟨hlo, hhi⟩ := hdigits b hmem
    rw [UInt8.le_iff_toNat_le] at hlo hhi
    have hzero : (byte '0').toNat = 48 := by decide
    have hnine : (byte '9').toNat = 57 := by decide
    omega
  cases h with
  | plain _ hdigits _ => exact hdigit _ hdigits hb
  | plus _ hdigits _ =>
    rcases List.mem_cons.mp hb with rfl | hmem
    · decide
    · exact hdigit _ hdigits hmem
  | minus _ hdigits _ =>
    rcases List.mem_cons.mp hb with rfl | hmem
    · decide
    · exact hdigit _ hdigits hmem

theorem Numeral.not_hasCrlf {text : List UInt8} {n : Int64} (h : Numeral text n) :
    ¬HasCrlf text := by
  intro hcrlf
  have hmem : byte '\r' ∈ text := hcrlf.subset List.mem_cons_self
  exact absurd (h.mem hmem).1 (by decide)

/-- Bytes of the ASCII range are text. -/
theorem exists_asBytes_of_lt {bytes : List UInt8} (h : ∀ b ∈ bytes, b.toNat < 128) :
    ∃ s, asBytes s = bytes := by
  have hchar : ∀ b ∈ bytes, (Char.ofNat b.toNat).toNat = b.toNat := by
    intro b hb
    have hvalid : b.toNat.isValidChar := Or.inl ((h b hb).trans (by decide))
    have hofNat : Char.ofNat b.toNat = Char.ofNatAux b.toNat hvalid := dif_pos hvalid
    exact congrArg Char.toNat hofNat
  refine ⟨String.ofList (bytes.map fun b => Char.ofNat b.toNat), ?_⟩
  rw [asBytes_ofList_of_lt, List.map_map]
  · refine (List.map_congr_left fun b hb => ?_).trans bytes.map_id
    rw [Function.comp_apply, byte, hchar b hb, UInt8.ofNat_toNat, id]
  · intro c hc
    obtain ⟨b, hb, rfl⟩ := List.mem_map.mp hc
    rw [hchar b hb]
    exact h b hb

theorem parseInt_eq_done {text input rest : List UInt8} {n : Int64} :
    parseInt text input = .done n rest ↔ Numeral text n ∧ input = rest := by
  rw [← i64FromStr_eq_some_iff_numeral]
  unfold parseInt
  constructor
  · intro h
    cases hread : (fromUtf8 text).bind fun _ => i64FromStr text with
    | none =>
      rw [hread] at h
      cases h
    | some n' =>
      rw [hread] at h
      obtain ⟨rfl, rfl⟩ := Outcome.done.inj h
      obtain ⟨s, -, hi64⟩ := Option.bind_eq_some_iff.mp hread
      exact ⟨hi64, rfl⟩
  · rintro ⟨hi64, rfl⟩
    have hnumeral := i64FromStr_eq_some_iff_numeral.mp hi64
    obtain ⟨s, hs⟩ := exists_asBytes_of_lt fun b hb =>
      (hnumeral.mem hb).2.trans_lt (by decide : 57 < 128)
    rw [fromUtf8_eq_some.mpr hs, Option.bind_some, hi64]
    rfl

/-- A text that is no number makes the connection fail, and does not make the task panic. -/
theorem avoids_parseInt (text : List UInt8) : Avoids .panic (parseInt text) := by
  unfold parseInt
  cases (fromUtf8 text).bind fun _ => i64FromStr text with
  | none => exact avoids_fail (by simp)
  | some n => exact avoids_pure n

/-! ### The words of a line -/

/-- A line that consists of the given words: non-empty runs of bytes other than the space, each as
long as possible, with one or more spaces between them and any number in front and behind. -/
inductive Spaced : List UInt8 → List (List UInt8) → Prop
  | blank {gap : List UInt8} : (∀ b ∈ gap, b = byte ' ') → Spaced gap []
  | word {gap w rest : List UInt8} {words : List (List UInt8)} :
      (∀ b ∈ gap, b = byte ' ') → w ≠ [] → byte ' ' ∉ w →
      (∀ b ∈ rest.head?, b = byte ' ') → Spaced rest words → Spaced (gap ++ w ++ rest) (w :: words)

/-- What the parser makes of a line: split at the spaces, without what is empty. -/
def wordsOf (text : List UInt8) : List (List UInt8) :=
  (text.splitOn (byte ' ')).filter (· ≠ [])

/-- A space in the middle separates words. -/
theorem wordsOf_append_space (front back : List UInt8) :
    wordsOf (front ++ byte ' ' :: back) = wordsOf front ++ wordsOf back := by
  rw [wordsOf, List.splitOn_append_cons_self, List.filter_append]
  rfl

theorem wordsOf_gap_append {gap : List UInt8} (h : ∀ b ∈ gap, b = byte ' ') (text : List UInt8) :
    wordsOf (gap ++ text) = wordsOf text := by
  induction gap with
  | nil => rfl
  | cons b gap ih =>
    obtain ⟨rfl, hgap⟩ := List.forall_mem_cons.mp h
    calc wordsOf (byte ' ' :: (gap ++ text))
        = wordsOf [] ++ wordsOf (gap ++ text) := wordsOf_append_space [] (gap ++ text)
      _ = wordsOf text := ih hgap

theorem wordsOf_word {w : List UInt8} (hne : w ≠ []) (hspace : byte ' ' ∉ w) :
    wordsOf w = [w] := by
  rw [wordsOf, List.splitOn_eq_singleton hspace]
  exact List.filter_cons_of_pos (decide_eq_true hne)

/-- The parser finds the words of a line. -/
theorem Spaced.wordsOf_eq {text : List UInt8} {words : List (List UInt8)}
    (h : Spaced text words) : wordsOf text = words := by
  induction h with
  | @blank gap hgap =>
    have hwords := wordsOf_gap_append hgap []
    rw [List.append_nil] at hwords
    exact hwords
  | @word gap w rest words hgap hne hspace hrest _ ih =>
    rw [List.append_assoc, wordsOf_gap_append hgap]
    cases rest with
    | nil =>
      rw [List.append_nil, wordsOf_word hne hspace, ← ih]
      rfl
    | cons b rest =>
      obtain rfl := hrest b rfl
      rw [wordsOf_append_space, wordsOf_word hne hspace, ← ih]
      exact congrArg ([w] ++ ·) (wordsOf_append_space [] rest).symm

/-- A list starts with a run of elements that satisfy `p`, and does not go on with one. -/
theorem exists_run {α : Type} (p : α → Bool) (l : List α) :
    ∃ run rest, l = run ++ rest ∧ (∀ a ∈ run, p a) ∧ ∀ a ∈ rest.head?, ¬p a := by
  refine ⟨l.takeWhile p, l.dropWhile p, List.takeWhile_append_dropWhile.symm,
    fun a ha => List.mem_takeWhile_imp ha, fun a ha => ?_⟩
  have hhead := List.head?_dropWhile_not p l
  rw [Option.mem_def.mp ha] at hhead
  simpa using hhead

/-- Every line consists of words. -/
theorem exists_spaced (text : List UInt8) : ∃ words, Spaced text words := by
  induction hn : text.length using Nat.strong_induction_on generalizing text with
  | _ n ih =>
    -- the spaces in front, the first word, and the rest of the line
    obtain ⟨gap, tail, htext, hgap, htail⟩ := exists_run (· = byte ' ') text
    obtain ⟨w, rest, rfl, hw, hrest⟩ := exists_run (· ≠ byte ' ') tail
    simp only [decide_eq_true_eq, not_not, ne_eq] at hgap htail hw hrest
    cases w with
    | nil =>
      cases rest with
      | nil =>
        rw [List.append_nil, List.append_nil] at htext
        exact ⟨[], htext ▸ Spaced.blank hgap⟩
      | cons b rest => exact absurd (hrest b rfl) (htail b rfl)
    | cons b w =>
      have hlen : rest.length < n := by
        rw [← hn, htext]
        simp only [List.length_append, List.length_cons]
        omega
      obtain ⟨words, hwords⟩ := ih rest.length hlen rest rfl
      refine ⟨(b :: w) :: words, ?_⟩
      rw [htext, ← List.append_assoc]
      exact Spaced.word hgap (List.cons_ne_nil b w) (fun hmem => hw _ hmem rfl) hrest hwords

theorem spaced_wordsOf (text : List UInt8) : Spaced text (wordsOf text) := by
  obtain ⟨words, hwords⟩ := exists_spaced text
  rw [hwords.wordsOf_eq]
  exact hwords

namespace Frame

/-! ### The grammar -/

/-- The bytes that a frame other than an inline command starts with. -/
def tags : List UInt8 :=
  [byte '+', byte '-', byte ':', byte '$', byte '*']

/-- The bytes derive the frame. -/
inductive Derives : List UInt8 → Frame → Prop
  | simple {text : String} : ¬HasCrlf (asBytes text) →
      Derives (byte '+' :: (asBytes text ++ crlf)) (.simple text)
  | error {text : String} : ¬HasCrlf (asBytes text) →
      Derives (byte '-' :: (asBytes text ++ crlf)) (.error text)
  | integer {digits : List UInt8} {n : Int64} : Numeral digits n →
      Derives (byte ':' :: (digits ++ crlf)) (.integer n)
  | bulk {digits data : List UInt8} {n : Int64} : Numeral digits n → n.toInt = data.length →
      Derives (byte '$' :: (digits ++ crlf ++ (data ++ crlf))) (.bulk data)
  | nullBulk {digits : List UInt8} {n : Int64} : Numeral digits n → n.toInt < 0 →
      Derives (byte '$' :: (digits ++ crlf)) .null
  | nullArray {digits : List UInt8} {n : Int64} : Numeral digits n → n.toInt < 0 →
      Derives (byte '*' :: (digits ++ crlf)) .null
  /-- As many frames as are announced, each with the bytes that derive it. -/
  | array {digits : List UInt8} {n : Int64} {parts : List (List UInt8 × Frame)} :
      Numeral digits n → n.toInt = parts.length → (∀ part ∈ parts, Derives part.1 part.2) →
      Derives (byte '*' :: (digits ++ crlf ++ parts.flatMap Prod.fst)) (.array (parts.map Prod.snd))
  | inline {text : List UInt8} {words : List (List UInt8)} :
      (∀ b ∈ (text ++ crlf).head?, b ∉ tags) → ¬HasCrlf text → Spaced text words →
      Derives (text ++ crlf) (.array (words.map .bulk))

variable {frameSize : ℕ} {p : Scanner UInt8 ParseError Frame} {input rest : List UInt8}

/-! ### Lines with a number -/

/-- Read a line with a number, and go on behind it. -/
theorem number_eq_done {f : Int64 → Scanner UInt8 ParseError Frame} {frame : Frame} :
    (line >>= fun text => parseInt text >>= f) input = .done frame rest ↔
      ∃ digits n middle, input = digits ++ crlf ++ middle ∧ Numeral digits n ∧
        f n middle = .done frame rest := by
  constructor
  · intro h
    obtain ⟨digits, middle, hline, hnumber⟩ := bind_eq_done.mp h
    obtain ⟨n, middle', hn, hf⟩ := bind_eq_done.mp hnumber
    obtain ⟨hnumeral, rfl⟩ := parseInt_eq_done.mp hn
    exact ⟨digits, n, middle, (line_eq_done.mp hline).1, hnumeral, hf⟩
  · rintro ⟨digits, n, middle, rfl, hnumeral, hf⟩
    rw [bind_of_done (line_append_crlf hnumeral.not_hasCrlf middle),
      bind_of_done (parseInt_eq_done.mpr ⟨hnumeral, rfl⟩), hf]

theorem number_of_numeral {digits : List UInt8} {n : Int64} (h : Numeral digits n)
    (f : Int64 → Scanner UInt8 ParseError Frame) (rest : List UInt8) :
    (line >>= fun text => parseInt text >>= f) (digits ++ crlf ++ rest) = f n rest := by
  rw [bind_of_done (line_append_crlf h.not_hasCrlf rest),
    bind_of_done (parseInt_eq_done.mpr ⟨h, rfl⟩)]

/-! ### What is parsed derives the frame -/

theorem readString_asBytes {text : String} (h : ¬HasCrlf (asBytes text)) (rest : List UInt8) :
    readString (asBytes text ++ crlf ++ rest) = .done text rest := by
  unfold readString
  rw [bind_of_done (line_append_crlf h rest), fromUtf8_eq_some.mpr rfl]
  rfl

theorem readString_eq_done {text : String} :
    readString input = .done text rest ↔
      input = asBytes text ++ crlf ++ rest ∧ ¬HasCrlf (asBytes text) := by
  constructor
  · intro h
    obtain ⟨bytes, middle, hline, htext⟩ := bind_eq_done.mp h
    obtain ⟨rfl, hcrlf⟩ := line_eq_done.mp hline
    cases hread : fromUtf8 bytes with
    | none =>
      rw [hread] at htext
      cases htext
    | some s =>
      rw [hread] at htext
      obtain ⟨rfl, rfl⟩ := Outcome.done.inj htext
      obtain rfl := fromUtf8_eq_some.mp hread
      exact ⟨rfl, hcrlf⟩
  · rintro ⟨rfl, hcrlf⟩
    exact readString_asBytes hcrlf rest

theorem reads_parseBulk :
    Reads (fun used frame => Derives (byte '$' :: used) frame) parseBulk := by
  intro input frame rest h
  obtain ⟨digits, n, middle, rfl, hnumeral, hbehind⟩ := number_eq_done.mp h
  by_cases hneg : n.toInt < 0
  · rw [if_pos hneg] at hbehind
    obtain ⟨rfl, rfl⟩ := Outcome.done.inj hbehind
    exact ⟨digits ++ crlf, rfl, Derives.nullBulk hnumeral hneg⟩
  · rw [if_neg hneg] at hbehind
    obtain ⟨data, middle', hdata, hending⟩ := bind_eq_done.mp hbehind
    obtain ⟨rfl, hlength⟩ := take_eq_done.mp hdata
    obtain ⟨ending, middle'', htwo, hlast⟩ := bind_eq_done.mp hending
    obtain ⟨rfl, -⟩ := take_eq_done.mp htwo
    by_cases hcrlf : ending = crlf
    · subst hcrlf
      rw [if_neg (not_not.mpr rfl)] at hlast
      obtain ⟨rfl, rfl⟩ := Outcome.done.inj hlast
      refine ⟨digits ++ crlf ++ (data ++ crlf), ?_, Derives.bulk hnumeral (by omega)⟩
      simp only [List.append_assoc]
    · rw [if_pos hcrlf] at hlast
      cases hlast

theorem reads_parseArray (hp : Reads Derives p) :
    Reads (fun used frame => Derives (byte '*' :: used) frame) (parseArray frameSize p) := by
  intro input frame rest h
  obtain ⟨digits, n, middle, rfl, hnumeral, hbehind⟩ := number_eq_done.mp h
  by_cases hneg : n.toInt < 0
  · rw [if_pos hneg] at hbehind
    obtain ⟨rfl, rfl⟩ := Outcome.done.inj hbehind
    exact ⟨digits ++ crlf, rfl, Derives.nullArray hnumeral hneg⟩
  · rw [if_neg hneg] at hbehind
    by_cases hmemory : isizeMax < n.toInt.toNat * frameSize
    · rw [if_pos hmemory] at hbehind
      cases hbehind
    · rw [if_neg hmemory] at hbehind
      obtain ⟨items, middle', hitems, hpure⟩ := bind_eq_done.mp hbehind
      obtain ⟨rfl, rfl⟩ := Outcome.done.inj hpure
      obtain ⟨parts, hlength, rfl, rfl, hparts⟩ := hp.times hitems
      refine ⟨digits ++ crlf ++ parts.flatMap Prod.fst, ?_,
        Derives.array hnumeral (by omega) hparts⟩
      rw [List.append_assoc _ (parts.flatMap Prod.fst)]

/-- The tag of an inline command is the first byte of its line. -/
theorem reads_parseInline {tag : UInt8} (htag : tag ∉ tags) :
    Reads (fun used frame => Derives (tag :: used) frame) (unread tag parseInline) := by
  intro input frame rest h
  obtain ⟨text, middle, hline, hpure⟩ := bind_eq_done.mp h
  obtain ⟨rfl, rfl⟩ := Outcome.done.inj hpure
  obtain ⟨hinput, hcrlf⟩ := line_eq_done.mp hline
  obtain ⟨used, hused⟩ : ∃ used, text ++ crlf = tag :: used := by
    cases text with
    | nil => exact ⟨[byte '\n'], congrArg (· :: _) (List.cons.inj hinput).1.symm⟩
    | cons b text => exact ⟨text ++ crlf, congrArg (· :: _) (List.cons.inj hinput).1.symm⟩
  have hhead : ∀ b ∈ (text ++ crlf).head?, b ∉ tags := by
    rw [hused]
    rintro b ⟨rfl⟩
    exact htag
  have hderives := Derives.inline hhead hcrlf (spaced_wordsOf text)
  rw [hused] at hinput hderives
  exact ⟨used, (List.cons.inj hinput).2, hderives⟩

theorem reads_parseTagged (hp : Reads Derives p) (tag : UInt8) :
    Reads (fun used frame => Derives (tag :: used) frame) (parseTagged frameSize p tag) := by
  unfold parseTagged
  split_ifs with hsimple herror hinteger hbulk harray
  · subst hsimple
    intro input frame rest h
    obtain ⟨text, middle, hread, hpure⟩ := bind_eq_done.mp h
    obtain ⟨rfl, rfl⟩ := Outcome.done.inj hpure
    obtain ⟨rfl, hcrlf⟩ := readString_eq_done.mp hread
    exact ⟨_, rfl, Derives.simple hcrlf⟩
  · subst herror
    intro input frame rest h
    obtain ⟨text, middle, hread, hpure⟩ := bind_eq_done.mp h
    obtain ⟨rfl, rfl⟩ := Outcome.done.inj hpure
    obtain ⟨rfl, hcrlf⟩ := readString_eq_done.mp hread
    exact ⟨_, rfl, Derives.error hcrlf⟩
  · subst hinteger
    intro input frame rest h
    obtain ⟨digits, n, middle, rfl, hnumeral, hpure⟩ := number_eq_done.mp h
    obtain ⟨rfl, rfl⟩ := Outcome.done.inj hpure
    exact ⟨_, rfl, Derives.integer hnumeral⟩
  · subst hbulk
    exact reads_parseBulk
  · subst harray
    exact reads_parseArray hp
  · refine reads_parseInline ?_
    simp only [tags, List.mem_cons, List.not_mem_nil, or_false, not_or]
    exact ⟨hsimple, herror, hinteger, hbulk, harray⟩

theorem parse_cons (frameSize depth : ℕ) (tag : UInt8) (input : List UInt8) :
    parse frameSize (depth + 1) (tag :: input) =
      parseTagged frameSize (parse frameSize depth) tag input := rfl

/-- **The bytes that are taken for a frame derive it.** -/
theorem reads_parse (frameSize depth : ℕ) : Reads Derives (parse frameSize depth) := by
  induction depth with
  | zero => exact fun _ _ _ h => by cases h
  | succ depth ih =>
    intro input frame rest h
    cases input with
    | nil => cases h
    | cons tag input =>
      rw [parse_cons] at h
      obtain ⟨used, rfl, hderives⟩ := reads_parseTagged ih tag h
      exact ⟨tag :: used, rfl, hderives⟩

theorem reads_decode (frameSize : ℕ) : Reads Derives (decode frameSize) :=
  fun _ _ _ h => reads_parse frameSize _ (mapError_eq_done.mp h)

/-! ### What derives a frame is parsed -/

theorem parseFrame_cons (frameSize : ℕ) (tag : UInt8) (input : List UInt8) :
    parseFrame frameSize (tag :: input) =
      parseTagged frameSize (parseFrame frameSize) tag input := by
  have hconsumes := (consumes_parse frameSize input.length).mono (Nat.zero_le 2)
  exact parseTagged_congr hconsumes (fun input' hshort => parse_eq hshort) tag le_rfl

theorem parseTagged_simple {text : String} (h : ¬HasCrlf (asBytes text)) (rest : List UInt8) :
    parseTagged frameSize p (byte '+') (asBytes text ++ crlf ++ rest) =
      .done (.simple text) rest := by
  have htag : parseTagged frameSize p (byte '+') =
      readString >>= fun text => pure (.simple text) := rfl
  rw [htag, bind_of_done (readString_asBytes h rest)]
  rfl

theorem parseTagged_error {text : String} (h : ¬HasCrlf (asBytes text)) (rest : List UInt8) :
    parseTagged frameSize p (byte '-') (asBytes text ++ crlf ++ rest) =
      .done (.error text) rest := by
  have htag : parseTagged frameSize p (byte '-') =
      readString >>= fun text => pure (.error text) := rfl
  rw [htag, bind_of_done (readString_asBytes h rest)]
  rfl

theorem parseTagged_of_notMem {tag : UInt8} (h : tag ∉ tags) :
    parseTagged frameSize p tag = unread tag parseInline := by
  simp only [tags, List.mem_cons, List.not_mem_nil, or_false, not_or] at h
  obtain ⟨hsimple, herror, hinteger, hbulk, harray⟩ := h
  unfold parseTagged
  rw [if_neg hsimple, if_neg herror, if_neg hinteger, if_neg hbulk, if_neg harray]

/-- The memory for the items of the frame itself can be reserved. -/
def Reservable (frameSize : ℕ) : Frame → Prop
  | .array items => items.length * frameSize ≤ isizeMax
  | .simple _ | .error _ | .integer _ | .bulk _ | .null => True

theorem everywhere_reservable_array {items : List Frame} :
    (array items).Everywhere (Reservable frameSize) ↔
      items.length * frameSize ≤ isizeMax ∧
        ∀ item ∈ items, item.Everywhere (Reservable frameSize) := by
  rw [Everywhere, everywhereIn_iff]
  rfl

theorem Fits.reservable {frame : Frame} (h : frame.Fits frameSize) :
    frame.Everywhere (Reservable frameSize) := by
  induction frame using ind with
  | simple text => trivial
  | error text => trivial
  | integer n => trivial
  | bulk data => trivial
  | null => trivial
  | array items ih =>
    rw [Fits, Everywhere, everywhereIn_iff] at h
    exact everywhere_reservable_array.mpr ⟨h.1.2, fun item hitem => ih item hitem (h.2 item hitem)⟩

/-- Frames without memory can always be reserved. -/
theorem everywhere_reservable_zero (frame : Frame) : frame.Everywhere (Reservable 0) := by
  induction frame using ind with
  | simple text => trivial
  | error text => trivial
  | integer n => trivial
  | bulk data => trivial
  | null => trivial
  | array items ih => exact everywhere_reservable_array.mpr ⟨Nat.zero_le _, ih⟩

theorem parseFrame_null {tag : UInt8} (htag : tag = byte '$' ∨ tag = byte '*')
    {digits : List UInt8} {n : Int64} (hnumeral : Numeral digits n) (hneg : n.toInt < 0)
    (rest : List UInt8) :
    parseFrame frameSize (tag :: (digits ++ crlf ++ rest)) = .done .null rest := by
  rw [parseFrame_cons]
  rcases htag with rfl | rfl
  · refine (number_of_numeral hnumeral _ rest).trans ?_
    rw [if_pos hneg]
    rfl
  · refine (number_of_numeral hnumeral _ rest).trans ?_
    rw [if_pos hneg]
    rfl

theorem parseFrame_bulk {digits data : List UInt8} {n : Int64} (hnumeral : Numeral digits n)
    (hlength : n.toInt = data.length) (rest : List UInt8) :
    parseFrame frameSize (byte '$' :: (digits ++ crlf ++ (data ++ crlf ++ rest))) =
      .done (.bulk data) rest := by
  have hnat : n.toInt.toNat = data.length := by omega
  have hdata : (take data.length : Scanner UInt8 ParseError _) (data ++ (crlf ++ rest)) =
      .done data (crlf ++ rest) := take_eq_done.mpr ⟨rfl, rfl⟩
  have hending : (take 2 : Scanner UInt8 ParseError _) (crlf ++ rest) = .done crlf rest :=
    take_eq_done.mpr ⟨rfl, rfl⟩
  rw [parseFrame_cons, List.append_assoc data]
  refine (number_of_numeral hnumeral _ _).trans ?_
  rw [if_neg (by omega), hnat, bind_of_done hdata, bind_of_done hending, if_neg (not_not.mpr rfl)]
  rfl

/-- An array, from what its items are parsed to. -/
theorem parseFrame_array {digits : List UInt8} {n : Int64} (hnumeral : Numeral digits n)
    (hnonneg : 0 ≤ n.toInt) (input : List UInt8) :
    parseFrame frameSize (byte '*' :: (digits ++ crlf ++ input)) =
      if isizeMax < n.toInt.toNat * frameSize then .fail .panic
      else (times (parseFrame frameSize) n.toInt.toNat >>= fun items => pure (.array items))
        input := by
  rw [parseFrame_cons]
  refine (number_of_numeral hnumeral _ input).trans ?_
  rw [if_neg (not_lt.mpr hnonneg)]
  split
  · rfl
  · rfl

theorem parseFrame_inline {text : List UInt8} {words : List (List UInt8)}
    (hhead : ∀ b ∈ (text ++ crlf).head?, b ∉ tags) (hcrlf : ¬HasCrlf text)
    (hwords : Spaced text words) (rest : List UInt8) :
    parseFrame frameSize (text ++ crlf ++ rest) = .done (.array (words.map .bulk)) rest := by
  obtain ⟨tag, used, hused⟩ : ∃ tag used, text ++ crlf = tag :: used := by
    cases text with
    | nil => exact ⟨_, _, rfl⟩
    | cons b text => exact ⟨_, _, rfl⟩
  have htag : tag ∉ tags := hhead tag (by rw [hused]; rfl)
  have hline := line_append_crlf hcrlf rest
  rw [hused, List.cons_append] at hline ⊢
  rw [parseFrame_cons, parseTagged_of_notMem htag, unread, parseInline, bind_of_done hline,
    ← hwords.wordsOf_eq]
  rfl

/-- **Bytes that derive a frame are parsed to it**, whatever comes behind them, unless memory for
an array in it cannot be reserved: then the parser panics. -/
theorem Derives.parseFrame {used : List UInt8} {frame : Frame} (h : Derives used frame)
    (rest : List UInt8) :
    parseFrame frameSize (used ++ rest) = .done frame rest ∨
      parseFrame frameSize (used ++ rest) = .fail .panic ∧
        ¬frame.Everywhere (Reservable frameSize) := by
  induction h generalizing rest with
  | simple hcrlf =>
    rw [List.cons_append, parseFrame_cons]
    exact Or.inl (parseTagged_simple hcrlf rest)
  | error hcrlf =>
    rw [List.cons_append, parseFrame_cons]
    exact Or.inl (parseTagged_error hcrlf rest)
  | integer hnumeral =>
    rw [List.cons_append, parseFrame_cons]
    exact Or.inl (number_of_numeral hnumeral _ rest)
  | bulk hnumeral hlength =>
    rw [List.cons_append, List.append_assoc (_ ++ crlf)]
    exact Or.inl (parseFrame_bulk hnumeral hlength rest)
  | nullBulk hnumeral hneg =>
    exact Or.inl (parseFrame_null (Or.inl rfl) hnumeral hneg rest)
  | nullArray hnumeral hneg =>
    exact Or.inl (parseFrame_null (Or.inr rfl) hnumeral hneg rest)
  | @array digits n parts hnumeral hlength _ ih =>
    have hnat : n.toInt.toNat = parts.length := by omega
    rw [List.cons_append, List.append_assoc (_ ++ crlf), parseFrame_array hnumeral (by omega), hnat]
    split
    · next hmemory =>
      refine Or.inr ⟨rfl, fun hreserve => ?_⟩
      have hle := (everywhere_reservable_array.mp hreserve).1
      rw [List.length_map] at hle
      omega
    · -- the memory for the items is there: they are parsed one after the other
      rcases times_parts ih rest with hdone | ⟨⟨part, hmem, hpart⟩, hfail⟩
      · left
        rw [bind_of_done hdone]
        rfl
      · refine Or.inr ⟨?_, fun hreserve => hpart ?_⟩
        · rw [bind_apply, hfail _ le_rfl]
        · exact (everywhere_reservable_array.mp hreserve).2 _ (List.mem_map_of_mem hmem)
  | inline hhead hcrlf hwords => exact Or.inl (parseFrame_inline hhead hcrlf hwords rest)

theorem Derives.parseFrame_of_reservable {used : List UInt8} {frame : Frame}
    (h : Derives used frame) (hreserve : frame.Everywhere (Reservable frameSize))
    (rest : List UInt8) : Frame.parseFrame frameSize (used ++ rest) = .done frame rest :=
  (h.parseFrame rest).resolve_right fun hpanic => hpanic.2 hreserve

/-- **The grammar is unambiguous**: the parser of frames that need no memory decides. -/
theorem Derives.unique {used used' rest rest' : List UInt8} {frame frame' : Frame}
    (h : Derives used frame) (h' : Derives used' frame') (heq : used ++ rest = used' ++ rest') :
    used = used' ∧ frame = frame' := by
  have hparse := h.parseFrame_of_reservable (everywhere_reservable_zero frame) rest
  have hparse' := h'.parseFrame_of_reservable (everywhere_reservable_zero frame') rest'
  rw [heq, hparse'] at hparse
  obtain ⟨rfl, rfl⟩ := Outcome.done.inj hparse
  exact ⟨List.append_cancel_right heq, rfl⟩

/-- **The decoder accepts exactly its grammar, which is unambiguous.** -/
theorem decode_iff_derives (frameSize : ℕ) (buffer : List UInt8) :
    (∀ frame rest, frame.Fits frameSize →
      (decode frameSize buffer = .done frame rest ↔
        ∃ used, buffer = used ++ rest ∧ Derives used frame)) ∧
    (∀ used rest frame used' rest' frame', buffer = used ++ rest → Derives used frame →
      buffer = used' ++ rest' → Derives used' frame' → used = used' ∧ frame = frame') := by
  refine ⟨fun frame rest hfits => ⟨fun h => reads_decode frameSize h, ?_⟩, ?_⟩
  · rintro ⟨used, rfl, hderives⟩
    exact mapError_eq_done.mpr (hderives.parseFrame_of_reservable hfits.reservable rest)
  · rintro used rest frame used' rest' frame' rfl hderives heq hderives'
    exact hderives.unique hderives' heq

/-- Bytes with a null array, an inline command between its spaces, and what is behind the frame. -/
def mixedRequest : List UInt8 :=
  asBytes "*2\r\n*-07\r\n  GET key \r\n+"

/-- The frame that these bytes begin with. -/
def mixedFrame : Frame :=
  .array [.null, .array [.bulk (asBytes "GET"), .bulk (asBytes "key")]]

theorem decode_mixedRequest_iff_derives :
    mixedFrame.Fits 40 ∧ decode 40 mixedRequest = .done mixedFrame [byte '+'] ∧
      ∃ used, mixedRequest = used ++ [byte '+'] ∧ Derives used mixedFrame := by
  have hdecode : decode 40 mixedRequest = .done mixedFrame [byte '+'] := rfl
  have hfits : mixedFrame.Fits 40 := by
    have hget : (asBytes "GET").length = 3 := by decide +kernel
    have hkey : (asBytes "key").length = 3 := by decide +kernel
    simp [mixedFrame, Fits, Everywhere, EverywhereIn, HasSize, isizeMax, hget, hkey]
  exact ⟨hfits, hdecode, ((decode_iff_derives 40 mixedRequest).1 _ _ hfits).mp hdecode⟩

/-! ### When the parser panics -/

/-- The parser comes to an array for whose items the memory cannot be reserved: right away, or
behind some of the items that an array announces. -/
inductive Overcommits (frameSize : ℕ) : List UInt8 → Prop
  | here {digits rest : List UInt8} {n : Int64} : Numeral digits n → 0 ≤ n.toInt →
      isizeMax < n.toInt.toNat * frameSize →
      Overcommits frameSize (byte '*' :: (digits ++ crlf ++ rest))
  | behind {digits rest : List UInt8} {n : Int64} {parts : List (List UInt8 × Frame)} :
      Numeral digits n → parts.length < n.toInt → (∀ part ∈ parts, Derives part.1 part.2) →
      Overcommits frameSize rest →
      Overcommits frameSize (byte '*' :: (digits ++ crlf ++ (parts.flatMap Prod.fst ++ rest)))

theorem Overcommits.parseFrame {input : List UInt8} (h : Overcommits frameSize input) :
    parseFrame frameSize input = .fail .panic := by
  induction h with
  | here hnumeral hnonneg hmemory => rw [parseFrame_array hnumeral hnonneg, if_pos hmemory]
  | @behind digits rest n parts hnumeral hlt hparts _ ih =>
    rw [parseFrame_array hnumeral (by omega)]
    split
    · rfl
    · rw [bind_apply]
      -- the items in front are parsed, or one of them panics already
      rcases times_parts (fun part hmem => (hparts part hmem).parseFrame) rest with
        hdone | ⟨-, hfail⟩
      · obtain ⟨k, hk⟩ : ∃ k, n.toInt.toNat = parts.length + (k + 1) :=
          ⟨n.toInt.toNat - parts.length - 1, by omega⟩
        rw [hk, times_add hdone, Scanner.times, bind_apply, ih]
      · rw [hfail _ (by omega)]

theorem avoids_line : Avoids .panic line := by
  intro input h
  fun_induction line input with
  | case1 => cases h
  | case2 => cases h
  | case3 => cases h
  | case4 => cases h
  | case5 => cases h
  | case6 a b rest hne error hfail ih =>
    obtain rfl := Outcome.fail.inj h
    exact ih hfail

theorem avoids_readString : Avoids .panic readString := by
  refine avoids_line.bind fun text => ?_
  cases fromUtf8 text with
  | none => exact avoids_fail (by simp)
  | some s => exact avoids_pure s

theorem avoids_parseBulk : Avoids .panic parseBulk := by
  refine avoids_line.bind fun text => (avoids_parseInt text).bind fun len => ?_
  split
  · exact avoids_pure _
  · refine (avoids_take _).bind fun data => (avoids_take _).bind fun ending => ?_
    split
    · exact avoids_fail (by simp)
    · exact avoids_pure _

/-- Only an array panics: its own items, or one of them. -/
theorem overcommits_of_parseArray (hreads : Reads Derives p)
    (hp : ∀ input, p input = .fail .panic → Overcommits frameSize input)
    (h : parseArray frameSize p input = .fail .panic) :
    Overcommits frameSize (byte '*' :: input) := by
  rcases bind_eq_fail.mp h with hline | ⟨digits, middle, hline, hnumber⟩
  · exact absurd hline (avoids_line input)
  obtain ⟨rfl, -⟩ := line_eq_done.mp hline
  rcases bind_eq_fail.mp hnumber with hint | ⟨n, middle', hint, hitems⟩
  · exact absurd hint (avoids_parseInt digits middle)
  obtain ⟨hnumeral, rfl⟩ := parseInt_eq_done.mp hint
  by_cases hneg : n.toInt < 0
  · rw [if_pos hneg] at hitems
    cases hitems
  · rw [if_neg hneg] at hitems
    by_cases hmemory : isizeMax < n.toInt.toNat * frameSize
    · exact Overcommits.here hnumeral (not_lt.mp hneg) hmemory
    · rw [if_neg hmemory] at hitems
      rcases bind_eq_fail.mp hitems with htimes | ⟨items, middle', -, hpure⟩
      · -- the first item that panics, behind those that are parsed
        obtain ⟨items, last, hlt, hdone, hpanic⟩ := times_eq_fail htimes
        obtain ⟨parts, hlength, -, rfl, hparts⟩ := hreads.times hdone
        exact Overcommits.behind hnumeral (by omega) hparts (hp last hpanic)
      · cases hpure

theorem overcommits_of_parseTagged {tag : UInt8} (hreads : Reads Derives p)
    (hp : ∀ input, p input = .fail .panic → Overcommits frameSize input)
    (h : parseTagged frameSize p tag input = .fail .panic) :
    Overcommits frameSize (tag :: input) := by
  unfold parseTagged at h
  split_ifs at h with hsimple herror hinteger hbulk harray
  · exact absurd h ((avoids_readString.bind fun text => avoids_pure _) input)
  · exact absurd h ((avoids_readString.bind fun text => avoids_pure _) input)
  · exact absurd h ((avoids_line.bind fun text => (avoids_parseInt text).bind fun n =>
      avoids_pure _) input)
  · exact absurd h (avoids_parseBulk input)
  · subst harray
    exact overcommits_of_parseArray hreads hp h
  · exact absurd h (((avoids_line.bind fun text => avoids_pure _).unread tag) input)

theorem overcommits_of_parse {depth : ℕ} (h : parse frameSize depth input = .fail .panic) :
    Overcommits frameSize input := by
  induction depth generalizing input with
  | zero => cases h
  | succ depth ih =>
    cases input with
    | nil => cases h
    | cons tag input =>
      rw [parse_cons] at h
      exact overcommits_of_parseTagged (reads_parse frameSize depth) (fun _ => ih) h

/-- **The parser panics exactly where it comes to an array that is too large to reserve.** -/
theorem parseFrame_eq_panic_iff :
    parseFrame frameSize input = .fail .panic ↔ Overcommits frameSize input :=
  ⟨overcommits_of_parse, Overcommits.parseFrame⟩

theorem decode_eq_panic_iff :
    decode frameSize input = .fail .panic ↔ Overcommits frameSize input := by
  rw [← parseFrame_eq_panic_iff, decode, mapError]
  cases Frame.parseFrame frameSize input with
  | done frame rest => simp
  | more => simp
  | fail error =>
    cases error with
    | invalid message => simp [Fault.ofParseError]
    | panic => simp [Fault.ofParseError]

end Frame

end Ferrium
