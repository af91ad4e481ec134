import Mathlib.Data.List.Infix

/-!
# Text and bytes

What the standard library of the source does with strings: their bytes, reading bytes as UTF-8, and
printing and reading decimal numbers. A Rust `String` is a Lean `String`; both are sequences of
bytes that are valid UTF-8.

## Main results

* `fromUtf8_eq_some`: reading bytes as UTF-8 and taking the bytes of a string are inverse;
* `i64FromStr_toString`: an `i64` that is printed is read back;
* `hasCrlf_append_left`, `hasCrlf_append_right`: where a text that is put together has the end of a
  line.
-/

namespace Ferrium

/-- The byte of an ASCII character. -/
def byte (c : Char) : UInt8 :=
  UInt8.ofNat c.toNat

/-- `str::as_bytes`. -/
def asBytes (s : String) : List UInt8 :=
  s.toByteArray.data.toList

/-- `str::from_utf8`. -/
def fromUtf8 (bytes : List UInt8) : Option String :=
  String.fromUTF8? ⟨bytes.toArray⟩

theorem fromUtf8_eq_some {bytes : List UInt8} {s : String} :
    fromUtf8 bytes = some s ↔ asBytes s = bytes := by
  unfold fromUtf8 asBytes String.fromUTF8?
  constructor
  · intro h
    split at h
    · obtain rfl := Option.some.inj h
      rfl
    · cases h
  · rintro rfl
    exact dif_pos s.isValidUTF8

theorem asBytes_append (s t : String) : asBytes (s ++ t) = asBytes s ++ asBytes t := by
  unfold asBytes
  rw [String.toByteArray_append, ByteArray.data_append, Array.toList_append]

/-- The bytes of a string are those of its characters. -/
theorem asBytes_ofList (cs : List Char) :
    asBytes (String.ofList cs) = cs.flatMap String.utf8EncodeChar := by
  simp [asBytes, List.utf8Encode]

theorem asBytes_eq_flatMap (s : String) : asBytes s = s.toList.flatMap String.utf8EncodeChar := by
  rw [← asBytes_ofList, String.ofList_toList]

/-- A character of the ASCII range is a single byte. -/
theorem utf8EncodeChar_of_lt {c : Char} (h : c.toNat < 128) :
    String.utf8EncodeChar c = [byte c] :=
  if_pos (Nat.le_of_lt_succ h)

theorem toNat_byte {c : Char} (h : c.toNat < 128) : (byte c).toNat = c.toNat := by
  unfold byte
  rw [UInt8.toNat_ofNat']
  omega

theorem asBytes_ofList_of_lt {cs : List Char} (h : ∀ c ∈ cs, c.toNat < 128) :
    asBytes (String.ofList cs) = cs.map byte := by
  rw [asBytes_ofList]
  induction cs with
  | nil => rfl
  | cons c cs ih =>
    rw [List.flatMap_cons, utf8EncodeChar_of_lt (h c List.mem_cons_self),
      ih fun c' hc' => h c' (List.mem_cons_of_mem c hc')]
    rfl

/-! ### Decimal numbers -/

/-- Read digits behind the number `acc`. -/
def digitsValue : List UInt8 → ℕ → Option ℕ
  | [], acc => some acc
  | b :: bytes, acc =>
    if byte '0' ≤ b ∧ b ≤ byte '9' then digitsValue bytes (10 * acc + (b.toNat - 48)) else none

/-- An unsigned number: at least one digit. -/
def unsigned (bytes : List UInt8) : Option ℕ :=
  if bytes = [] then none else digitsValue bytes 0

/-- A number with an optional sign. -/
def signed : List UInt8 → Option ℤ
  | [] => none
  | b :: bytes =>
    if b = byte '+' then (unsigned bytes).map fun n => (n : ℤ)
    else if b = byte '-' then (unsigned bytes).map fun n => -(n : ℤ)
    else (unsigned (b :: bytes)).map fun n => (n : ℤ)

/-- `str::parse::<i64>`. -/
def i64FromStr (bytes : List UInt8) : Option Int64 :=
  match signed bytes with
  | some n =>
    if Int64.minValue.toInt ≤ n ∧ n ≤ Int64.maxValue.toInt then some (Int64.ofInt n) else none
  | none => none

theorem digitsValue_map_byte {cs : List Char} (h : ∀ c ∈ cs, c.isDigit) (acc : ℕ) :
    digitsValue (cs.map byte) acc = some (Nat.ofDigitChars 10 cs acc) := by
  induction cs generalizing acc with
  | nil => rfl
  | cons c cs ih =>
    obtain ⟨hlo, hhi⟩ := Char.isDigit_iff_toNat.mp (h c List.mem_cons_self)
    have hlo' : 48 ≤ c.toNat := hlo
    have hhi' : c.toNat ≤ 57 := hhi
    have hbyte : (byte c).toNat = c.toNat := toNat_byte (by omega)
    have hdigit : byte '0' ≤ byte c ∧ byte c ≤ byte '9' := by
      rw [UInt8.le_iff_toNat_le, UInt8.le_iff_toNat_le, hbyte]
      exact ⟨hlo, hhi⟩
    rw [List.map_cons, digitsValue, if_pos hdigit, hbyte,
      ih fun c' hc' => h c' (List.mem_cons_of_mem c hc'), Nat.ofDigitChars_cons]
    rfl

theorem isDigit_of_mem_decimal {n : ℕ} {c : Char} (h : c ∈ Nat.toDigits 10 n) : c.isDigit :=
  Nat.isDigit_of_mem_toDigits (by decide) (by decide) h

theorem asBytes_toString_nat (n : ℕ) :
    asBytes (toString n) = (Nat.toDigits 10 n).map byte := by
  rw [Nat.toString_eq_ofList_toDigits]
  refine asBytes_ofList_of_lt fun c hc => ?_
  have hdigit : c.toNat ≤ 57 := (Char.isDigit_iff_toNat.mp (isDigit_of_mem_decimal hc)).2
  omega

/-- The bytes of a decimal number are digits. -/
theorem mem_asBytes_toString_nat {n : ℕ} {b : UInt8} (h : b ∈ asBytes (toString n)) :
    48 ≤ b.toNat ∧ b.toNat ≤ 57 := by
  rw [asBytes_toString_nat] at h
  obtain ⟨c, hc, rfl⟩ := List.mem_map.mp h
  obtain ⟨hlo, hhi⟩ := Char.isDigit_iff_toNat.mp (isDigit_of_mem_decimal hc)
  have hhi' : c.toNat ≤ 57 := hhi
  rw [toNat_byte (by omega)]
  exact ⟨hlo, hhi⟩

theorem unsigned_toString (n : ℕ) : unsigned (asBytes (toString n)) = some n := by
  rw [asBytes_toString_nat, unsigned, if_neg (by simp [Nat.toDigits_ne_nil]),
    digitsValue_map_byte fun c hc => isDigit_of_mem_decimal hc, Nat.ofDigitChars_ten_toDigits]

theorem signed_toString_nat (n : ℕ) : signed (asBytes (toString n)) = some (n : ℤ) := by
  have hvalue := unsigned_toString n
  have hmem := fun b => mem_asBytes_toString_nat (n := n) (b := b)
  cases hbytes : asBytes (toString n) with
  | nil =>
    rw [hbytes] at hvalue
    cases hvalue
  | cons b bytes =>
    obtain ⟨hlo, -⟩ := hmem b (hbytes ▸ List.mem_cons_self)
    have hplus : b ≠ byte '+' := by
      rintro rfl
      exact absurd hlo (by decide)
    have hminus : b ≠ byte '-' := by
      rintro rfl
      exact absurd hlo (by decide)
    rw [hbytes] at hvalue
    rw [signed, if_neg hplus, if_neg hminus, hvalue]
    rfl

theorem asBytes_toString_negSucc (n : ℕ) :
    asBytes (toString (Int.negSucc n)) = byte '-' :: asBytes (toString (n + 1)) := by
  have htext : toString (Int.negSucc n) = "-" ++ toString (n + 1) := rfl
  have hsign : asBytes "-" = [byte '-'] := by decide +kernel
  rw [htext, asBytes_append, hsign, List.singleton_append]

theorem signed_toString (z : ℤ) : signed (asBytes (toString z)) = some z := by
  cases z with
  | ofNat n => exact signed_toString_nat n
  | negSucc n =>
    rw [asBytes_toString_negSucc, signed, if_neg (by decide), if_pos rfl, unsigned_toString]
    rfl

/-- The bytes of a decimal number are digits, or the sign. -/
theorem mem_asBytes_toString {z : ℤ} {b : UInt8} (h : b ∈ asBytes (toString z)) :
    b = byte '-' ∨ (48 ≤ b.toNat ∧ b.toNat ≤ 57) := by
  cases z with
  | ofNat n => exact Or.inr (mem_asBytes_toString_nat h)
  | negSucc n =>
    rw [asBytes_toString_negSucc] at h
    rcases List.mem_cons.mp h with rfl | hdigit
    · exact Or.inl rfl
    · exact Or.inr (mem_asBytes_toString_nat hdigit)

theorem return_notMem_toString (z : ℤ) : byte '\r' ∉ asBytes (toString z) := by
  intro hmem
  rcases mem_asBytes_toString hmem with hsign | ⟨hlo, -⟩
  · exact absurd hsign (by decide)
  · exact absurd hlo (by decide)

/-- A printed `i64` is read back. -/
theorem i64FromStr_toString (n : Int64) : i64FromStr (asBytes (toString n.toInt)) = some n := by
  have hrange : Int64.minValue.toInt ≤ n.toInt ∧ n.toInt ≤ Int64.maxValue.toInt := by
    have hlo := n.le_toInt
    have hhi := n.toInt_lt
    have hmin : Int64.minValue.toInt = -2 ^ 63 := by decide
    have hmax : Int64.maxValue.toInt = 2 ^ 63 - 1 := by decide
    omega
  rw [i64FromStr, signed_toString]
  dsimp only
  rw [if_pos hrange, Int64.ofInt_toInt]

/-! ### The end of a line -/

/-- The end of a line. -/
def crlf : List UInt8 :=
  [byte '\r', byte '\n']

/-- The two bytes CR LF occur next to each other. -/
def HasCrlf (bytes : List UInt8) : Prop :=
  crlf <:+: bytes

instance decidableHasCrlf (bytes : List UInt8) : Decidable (HasCrlf bytes) :=
  inferInstanceAs (Decidable (_ <:+: _))

theorem not_hasCrlf_nil : ¬HasCrlf [] := by
  decide

/-- A pair in front or further back. -/
theorem pair_infix_cons {α : Type} {a x y : α} {l : List α} :
    [x, y] <:+: a :: l ↔ (a = x ∧ ∃ rest, l = y :: rest) ∨ [x, y] <:+: l := by
  rw [List.infix_cons_iff, List.cons_prefix_cons, eq_comm]
  refine or_congr (and_congr Iff.rfl ?_) Iff.rfl
  constructor
  · rintro ⟨rest, rfl⟩
    exact ⟨rest, rfl⟩
  · rintro ⟨rest, rfl⟩
    exact ⟨rest, rfl⟩

theorem hasCrlf_cons {a : UInt8} {bytes : List UInt8} :
    HasCrlf (a :: bytes) ↔
      (a = byte '\r' ∧ ∃ rest, bytes = byte '\n' :: rest) ∨ HasCrlf bytes :=
  pair_infix_cons

theorem hasCrlf_append_left {bytes bytes' : List UInt8} (h : byte '\r' ∉ bytes) :
    HasCrlf (bytes ++ bytes') ↔ HasCrlf bytes' := by
  induction bytes with
  | nil => rfl
  | cons a bytes ih =>
    rw [List.mem_cons, not_or] at h
    rw [List.cons_append, hasCrlf_cons, ih h.2]
    exact ⟨fun hcrlf => hcrlf.resolve_left fun hfirst => h.1 hfirst.1.symm, Or.inr⟩

theorem hasCrlf_append_right {bytes bytes' : List UInt8} (h : byte '\n' ∉ bytes') :
    HasCrlf (bytes ++ bytes') ↔ HasCrlf bytes := by
  induction bytes with
  | nil =>
    refine ⟨fun hcrlf => absurd ?_ h, fun hcrlf => absurd hcrlf not_hasCrlf_nil⟩
    exact hcrlf.subset (List.mem_cons_of_mem _ List.mem_cons_self)
  | cons a bytes ih =>
    rw [List.cons_append, hasCrlf_cons, hasCrlf_cons, ih]
    refine or_congr (and_congr Iff.rfl ?_) Iff.rfl
    cases bytes with
    | nil =>
      refine ⟨?_, fun ⟨rest, hrest⟩ => by cases hrest⟩
      rintro ⟨rest, rfl⟩
      exact absurd List.mem_cons_self h
    | cons b bytes => simp

end Ferrium
