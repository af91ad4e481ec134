import Ferrium.Protocol.Lossy
import Ferrium.Protocol.RoundTrip

/-!
# Commands

Embedding of `src/protocol/command.rs`, which makes typed commands of frames, and of the messages of
`src/error.rs`.

A frame that is no argument is shown to the client in its debug format. That of strings is from the
standard library, up to its table of the characters that are not printable; that of `Bytes` is from
a library which is not part of the repository, and escapes all control characters. Both are
parameters, and a debug format is a single line (`DebugFormat.noReturn_frame`).
-/

namespace Ferrium

/-! ### Texts without a carriage return -/

/-- The text has no carriage return, so that no line ends in it. -/
def NoReturn (s : String) : Prop :=
  '\r' ∉ s.toList

instance decidableNoReturn (s : String) : Decidable (NoReturn s) :=
  inferInstanceAs (Decidable (_ ∉ _))

theorem noReturn_append {s t : String} : NoReturn (s ++ t) ↔ NoReturn s ∧ NoReturn t := by
  unfold NoReturn
  rw [String.toList_append, List.mem_append, not_or]

theorem NoReturn.append {s t : String} (hs : NoReturn s) (ht : NoReturn t) : NoReturn (s ++ t) :=
  noReturn_append.mpr ⟨hs, ht⟩

theorem noReturn_of_notMem {s : String} (h : byte '\r' ∉ asBytes s) : NoReturn s := by
  intro hmem
  rw [asBytes_eq_flatMap] at h
  exact h (List.mem_flatMap.mpr ⟨'\r', hmem, List.mem_singleton.mpr rfl⟩)

theorem NoReturn.not_hasCrlf {s : String} (h : NoReturn s) : ¬HasCrlf (asBytes s) := by
  rw [asBytes_eq_flatMap, (flatMap_utf8EncodeChar_crlf _).1]
  exact fun hcrlf => h (hcrlf.subset List.mem_cons_self)

/-! ### Debug formats -/

/-- What the debug format of a frame depends on. -/
structure DebugFormat where
  /-- The debug format of `Bytes`. -/
  bytes : List UInt8 → String
  noReturn_bytes : ∀ data, NoReturn (bytes data)
  /-- The characters that are escaped in strings because they are not printable. -/
  unprintable : Char → Bool

namespace DebugFormat

variable (self : DebugFormat)

/-- A character within a string. -/
def char (c : Char) : String :=
  if c = '\x00' then "\\0"
  else if c = '\t' then "\\t"
  else if c = '\r' then "\\r"
  else if c = '\n' then "\\n"
  else if c = '"' then "\\\""
  else if c = '\\' then "\\\\"
  else if self.unprintable c then
    "\\u\x7b" ++ String.ofList (Nat.toDigits 16 c.toNat) ++ "\x7d"
  else String.singleton c

/-- The characters of a string. -/
def chars : List Char → String
  | [] => ""
  | c :: cs => self.char c ++ chars cs

/-- The debug format of a string. -/
def string (s : String) : String :=
  "\"" ++ self.chars s.toList ++ "\""

mutual

/-- The debug format of a frame. -/
def frame : Frame → String
  | .simple text => "Simple(" ++ self.string text ++ ")"
  | .error text => "Error(" ++ self.string text ++ ")"
  | .integer n => "Integer(" ++ toString n.toInt ++ ")"
  | .bulk data => "Bulk(" ++ self.bytes data ++ ")"
  | .null => "Null"
  | .array items => "Array([" ++ frames items ++ "])"

/-- The debug formats of the items of an array. -/
def frames : List Frame → String
  | [] => ""
  | item :: items => frame item ++ (if items.isEmpty then "" else ", ") ++ frames items

end

theorem exists_digitChar_of_mem_toDigits {b n : ℕ} (hb : 1 < b) {c : Char}
    (h : c ∈ Nat.toDigits b n) : ∃ d, c = Nat.digitChar d := by
  induction n using Nat.strong_induction_on with
  | h n ih =>
    rw [Nat.toDigits_eq_if hb] at h
    split at h
    · exact ⟨n, List.mem_singleton.mp h⟩
    · next hle =>
      rcases List.mem_append.mp h with hhigh | hlow
      · exact ih (n / b) (Nat.div_lt_self (by omega) hb) hhigh
      · exact ⟨n % b, List.mem_singleton.mp hlow⟩

/-- A carriage return is escaped. -/
theorem noReturn_char (c : Char) : NoReturn (self.char c) := by
  unfold char NoReturn
  split_ifs with hzero htab hreturn hfeed hquote hbackslash hescape
  iterate 6 decide +kernel
  · have hdigits : '\r' ∉ Nat.toDigits 16 c.toNat := by
      intro hmem
      obtain ⟨d, hd⟩ := exists_digitChar_of_mem_toDigits (by decide) hmem
      exact Nat.digitChar_ne '\r' (by decide) hd.symm
    simpa using hdigits
  · simpa using fun h => hreturn h.symm

theorem noReturn_chars (cs : List Char) : NoReturn (self.chars cs) := by
  induction cs with
  | nil => exact (show NoReturn "" by decide +kernel)
  | cons c cs ih => exact (self.noReturn_char c).append ih

theorem noReturn_string (s : String) : NoReturn (self.string s) :=
  (NoReturn.append (by decide +kernel) (self.noReturn_chars s.toList)).append (by decide +kernel)

theorem noReturn_frames {items : List Frame} (h : ∀ item ∈ items, NoReturn (self.frame item)) :
    NoReturn (self.frames items) := by
  induction items with
  | nil => exact (show NoReturn "" by decide +kernel)
  | cons item items ih =>
    have hrest := ih fun item' hitem' => h item' (List.mem_cons_of_mem item hitem')
    refine ((h item List.mem_cons_self).append ?_).append hrest
    split <;> decide +kernel

/-- **The debug format of a frame is a single line.** -/
theorem noReturn_frame (frame : Frame) : NoReturn (self.frame frame) := by
  induction frame using Frame.ind with
  | simple text =>
    exact (NoReturn.append (by decide +kernel) (self.noReturn_string text)).append
      (by decide +kernel)
  | error text =>
    exact (NoReturn.append (by decide +kernel) (self.noReturn_string text)).append
      (by decide +kernel)
  | integer n =>
    have hn : NoReturn (toString n.toInt) := noReturn_of_notMem (return_notMem_toString _)
    exact (NoReturn.append (by decide +kernel) hn).append (by decide +kernel)
  | bulk data =>
    exact (NoReturn.append (by decide +kernel) (self.noReturn_bytes data)).append
      (by decide +kernel)
  | null => exact (show NoReturn "Null" by decide +kernel)
  | array items ih =>
    exact (NoReturn.append (by decide +kernel) (self.noReturn_frames ih)).append
      (by decide +kernel)

end DebugFormat

/-! ### Errors -/

namespace Error

/-- The text of an error. -/
def toString : Error → String
  | .io message => "io error: " ++ message
  | .protocol message => "protocol error: " ++ message
  | .notLeader _ => "not leader"
  | .unknownCommand name => "unknown command '" ++ name ++ "'"
  | .wrongArity name => "wrong number of arguments for '" ++ name ++ "'"
  | .storage message => "storage error: " ++ message
  | .cluster message => "cluster error: " ++ message

/-- The single-line message sent to clients in a RESP error frame. -/
def clientMessage : Error → String
  | .notLeader (some leader) => "MOVED " ++ leader
  | .notLeader none => "CLUSTERDOWN no known leader"
  | other => other.toString

end Error

/-! ### Commands -/

/-- A client request understood by ferrium. -/
inductive Command
  | ping (payload : Option (List UInt8))
  | get (key : String)
  | set (key : String) (value : List UInt8)
  | del (keys : List String)
  | clusterStatus
  | clusterMembers
  /-- `COMMAND [DOCS]`, emitted by `redis-cli` on connect. -/
  | command
  deriving DecidableEq, Repr

/-- The bytes of an argument: a bulk string, or a simple one. -/
def bulkToBytes (format : DebugFormat) : Frame → Except Error (List UInt8)
  | .bulk data => .ok data
  | .simple text => .ok (asBytes text)
  | other => .error (.protocol ("expected bulk string, got " ++ format.frame other))

namespace Command

/-- The name of a command, as it is compared. -/
def nameOf (bytes : List UInt8) : String :=
  toAsciiUppercase (fromUtf8Lossy bytes)

/-- The subcommands of `CLUSTER`. -/
def assembleCluster (args : List (List UInt8)) : Except Error Command :=
  match (args.head?.map nameOf).getD "" with
  | "STATUS" | "INFO" => .ok .clusterStatus
  | "MEMBERS" | "NODES" => .ok .clusterMembers
  | other => .error (.unknownCommand ("CLUSTER " ++ other))

/-- Make a command of a name and its arguments, whose number is enforced. -/
def assemble (name : String) (args : List (List UInt8)) : Except Error Command :=
  match name with
  | "PING" =>
    match args with
    | [] => .ok (.ping none)
    | [payload] => .ok (.ping (some payload))
    | _ => .error (.wrongArity "ping")
  | "GET" =>
    match args with
    | [key] => .ok (.get (fromUtf8Lossy key))
    | _ => .error (.wrongArity "get")
  | "SET" =>
    match args with
    | [key, value] => .ok (.set (fromUtf8Lossy key) value)
    | _ => .error (.wrongArity "set")
  | "DEL" =>
    if args.isEmpty then .error (.wrongArity "del")
    else .ok (.del (args.map fromUtf8Lossy))
  | "CLUSTER" => assembleCluster args
  | "COMMAND" => .ok .command
  | other => .error (.unknownCommand other)

/-- Parse a request frame (always a RESP array of bulk strings) into a command. The name is looked
at before the other arguments; it exists, as the array is not empty. -/
def fromFrame (format : DebugFormat) : Frame → Except Error Command
  | .array (first :: rest) => do
    let name ← bulkToBytes format first
    let args ← rest.mapM (bulkToBytes format)
    assemble (nameOf name) args
  | _ => .error (.protocol "expected non-empty array")

end Command

end Ferrium
