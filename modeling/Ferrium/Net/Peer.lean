import Ferrium.Lib.Incremental
import Ferrium.Raft.Message

/-!
# The framing between nodes

Embedding of `write_frame`, `read_frame` and `read_connection` of `src/net/peer.rs`: a payload is
written behind its length, which is a `u32` in big-endian order. A stream is the list of the bytes
that arrive before the connection is closed, by the other side or because it breaks.

The length is cut down to 32 bits without a check, so that a payload of `2 ^ 32` bytes or more is
read as something else. Up to this size nothing is lost: wherever the stream is cut, what is read
are the first payloads that were written, as they were written.

## Main results

* `readFrames_writeFrames_iff`: a sequence of payloads is read back from the whole stream, and a
  first part of it from every first part of the stream, if and only if all payloads are shorter
  than `2 ^ 32` bytes;
* `readFrames_zeros`: what a payload of `2 ^ 32` zeros is read as;
* `readConnection_take`: a connection delivers the first messages that were written to it.
-/

namespace Ferrium.Peer

open Incremental

/-- The number of values of a `u32`. -/
def u32Count : ℕ :=
  4294967296

/-- The bytes of a `u32`, the most significant one first. -/
def u32Bytes (n : ℕ) : List UInt8 :=
  [UInt8.ofNat (n / 16777216), UInt8.ofNat (n / 65536), UInt8.ofNat (n / 256), UInt8.ofNat n]

/-- The number that bytes stand for, the most significant one first. -/
def fromBytes (bytes : List UInt8) : ℕ :=
  bytes.foldl (fun acc b => acc * 256 + b.toNat) 0

/-- What is written for a payload: `payload.len() as u32`, and the payload. -/
def writeFrame (payload : List UInt8) : List UInt8 :=
  u32Bytes (payload.length % u32Count) ++ payload

/-- What is written for payloads one after the other. -/
def writeFrames (payloads : List (List UInt8)) : List UInt8 :=
  payloads.flatMap writeFrame

/-- Read a number of bytes, unless the stream ends before. -/
def readExact (n : ℕ) (stream : List UInt8) : Option (List UInt8 × List UInt8) :=
  if stream.length < n then none else some (stream.take n, stream.drop n)

/-- What a call of `read_frame` returns. -/
inductive Received
  /-- A payload; what is left of the stream. -/
  | frame (payload rest : List UInt8)
  /-- The stream has ended before the length was complete, which is taken for a clean end. -/
  | closed
  /-- The stream has ended within the payload, which is an error. -/
  | failed
  deriving DecidableEq, Repr

def readFrame (stream : List UInt8) : Received :=
  match readExact 4 stream with
  | none => .closed
  | some (header, rest) =>
    match readExact (fromBytes header) rest with
    | none => .failed
    | some (payload, rest) => .frame payload rest

/-! ### One payload -/

theorem fromBytes_u32Bytes {n : ℕ} (h : n < u32Count) : fromBytes (u32Bytes n) = n := by
  unfold u32Count at h
  simp only [fromBytes, u32Bytes, List.foldl_cons, List.foldl_nil, UInt8.toNat_ofNat']
  omega

theorem readExact_append (front rest : List UInt8) :
    readExact front.length (front ++ rest) = some (front, rest) := by
  simp [readExact]

theorem readFrame_header {n : ℕ} (h : n < u32Count) (rest : List UInt8) :
    readFrame (u32Bytes n ++ rest) =
      if rest.length < n then .failed else .frame (rest.take n) (rest.drop n) := by
  have hheader : readExact 4 (u32Bytes n ++ rest) = some (u32Bytes n, rest) :=
    readExact_append (u32Bytes n) rest
  unfold readFrame
  rw [hheader]
  dsimp only
  rw [fromBytes_u32Bytes h, readExact]
  by_cases hshort : rest.length < n
  · rw [if_pos hshort, if_pos hshort]
  · rw [if_neg hshort, if_neg hshort]

/-- What is read of a payload is as long as its length has room for. -/
theorem readFrame_writeFrame (payload rest : List UInt8) :
    readFrame (writeFrame payload ++ rest) =
      .frame ((payload ++ rest).take (payload.length % u32Count))
        ((payload ++ rest).drop (payload.length % u32Count)) := by
  have hlt : payload.length % u32Count < u32Count := Nat.mod_lt _ (by decide)
  have hle : payload.length % u32Count ≤ payload.length := Nat.mod_le _ _
  rw [writeFrame, List.append_assoc, readFrame_header hlt, if_neg]
  rw [List.length_append]
  omega

/-- A payload whose length has room is read back. -/
theorem readFrame_writeFrame_of_lt {payload : List UInt8} (h : payload.length < u32Count)
    (rest : List UInt8) : readFrame (writeFrame payload ++ rest) = .frame payload rest := by
  rw [readFrame_writeFrame, Nat.mod_eq_of_lt h, List.take_left, List.drop_left]

/-- A payload that is cut is not read at all. -/
theorem readFrame_take {payload : List UInt8} (h : payload.length < u32Count) {n : ℕ}
    (hn : n < (writeFrame payload).length) :
    readFrame ((writeFrame payload).take n) = .closed ∨
      readFrame ((writeFrame payload).take n) = .failed := by
  by_cases hheader : n < 4
  · left
    have hshort : ((writeFrame payload).take n).length < 4 :=
      (List.length_take_le n _).trans_lt hheader
    rw [readFrame, readExact, if_pos hshort]
  · right
    have hlen : (u32Bytes (payload.length % u32Count)).length = 4 := rfl
    have htake : (writeFrame payload).take n =
        u32Bytes (payload.length % u32Count) ++ payload.take (n - 4) := by
      rw [writeFrame, List.take_append, hlen, List.take_of_length_le (by omega)]
    rw [writeFrame, List.length_append, hlen] at hn
    rw [htake, Nat.mod_eq_of_lt h, readFrame_header h, if_pos]
    rw [List.length_take]
    omega

/-! ### The loop over a connection -/

/-- A payload is read from its length and as many bytes behind it. -/
theorem readFrame_eq_frame {stream payload rest : List UInt8} :
    readFrame stream = .frame payload rest ↔
      ∃ header : List UInt8, header.length = 4 ∧ fromBytes header = payload.length ∧
        stream = header ++ (payload ++ rest) := by
  constructor
  · intro h
    unfold readFrame readExact at h
    by_cases hheader : stream.length < 4
    · rw [if_pos hheader] at h
      cases h
    · rw [if_neg hheader] at h
      dsimp only at h
      by_cases hbody : (stream.drop 4).length < fromBytes (stream.take 4)
      · rw [if_pos hbody] at h
        cases h
      · rw [if_neg hbody] at h
        obtain ⟨rfl, rfl⟩ := Received.frame.inj h
        refine ⟨stream.take 4, ?_, ?_, ?_⟩
        · rw [List.length_take]
          omega
        · rw [List.length_take]
          omega
        · rw [List.take_append_drop, List.take_append_drop]
  · rintro ⟨header, hlen, hvalue, rfl⟩
    unfold readFrame
    rw [← hlen, readExact_append]
    dsimp only
    rw [hvalue, readExact_append]

/-- A call of `read_frame`, as a scanner: the end of the stream is not a payload. -/
def scanFrame : Scanner UInt8 Empty (List UInt8) :=
  fun stream =>
    match readFrame stream with
    | .frame payload rest => .done payload rest
    | .closed => .more
    | .failed => .more

theorem scanFrame_eq_done {stream payload rest : List UInt8} :
    scanFrame stream = .done payload rest ↔ readFrame stream = .frame payload rest := by
  unfold scanFrame
  cases readFrame stream with
  | frame payload' rest' => simp
  | closed => simp
  | failed => simp

theorem scanFrame_of_end {stream : List UInt8}
    (h : readFrame stream = .closed ∨ readFrame stream = .failed) : scanFrame stream = .more := by
  unfold scanFrame
  rcases h with h | h
  · rw [h]
  · rw [h]

theorem stable_scanFrame : Stable scanFrame := by
  intro stream suffix hmore
  cases hscan : scanFrame stream with
  | more => exact absurd hscan hmore
  | fail error => cases error
  | done payload rest =>
    obtain ⟨header, hlen, hvalue, rfl⟩ := readFrame_eq_frame.mp (scanFrame_eq_done.mp hscan)
    refine scanFrame_eq_done.mpr (readFrame_eq_frame.mpr ⟨header, hlen, hvalue, ?_⟩)
    simp only [List.append_assoc]

theorem consumes_scanFrame : Consumes 4 scanFrame := by
  intro stream payload rest h
  obtain ⟨header, hlen, -, rfl⟩ := readFrame_eq_frame.mp (scanFrame_eq_done.mp h)
  refine ⟨header ++ payload, ?_, (List.append_assoc _ _ _).symm⟩
  rw [List.length_append]
  omega

/-- The decoder of a connection between nodes. -/
def frames : Decoder UInt8 Empty (List UInt8) where
  run := scanFrame
  stable := stable_scanFrame
  consumes := consumes_scanFrame.mono (by decide)

/-- Call `read_frame` again and again: the payloads, and what the last call returned. -/
def readFrames (stream : List UInt8) : List (List UInt8) × Received :=
  match frames.serve stream [] with
  | (payloads, .hungUp leftover) => (payloads, readFrame leftover)

theorem readFrames_of_frame {stream payload rest : List UInt8}
    (h : readFrame stream = .frame payload rest) :
    readFrames stream = (payload :: (readFrames rest).1, (readFrames rest).2) := by
  have hrun : frames.run stream = .done payload rest := scanFrame_eq_done.mpr h
  unfold readFrames
  rw [Decoder.serve_of_done hrun]
  rcases frames.serve rest [] with ⟨payloads, leftover | error⟩
  · rfl
  · cases error

theorem readFrames_of_end {stream : List UInt8}
    (h : readFrame stream = .closed ∨ readFrame stream = .failed) :
    readFrames stream = ([], readFrame stream) := by
  have hrun : frames.run stream = .more := scanFrame_of_end h
  unfold readFrames
  rw [Decoder.serve_of_more hrun]

/-- A payload whose length has room, in front of a stream. -/
theorem readFrames_writeFrame_append {payload : List UInt8} (h : payload.length < u32Count)
    (rest : List UInt8) :
    readFrames (writeFrame payload ++ rest) =
      (payload :: (readFrames rest).1, (readFrames rest).2) :=
  readFrames_of_frame (readFrame_writeFrame_of_lt h rest)

theorem readFrames_nil : readFrames [] = ([], .closed) :=
  readFrames_of_end (Or.inl rfl)

/-- **Wherever the stream is cut, the first payloads are read.** -/
theorem readFrames_take {payloads : List (List UInt8)}
    (h : ∀ payload ∈ payloads, payload.length < u32Count) (n : ℕ) :
    (readFrames ((writeFrames payloads).take n)).1 <+: payloads := by
  induction payloads generalizing n with
  | nil =>
    rw [writeFrames, List.flatMap_nil, List.take_nil, readFrames_nil]
  | cons payload payloads ih =>
    obtain ⟨hfirst, hlater⟩ := List.forall_mem_cons.mp h
    rw [writeFrames, List.flatMap_cons]
    by_cases hn : n < (writeFrame payload).length
    · -- the first payload is cut, and nothing is read
      rw [List.take_append_of_le_length hn.le, readFrames_of_end (readFrame_take hfirst hn)]
      exact List.nil_prefix
    · obtain ⟨k, rfl⟩ : ∃ k, n = (writeFrame payload).length + k :=
        ⟨n - (writeFrame payload).length, by omega⟩
      rw [List.take_length_add_append, readFrames_writeFrame_append hfirst]
      exact List.cons_prefix_cons.mpr ⟨rfl, ih hlater k⟩

theorem readFrames_writeFrames {payloads : List (List UInt8)}
    (h : ∀ payload ∈ payloads, payload.length < u32Count) :
    readFrames (writeFrames payloads) = (payloads, .closed) := by
  induction payloads with
  | nil => exact readFrames_nil
  | cons payload payloads ih =>
    obtain ⟨hfirst, hlater⟩ := List.forall_mem_cons.mp h
    have hrest := ih hlater
    rw [writeFrames] at hrest
    rw [writeFrames, List.flatMap_cons, readFrames_writeFrame_append hfirst, hrest]

/-- A sequence of payloads that is read back is one whose lengths have room. -/
theorem length_lt_of_readFrames {payloads : List (List UInt8)}
    (h : (readFrames (writeFrames payloads)).1 = payloads) :
    ∀ payload ∈ payloads, payload.length < u32Count := by
  induction payloads with
  | nil => exact fun payload hmem => absurd hmem List.not_mem_nil
  | cons payload payloads ih =>
    rw [writeFrames, List.flatMap_cons, readFrames_of_frame (readFrame_writeFrame payload _)] at h
    obtain ⟨hfirst, hlater⟩ := List.cons.inj h
    -- what is read first is as long as its length has room for
    have hlength := congrArg List.length hfirst
    have hlt : payload.length % u32Count < u32Count := Nat.mod_lt _ (by decide)
    rw [List.length_take, List.length_append] at hlength
    have hroom : payload.length < u32Count := by omega
    rw [Nat.mod_eq_of_lt hroom, List.drop_left] at hlater
    exact List.forall_mem_cons.mpr ⟨hroom, ih hlater⟩

/-- **Nothing is lost or altered between nodes exactly if every payload is shorter than `2 ^ 32`
bytes**: the payloads and a clean end are read from the whole stream, and the first payloads from
every first part of it. -/
theorem readFrames_writeFrames_iff (payloads : List (List UInt8)) :
    ((∀ n, (readFrames ((writeFrames payloads).take n)).1 <+: payloads) ∧
        readFrames (writeFrames payloads) = (payloads, .closed)) ↔
      ∀ payload ∈ payloads, payload.length < u32Count := by
  constructor
  · rintro ⟨-, hall⟩
    exact length_lt_of_readFrames (by rw [hall])
  · intro h
    exact ⟨readFrames_take h, readFrames_writeFrames h⟩

theorem readFrames_replicate (k : ℕ) :
    readFrames (List.replicate (4 * k) 0) = (List.replicate k [], .closed) := by
  induction k with
  | zero => exact readFrames_nil
  | succ k ih =>
    have hsplit : List.replicate (4 * (k + 1)) (0 : UInt8) =
        writeFrame [] ++ List.replicate (4 * k) 0 := by
      rw [show 4 * (k + 1) = 4 + 4 * k by omega, List.replicate_add]
      rfl
    rw [hsplit, readFrames_writeFrame_append (by decide), ih, List.replicate_succ]

/-- A payload of `2 ^ 32` zeros is read as many empty payloads and a clean end. -/
theorem readFrames_zeros :
    readFrames (writeFrames [List.replicate u32Count 0]) =
        (List.replicate 1073741825 [], .closed) ∧
      ¬(readFrames (writeFrames [List.replicate u32Count 0])).1 <+:
        [List.replicate u32Count 0] := by
  have hlength : (List.replicate u32Count (0 : UInt8)).length % u32Count = 0 := by
    rw [List.length_replicate, Nat.mod_self]
  have hwrite : writeFrames [List.replicate u32Count 0] = List.replicate (4 * 1073741825) 0 := by
    rw [writeFrames, List.flatMap_singleton, writeFrame, hlength,
      show 4 * 1073741825 = 4 + u32Count by decide, List.replicate_add]
    rfl
  have hread : readFrames (writeFrames [List.replicate u32Count 0]) =
      (List.replicate 1073741825 [], .closed) := by
    rw [hwrite, readFrames_replicate]
  refine ⟨hread, fun hpre => ?_⟩
  rw [hread] at hpre
  have hle := hpre.length_le
  rw [List.length_replicate, List.length_singleton] at hle
  omega

/-! ### Messages -/

/-- The serialization of a message with its sender, which is that of `serde_json` in the source. -/
structure WireCodec where
  encode : NodeId × Message → List UInt8
  /-- A payload that does not decode is dropped. -/
  decode : List UInt8 → Option (NodeId × Message)
  decode_encode : ∀ wire, decode (encode wire) = some wire

/-- What the driver gets from a connection. -/
def readConnection (codec : WireCodec) (stream : List UInt8) : List (NodeId × Message) :=
  (readFrames stream).1.filterMap codec.decode

/-- **A connection delivers the first messages that were written to it**, wherever it breaks, if
they are shorter than `2 ^ 32` bytes. -/
theorem readConnection_take (codec : WireCodec) {messages : List (NodeId × Message)}
    (h : ∀ wire ∈ messages, (codec.encode wire).length < u32Count) (n : ℕ) :
    readConnection codec ((writeFrames (messages.map codec.encode)).take n) <+: messages := by
  have hlengths : ∀ payload ∈ messages.map codec.encode, payload.length < u32Count := by
    intro payload hpayload
    obtain ⟨wire, hwire, rfl⟩ := List.mem_map.mp hpayload
    exact h wire hwire
  have hdecode : (messages.map codec.encode).filterMap codec.decode = messages := by
    rw [List.filterMap_map]
    refine (List.filterMap_congr fun wire _ => ?_).trans List.filterMap_some
    exact codec.decode_encode wire
  have hframes := (readFrames_take hlengths n).filterMap codec.decode
  rw [hdecode] at hframes
  exact hframes

end Ferrium.Peer
