import Ferrium.Net.Peer
import Ferrium.Storage.Apply
import Mathlib.Data.List.Perm.Subperm

/-!
# The link to a peer

Embedding of `peer_link` and `read_connection` of `src/net/peer.rs`, byte by byte. The sender takes
one message after the other out of a channel, connects if it has no connection, and writes the
message as a frame; if the connection cannot be made or the frame cannot be written, the message is
lost. The bytes of a connection arrive in their order and in pieces of any size, until the
connection breaks; the receiver forwards a message as soon as its frame is complete.

The sender learns that a connection is broken only when a write fails, and it may have written
several frames in vain before. A connection that it has given up may still have bytes on their way,
which arrive besides those of the next connection.

What a link carries is `onTheWay`: the messages that are still to be forwarded if nothing else
happens to it.

## Main results

* `Link.Sound.transmit`, `Link.Sound.arrive`, `Link.Sound.cut`: nothing gets on its way but what is
  in the channel, and nothing twice;
* `Link.Unbroken.transmit`, `Link.Unbroken.arrive`: on a link whose connection holds nothing is
  lost, and everything stays in order.
-/

namespace Ferrium.Peer

open Incremental List

/-! ### Buffers -/

/-- The first payloads of a buffer, `fuel` of them at most, and what is behind them. -/
def completeWithin : ℕ → List UInt8 → List (List UInt8) × List UInt8
  | 0, buffer => ([], buffer)
  | fuel + 1, buffer =>
    match readFrame buffer with
    | .frame payload rest =>
      let later := completeWithin fuel rest
      (payload :: later.1, later.2)
    -- the rest of the frame has not arrived
    | .closed | .failed => ([], buffer)

/-- The payloads that are complete in a buffer, and what is left of it. A frame takes four bytes or
more, so the buffer is fuel enough. -/
def complete (buffer : List UInt8) : List (List UInt8) × List UInt8 :=
  completeWithin buffer.length buffer

theorem serve_eq_completeWithin {fuel : ℕ} {buffer : List UInt8} (h : buffer.length ≤ fuel) :
    frames.serve buffer [] =
      ((completeWithin fuel buffer).1, .hungUp (completeWithin fuel buffer).2) := by
  induction fuel generalizing buffer with
  | zero =>
    obtain rfl := List.length_eq_zero_iff.mp (Nat.le_zero.mp h)
    have hend : readFrame [] = .closed := rfl
    have hrun : frames.run [] = .more := scanFrame_of_end (Or.inl hend)
    rw [Decoder.serve_of_more hrun, completeWithin]
  | succ fuel ih =>
    rw [completeWithin]
    cases hread : readFrame buffer with
    | frame payload rest =>
      have hrun : frames.run buffer = .done payload rest := scanFrame_eq_done.mpr hread
      have hshort := frames.consumes.length_le hrun
      rw [Decoder.serve_of_done hrun, ih (by omega)]
    | closed =>
      have hrun : frames.run buffer = .more := scanFrame_of_end (Or.inl hread)
      rw [Decoder.serve_of_more hrun]
    | failed =>
      have hrun : frames.run buffer = .more := scanFrame_of_end (Or.inr hread)
      rw [Decoder.serve_of_more hrun]

theorem serve_eq_complete (buffer : List UInt8) :
    frames.serve buffer [] = ((complete buffer).1, .hungUp (complete buffer).2) :=
  serve_eq_completeWithin (le_refl buffer.length)

theorem readFrames_fst (stream : List UInt8) : (readFrames stream).1 = (complete stream).1 := by
  rw [readFrames, serve_eq_complete]

theorem complete_nil : complete [] = ([], []) :=
  rfl

/-- **A buffer can be read in two pieces.** -/
theorem complete_append (buffer suffix : List UInt8) :
    complete (buffer ++ suffix) =
      ((complete buffer).1 ++ (complete ((complete buffer).2 ++ suffix)).1,
        (complete ((complete buffer).2 ++ suffix)).2) := by
  have happend := Decoder.serve_append (serve_eq_complete buffer) suffix
  rw [serve_eq_complete, serve_eq_complete] at happend
  obtain ⟨hpayloads, hleft⟩ := Prod.mk.inj happend
  exact Prod.ext hpayloads (Ending.hungUp.inj hleft)

theorem complete_writeFrame {payload : List UInt8} (h : payload.length < u32Count) :
    complete (writeFrame payload) = ([payload], []) := by
  have hrun : frames.run (writeFrame payload) = .done payload [] := by
    have hread := readFrame_writeFrame_of_lt h []
    rw [List.append_nil] at hread
    exact scanFrame_eq_done.mpr hread
  have hserve := serve_eq_complete (writeFrame payload)
  rw [Decoder.serve_of_done hrun, serve_eq_complete [], complete_nil] at hserve
  obtain ⟨hpayloads, hleft⟩ := Prod.mk.inj hserve
  ext1
  · exact hpayloads.symm
  · exact (Ending.hungUp.inj hleft).symm

/-- Of a frame that is cut, nothing is read, unless nothing is missing. -/
theorem complete_take_writeFrame {payload : List UInt8} (h : payload.length < u32Count) (n : ℕ) :
    (complete ((writeFrame payload).take n)).1 <+: [payload] := by
  have hfits : ∀ payload' ∈ [payload], payload'.length < u32Count := fun payload' hmem =>
    List.mem_singleton.mp hmem ▸ h
  have htake := readFrames_take hfits n
  rwa [readFrames_fst, writeFrames, List.flatMap_singleton] at htake

/-! ### Connections -/

/-- A connection, as far as it has not been read. -/
structure Connection where
  /-- What has been written and has not arrived. -/
  inFlight : List UInt8
  /-- What has arrived and is not a whole frame. -/
  buffer : List UInt8
  /-- Nothing that is written from now on will arrive. -/
  broken : Bool
  deriving DecidableEq, Repr

namespace Connection

/-- A connection that was just made. -/
def new : Connection where
  inFlight := []
  buffer := []
  broken := false

/-- The sender writes bytes. -/
def write (bytes : List UInt8) (self : Connection) : Connection :=
  if self.broken then self else { self with inFlight := self.inFlight ++ bytes }

/-- The connection breaks; `n` of the bytes that are on their way still arrive. -/
def cut (n : ℕ) (self : Connection) : Connection :=
  { self with inFlight := self.inFlight.take n, broken := true }

/-- What is still to be read. -/
def unread (self : Connection) : List UInt8 :=
  self.buffer ++ self.inFlight

variable (codec : WireCodec)

/-- The loop of `read_connection` for the next `n` bytes: what it forwards to the driver. -/
def arrive (n : ℕ) (self : Connection) : Connection × List (NodeId × Message) :=
  let read := complete (self.buffer ++ self.inFlight.take n)
  ({ self with inFlight := self.inFlight.drop n, buffer := read.2 },
    read.1.filterMap codec.decode)

/-- The messages that are still to be forwarded. -/
def rest (self : Connection) : List (NodeId × Message) :=
  (complete self.unread).1.filterMap codec.decode

/-- What was written is a number of whole frames. -/
def Whole (self : Connection) : Prop :=
  (complete self.unread).2 = []

variable {codec} {c : Connection} {wire : NodeId × Message} {n : ℕ}

theorem rest_new : new.rest codec = [] := by
  show (complete []).1.filterMap codec.decode = []
  rw [complete_nil, List.filterMap_nil]

theorem whole_new : new.Whole := by
  show (complete []).2 = []
  rw [complete_nil]

theorem unread_write (hbroken : c.broken = false) (bytes : List UInt8) :
    (c.write bytes).unread = c.unread ++ bytes := by
  unfold write unread
  rw [hbroken]
  exact (List.append_assoc _ _ _).symm

/-- What is forwarded, and what then remains, is what was to be forwarded. -/
theorem rest_arrive (n : ℕ) (c : Connection) :
    (c.arrive codec n).2 ++ (c.arrive codec n).1.rest codec = c.rest codec := by
  have hsplit : c.unread = c.buffer ++ c.inFlight.take n ++ c.inFlight.drop n := by
    rw [unread, List.append_assoc, List.take_append_drop]
  unfold rest
  rw [hsplit, complete_append, List.filterMap_append]
  rfl

theorem Whole.arrive (h : c.Whole) (n : ℕ) : (c.arrive codec n).1.Whole := by
  have hsplit : c.unread = c.buffer ++ c.inFlight.take n ++ c.inFlight.drop n := by
    rw [unread, List.append_assoc, List.take_append_drop]
  unfold Whole at h
  rw [hsplit, complete_append] at h
  exact h

/-- A connection that breaks loses what was written last. -/
theorem rest_cut (n : ℕ) (c : Connection) : (c.cut n).rest codec <+: c.rest codec := by
  have hsplit : c.unread = (c.cut n).unread ++ c.inFlight.drop n := by
    show c.buffer ++ c.inFlight = c.buffer ++ c.inFlight.take n ++ c.inFlight.drop n
    rw [List.append_assoc, List.take_append_drop]
  unfold rest
  rw [hsplit, complete_append, List.filterMap_append]
  exact List.prefix_append _ _

variable (hfits : (codec.encode wire).length < u32Count)
include hfits

/-- A frame that is written is the next message. -/
theorem Whole.write (h : c.Whole) (hbroken : c.broken = false) :
    (c.write (writeFrame (codec.encode wire))).rest codec = c.rest codec ++ [wire] ∧
      (c.write (writeFrame (codec.encode wire))).Whole := by
  have hread : complete (c.unread ++ writeFrame (codec.encode wire)) =
      ((complete c.unread).1 ++ [codec.encode wire], []) := by
    rw [complete_append, show (complete c.unread).2 = [] from h, List.nil_append,
      complete_writeFrame hfits]
  unfold rest Whole
  rw [unread_write hbroken, hread, List.filterMap_append]
  exact ⟨by simp [codec.decode_encode], rfl⟩

/-- A frame that is written as far as `n` bytes is at most the next message. -/
theorem rest_write_take (h : c.broken = false → c.Whole) (n : ℕ) :
    (c.write ((writeFrame (codec.encode wire)).take n)).rest codec <+: c.rest codec ++ [wire] := by
  cases hbroken : c.broken with
  | true =>
    rw [write, if_pos hbroken]
    exact List.prefix_append _ _
  | false =>
    have hwhole : (complete c.unread).2 = [] := h hbroken
    have hcut := (complete_take_writeFrame hfits n).filterMap codec.decode
    rw [List.filterMap_cons_some (codec.decode_encode wire), List.filterMap_nil] at hcut
    unfold rest
    rw [unread_write hbroken, complete_append, hwhole, List.nil_append, List.filterMap_append]
    exact (List.prefix_append_right_inj _).mpr hcut

end Connection

/-! ### Links -/

/-- The link from a node to a peer. -/
structure Link where
  /-- The channel `rx`. -/
  queue : List Message
  /-- The connection of the sender. -/
  conn : Option Connection
  /-- The connections that it has given up. -/
  closed : List Connection

namespace Link

/-- A link that has never been used. -/
def new : Link where
  queue := []
  conn := none
  closed := []

/-- `tx.send(message)`. -/
def enqueue (message : Message) (self : Link) : Link :=
  { self with queue := self.queue ++ [message] }

/-- Several messages are put into the channel. -/
def enqueueAll (messages : List Message) (self : Link) : Link :=
  { self with queue := self.queue ++ messages }

/-- A connection of the link: the one of the sender, or one that it has given up. -/
def slot (which : Option ℕ) (self : Link) : Option Connection :=
  match which with
  | none => self.conn
  | some k => self.closed[k]?

/-- Put a connection into its place. -/
def setSlot (which : Option ℕ) (c : Connection) (self : Link) : Link :=
  match which with
  | none => { self with conn := some c }
  | some k => { self with closed := self.closed.set k c }

/-- A connection breaks. -/
def cut (which : Option ℕ) (n : ℕ) (self : Link) : Link :=
  match self.slot which with
  | none => self
  | some c => self.setSlot which (c.cut n)

variable (codec : WireCodec) (src : NodeId)

/-- A round of the loop of `peer_link`. A connection can be made if `connects` is set; `fails` says
after how many bytes the frame could not be written. -/
def transmit (connects : Bool) (fails : Option ℕ) (self : Link) : Link :=
  match self.queue with
  | [] => self
  | message :: queue =>
    let bytes := writeFrame (codec.encode (src, message))
    -- (Re)establish the connection on demand.
    let conn := self.conn.or (if connects then some Connection.new else none)
    match conn, fails with
    | some stream, none => { self with queue, conn := some (stream.write bytes) }
    | some stream, some n =>
      { queue, conn := none, closed := self.closed ++ [stream.write (bytes.take n)] }
    -- Peer unreachable.
    | none, _ => { self with queue, conn := none }

/-- The next `n` bytes of a connection arrive. -/
def arrive (which : Option ℕ) (n : ℕ) (self : Link) : Link × List (NodeId × Message) :=
  match self.slot which with
  | none => (self, [])
  | some c => (self.setSlot which (c.arrive codec n).1, (c.arrive codec n).2)

/-- What is still to be forwarded of what was written. -/
def rest (self : Link) : List (NodeId × Message) :=
  self.closed.flatMap (Connection.rest codec) ++
    self.conn.toList.flatMap (Connection.rest codec)

/-- The messages that are still to be forwarded. -/
def onTheWay (self : Link) : List Message :=
  (self.rest codec).map Prod.snd ++ self.queue

/-- What a link from `src` keeps: every message in the channel fits into a frame, the sender has
written whole frames to a connection that is not broken, and every message that is to be forwarded
is from `src`. -/
structure Sound (link : Link) : Prop where
  fits : ∀ message ∈ link.queue, (codec.encode (src, message)).length < u32Count
  whole : ∀ c ∈ link.conn, c.broken = false → c.Whole
  named : ∀ wire ∈ link.rest codec, wire.1 = src

variable {codec src} {link : Link} {which : Option ℕ} {c c' : Connection}

theorem cut_of_slot (h : link.slot which = some c) (n : ℕ) :
    link.cut which n = link.setSlot which (c.cut n) := by
  rw [cut, h]

theorem arrive_of_slot (h : link.slot which = some c) (n : ℕ) :
    link.arrive codec which n =
      (link.setSlot which (c.arrive codec n).1, (c.arrive codec n).2) := by
  rw [arrive, h]

section Transmit

variable {message : Message} {queue : List Message} {connects : Bool} {stream : Connection}

theorem transmit_of_written (hqueue : link.queue = message :: queue)
    (hstream : link.conn.or (if connects then some Connection.new else none) = some stream) :
    link.transmit codec src connects none =
      { link with
        queue, conn := some (stream.write (writeFrame (codec.encode (src, message)))) } := by
  simp only [transmit, hqueue, hstream]

theorem transmit_of_failed (hqueue : link.queue = message :: queue)
    (hstream : link.conn.or (if connects then some Connection.new else none) = some stream)
    (n : ℕ) :
    link.transmit codec src connects (some n) =
      { queue
        conn := none
        closed := link.closed ++
          [stream.write ((writeFrame (codec.encode (src, message))).take n)] } := by
  simp only [transmit, hqueue, hstream]

theorem transmit_of_unreachable (hqueue : link.queue = message :: queue)
    (hstream : link.conn.or (if connects then some Connection.new else none) = none)
    (fails : Option ℕ) :
    link.transmit codec src connects fails = { link with queue, conn := none } := by
  simp only [transmit, hqueue, hstream]

end Transmit

theorem sound_new : new.Sound codec src where
  fits _ hmem := absurd hmem List.not_mem_nil
  whole _ hmem := absurd hmem (Option.not_mem_none _)
  named _ hmem := absurd hmem List.not_mem_nil

theorem queue_setSlot (which : Option ℕ) (c : Connection) (link : Link) :
    (link.setSlot which c).queue = link.queue := by
  cases which <;> rfl

/-- A connection is exchanged for another one. -/
theorem rest_setSlot (h : link.slot which = some c) (c' : Connection) :
    ((link.setSlot which c').rest codec ++ c.rest codec).Perm
      (link.rest codec ++ c'.rest codec) := by
  cases which with
  | none =>
    have hconn : link.conn = some c := h
    simp only [rest, setSlot, hconn, Option.toList_some, List.flatMap_singleton, List.append_assoc]
    exact List.perm_append_comm.append_left _
  | some k =>
    obtain ⟨hk, hget⟩ := List.getElem?_eq_some_iff.mp h
    -- the connections before and after it do not change
    have hold : link.closed = link.closed.take k ++ c :: link.closed.drop (k + 1) := by
      rw [← hget, ← List.drop_eq_getElem_cons hk, List.take_append_drop]
    have hnew := List.set_eq_take_append_cons_drop (l := link.closed) (i := k) (a := c')
    rw [if_pos hk] at hnew
    simp only [rest, setSlot, hnew]
    rw [List.perm_iff_count]
    intro wire
    nth_rewrite 3 [hold]
    simp only [List.flatMap_append, List.flatMap_cons, List.count_append]
    omega

/-- A connection is exchanged for one that has `gone` less to come. -/
theorem rest_setSlot_of_perm {gone : List (NodeId × Message)} (h : link.slot which = some c)
    (hrest : (c.rest codec).Perm (gone ++ c'.rest codec)) :
    (gone ++ (link.setSlot which c').rest codec).Perm (link.rest codec) := by
  rw [← List.perm_append_right_iff (c'.rest codec)]
  calc gone ++ (link.setSlot which c').rest codec ++ c'.rest codec
      _ ~ (link.setSlot which c').rest codec ++ gone ++ c'.rest codec :=
        List.perm_append_comm.append_right _
      _ = (link.setSlot which c').rest codec ++ (gone ++ c'.rest codec) := List.append_assoc _ _ _
      _ ~ (link.setSlot which c').rest codec ++ c.rest codec := hrest.symm.append_left _
      _ ~ link.rest codec ++ c'.rest codec := rest_setSlot h c'

theorem rest_subset_of_slot (h : link.slot which = some c) : c.rest codec ⊆ link.rest codec := by
  intro wire hwire
  cases which with
  | none =>
    have hconn : c ∈ link.conn.toList := Option.mem_toList.mpr h
    exact List.mem_append_right _ (List.mem_flatMap.mpr ⟨c, hconn, hwire⟩)
  | some k =>
    have hclosed : c ∈ link.closed := List.mem_of_getElem? h
    exact List.mem_append_left _ (List.mem_flatMap.mpr ⟨c, hclosed, hwire⟩)

/-! ### What a link keeps -/

theorem onTheWay_enqueueAll (messages : List Message) (link : Link) :
    (link.enqueueAll messages).onTheWay codec = link.onTheWay codec ++ messages :=
  (List.append_assoc _ _ _).symm

namespace Sound

variable (h : link.Sound codec src)
include h

theorem enqueueAll {messages : List Message}
    (hfits : ∀ message ∈ messages, (codec.encode (src, message)).length < u32Count) :
    (link.enqueueAll messages).Sound codec src where
  fits message hmem := by
    rcases List.mem_append.mp hmem with hold | hnew
    · exact h.fits message hold
    · exact hfits message hnew
  whole := h.whole
  named := h.named

/-- A connection is exchanged for one with less to come. -/
theorem setSlot (hslot : link.slot which = some c) (hrest : c'.rest codec ⊆ c.rest codec)
    (hwhole : (c.broken = false → c.Whole) → c'.broken = false → c'.Whole) :
    (link.setSlot which c').Sound codec src where
  fits message hmem := h.fits message (queue_setSlot which c' link ▸ hmem)
  whole c'' hmem hbroken := by
    cases which with
    | none =>
      obtain rfl : c' = c'' := Option.some.inj hmem
      exact hwhole (h.whole c hslot) hbroken
    | some k => exact h.whole c'' hmem hbroken
  named wire hmem := by
    have hperm : ((link.setSlot which c').rest codec ++ c.rest codec).Perm
        (link.rest codec ++ c'.rest codec) := rest_setSlot hslot c'
    rcases List.mem_append.mp (hperm.subset (List.mem_append_left _ hmem)) with hold | hnew
    · exact h.named wire hold
    · exact h.named wire (rest_subset_of_slot hslot (hrest hnew))

theorem cut (which : Option ℕ) (n : ℕ) :
    (link.cut which n).Sound codec src ∧
      ((link.cut which n).onTheWay codec).Subperm (link.onTheWay codec) := by
  cases hslot : link.slot which with
  | none =>
    rw [Link.cut, hslot]
    exact ⟨h, List.Subperm.refl _⟩
  | some c =>
    rw [cut_of_slot hslot]
    have hcut : (c.cut n).rest codec <+: c.rest codec := Connection.rest_cut n c
    refine ⟨h.setSlot hslot hcut.subset fun _ hbroken => (by cases hbroken), ?_⟩
    obtain ⟨lost, hlost⟩ := hcut
    have hrest := rest_setSlot_of_perm hslot (hlost ▸ List.perm_append_comm)
    unfold onTheWay
    rw [queue_setSlot]
    refine (List.subperm_append_right _).mpr ?_
    exact ((List.sublist_append_right lost _).map Prod.snd).subperm.trans
      (hrest.map Prod.snd).subperm

/-- What arrives is forwarded, and is no longer on its way. -/
theorem arrive (which : Option ℕ) (n : ℕ) :
    (link.arrive codec which n).1.Sound codec src ∧
      (∀ wire ∈ (link.arrive codec which n).2, wire.1 = src) ∧
      ((link.arrive codec which n).2.map Prod.snd ++
        (link.arrive codec which n).1.onTheWay codec).Perm (link.onTheWay codec) := by
  cases hslot : link.slot which with
  | none =>
    rw [Link.arrive, hslot]
    exact ⟨h, fun wire hmem => absurd hmem List.not_mem_nil, List.Perm.refl _⟩
  | some c =>
    rw [arrive_of_slot hslot]
    have hsplit : (c.arrive codec n).2 ++ (c.arrive codec n).1.rest codec = c.rest codec :=
      Connection.rest_arrive n c
    have hforwarded : (c.arrive codec n).2 ⊆ c.rest codec := hsplit ▸ List.subset_append_left _ _
    have hleft : (c.arrive codec n).1.rest codec ⊆ c.rest codec :=
      hsplit ▸ List.subset_append_right _ _
    refine ⟨h.setSlot hslot hleft fun hwhole hbroken => (hwhole hbroken).arrive n,
      fun wire hmem => h.named wire (rest_subset_of_slot hslot (hforwarded hmem)), ?_⟩
    have hrest := rest_setSlot_of_perm hslot (List.Perm.of_eq hsplit.symm)
    unfold onTheWay
    rw [queue_setSlot, ← List.append_assoc, ← List.map_append]
    exact (hrest.map Prod.snd).append_right _

/-- The connection that the next message is written to. -/
theorem stream {connects : Bool} {stream : Connection}
    (hstream : link.conn.or (if connects then some Connection.new else none) = some stream) :
    link.rest codec = link.closed.flatMap (Connection.rest codec) ++ stream.rest codec ∧
      (stream.broken = false → stream.Whole) := by
  cases hconn : link.conn with
  | some c =>
    rw [hconn, Option.some_or] at hstream
    obtain rfl := Option.some.inj hstream
    refine ⟨?_, h.whole c hconn⟩
    rw [Link.rest, hconn, Option.toList_some, List.flatMap_singleton]
  | none =>
    rw [hconn, Option.none_or] at hstream
    split at hstream
    · obtain rfl := Option.some.inj hstream
      refine ⟨?_, fun _ => Connection.whole_new⟩
      rw [Link.rest, hconn, Connection.rest_new]
      rfl
    · cases hstream

/-- A round of the sender puts at most the next message of the channel on its way. -/
theorem transmit (connects : Bool) (fails : Option ℕ) :
    (link.transmit codec src connects fails).Sound codec src ∧
      ((link.transmit codec src connects fails).onTheWay codec).Subperm (link.onTheWay codec) := by
  cases hqueue : link.queue with
  | nil =>
    rw [Link.transmit, hqueue]
    exact ⟨h, List.Subperm.refl _⟩
  | cons message queue =>
    have hfits : (codec.encode (src, message)).length < u32Count :=
      h.fits message (hqueue ▸ List.mem_cons_self)
    have hqueued : ∀ message' ∈ queue, (codec.encode (src, message')).length < u32Count :=
      fun message' hmem => h.fits message' (hqueue ▸ List.mem_cons_of_mem _ hmem)
    -- a link that has at most the next message besides what it had is sound, and carries no more
    have hmain : ∀ link' : Link, link'.queue = queue →
        (∀ c ∈ link'.conn, c.broken = false → c.Whole) →
        (link'.rest codec).Sublist (link.rest codec ++ [(src, message)]) →
        link'.Sound codec src ∧ (link'.onTheWay codec).Subperm (link.onTheWay codec) := by
      intro link' hqueue' hwhole hrest
      refine ⟨⟨hqueue' ▸ hqueued, hwhole, fun wire hmem => ?_⟩, ?_⟩
      · rcases List.mem_append.mp (hrest.subset hmem) with hold | hnew
        · exact h.named wire hold
        · rw [List.mem_singleton.mp hnew]
      · have hle := (hrest.map Prod.snd).append_right queue
        rw [List.map_append, List.append_assoc] at hle
        unfold onTheWay
        rw [hqueue', hqueue]
        exact hle.subperm
    cases hstream : link.conn.or (if connects then some Connection.new else none) with
    | none =>
      have hconn : link.conn = none := (Option.or_eq_none_iff.mp hstream).1
      rw [transmit_of_unreachable hqueue hstream]
      refine hmain _ rfl (fun c hc => absurd hc (Option.not_mem_none c)) ?_
      simp only [Link.rest, hconn]
      exact List.sublist_append_left _ _
    | some stream =>
      obtain ⟨hold, hwhole⟩ := h.stream hstream
      cases fails with
      | none =>
        rw [transmit_of_written hqueue hstream]
        cases hbroken : stream.broken with
        | true =>
          -- the frame is written in vain
          have hvain : stream.write (writeFrame (codec.encode (src, message))) = stream :=
            if_pos hbroken
          rw [hvain]
          refine hmain _ rfl (fun c hc => ?_) ?_
          · obtain rfl := Option.some.inj hc
            exact hwhole
          · rw [hold, Link.rest, Option.toList_some, List.flatMap_singleton]
            exact List.sublist_append_left _ _
        | false =>
          obtain ⟨hwrite, hwhole'⟩ := (hwhole hbroken).write hfits hbroken
          refine hmain _ rfl (fun c hc _ => ?_) ?_
          · obtain rfl := Option.some.inj hc
            exact hwhole'
          · rw [hold, Link.rest, Option.toList_some, List.flatMap_singleton, hwrite,
              List.append_assoc]
      | some n =>
        rw [transmit_of_failed hqueue hstream]
        have hwrite := Connection.rest_write_take hfits hwhole n
        refine hmain _ rfl (fun c hc => absurd hc (Option.not_mem_none c)) ?_
        rw [hold, List.append_assoc]
        simp only [Link.rest, List.flatMap_append, List.flatMap_singleton, Option.toList_none,
          List.flatMap_nil, List.append_nil]
        exact hwrite.sublist.append_left _

end Sound

/-! ### A connection that holds -/

/-- The link has had one connection at most, and it holds. -/
structure Unbroken (link : Link) : Prop where
  closed : link.closed = []
  conn : ∀ c ∈ link.conn, c.broken = false

theorem unbroken_new : new.Unbroken where
  closed := rfl
  conn _ hmem := absurd hmem (Option.not_mem_none _)

namespace Unbroken

variable (h : link.Unbroken)
include h

theorem rest_eq : link.rest codec = link.conn.toList.flatMap (Connection.rest codec) := by
  rw [Link.rest, h.closed, List.flatMap_nil, List.nil_append]

/-- **Nothing is lost on the side of the sender.** -/
theorem transmit (hsound : link.Sound codec src) :
    (link.transmit codec src true none).Unbroken ∧
      (link.transmit codec src true none).onTheWay codec = link.onTheWay codec := by
  cases hqueue : link.queue with
  | nil =>
    rw [Link.transmit, hqueue]
    exact ⟨h, rfl⟩
  | cons message queue =>
    have hfits : (codec.encode (src, message)).length < u32Count :=
      hsound.fits message (hqueue ▸ List.mem_cons_self)
    obtain ⟨stream, hstream, hbroken⟩ : ∃ stream,
        link.conn.or (if true then some Connection.new else none) = some stream ∧
          stream.broken = false := by
      cases hconn : link.conn with
      | none => exact ⟨Connection.new, rfl, rfl⟩
      | some c => exact ⟨c, rfl, h.conn c hconn⟩
    obtain ⟨hold, hwhole⟩ := hsound.stream hstream
    obtain ⟨hwrite, -⟩ := (hwhole hbroken).write hfits hbroken
    rw [transmit_of_written hqueue hstream]
    refine ⟨⟨h.closed, fun c hc => ?_⟩, ?_⟩
    · obtain rfl := Option.some.inj hc
      rw [Connection.write, if_neg (by rw [hbroken]; decide)]
      exact hbroken
    · unfold onTheWay
      rw [hold, hqueue, Link.rest, Option.toList_some, List.flatMap_singleton, hwrite]
      simp only [List.map_append, List.append_assoc, List.map_cons, List.map_nil, List.cons_append,
        List.nil_append]

/-- **Nothing is lost on the side of the receiver**, and everything is forwarded in order. -/
theorem arrive (which : Option ℕ) (n : ℕ) :
    (link.arrive codec which n).1.Unbroken ∧
      (link.arrive codec which n).2.map Prod.snd ++
        (link.arrive codec which n).1.onTheWay codec = link.onTheWay codec := by
  cases hslot : link.slot which with
  | none =>
    rw [Link.arrive, hslot]
    exact ⟨h, rfl⟩
  | some c =>
    rw [arrive_of_slot hslot]
    cases which with
    | some k =>
      -- there is no connection that was given up
      have hget : link.closed[k]? = some c := hslot
      rw [h.closed] at hget
      cases hget
    | none =>
      have hconn : link.conn = some c := hslot
      refine ⟨⟨h.closed, fun c' hc' => ?_⟩, ?_⟩
      · obtain rfl := Option.some.inj hc'
        exact h.conn c hconn
      · have hsplit : (c.arrive codec n).2 ++ (c.arrive codec n).1.rest codec = c.rest codec :=
          Connection.rest_arrive n c
        unfold onTheWay
        rw [h.rest_eq, hconn, Option.toList_some, List.flatMap_singleton, ← hsplit,
          List.map_append, List.append_assoc]
        simp only [Link.rest, Link.setSlot, h.closed, Option.toList_some, List.flatMap_nil,
          List.flatMap_singleton, List.nil_append]

end Unbroken

end Link

/-! ### A codec to run examples with -/

namespace WireCodec

open Codec

/-- A number, in unary. -/
def tally (n : ℕ) : List ℕ :=
  List.replicate n 0

/-- Pairs of lists, one after the other. -/
def pairUp : List (List ℕ) → Option (List (List ℕ × List ℕ))
  | [] => some []
  | first :: second :: rest => (pairUp rest).map ((first, second) :: ·)
  | [_] => none

theorem pairUp_flatMap {α : Type*} (f g : α → List ℕ) (l : List α) :
    pairUp (l.flatMap fun a => [f a, g a]) = some (l.map fun a => (f a, g a)) := by
  induction l with
  | nil => rfl
  | cons a l ih =>
    rw [List.flatMap_cons, List.map_cons]
    exact congrArg (Option.map ((f a, g a) :: ·)) ih

/-- The lists for a message. -/
def toLists : Message → List (List ℕ)
  | .requestVote m =>
    [[0], tally m.term, codes m.candidateId, tally m.lastLogIndex, tally m.lastLogTerm]
  | .requestVoteReply m => [[1], tally m.term, codes m.voterId, [m.voteGranted.toNat]]
  | .appendEntries m =>
    [2] :: tally m.term :: codes m.leaderId :: tally m.prevLogIndex :: tally m.prevLogTerm ::
      tally m.leaderCommit ::
      m.entries.flatMap fun e => [tally e.term, e.command.map UInt8.toNat]
  | .appendEntriesReply m =>
    [[3], tally m.term, codes m.followerId, [m.success.toNat], tally m.matchIndex,
      tally m.conflictIndex]
  | .installSnapshot m =>
    [4] :: tally m.term :: codes m.leaderId :: tally m.lastIncludedIndex ::
      tally m.lastIncludedTerm ::
      m.data.flatMap fun kv => [codes kv.1, kv.2.map UInt8.toNat]
  | .installSnapshotReply m => [[5], tally m.term, codes m.followerId]

/-- The message for lists. -/
def ofLists : List (List ℕ) → Option Message
  | [[0], term, candidate, index, lastTerm] =>
    some (.requestVote ⟨term.length, ofCodes candidate, index.length, lastTerm.length⟩)
  | [[1], term, voter, granted] =>
    some (.requestVoteReply ⟨term.length, ofCodes voter, granted = [1]⟩)
  | [2] :: term :: leader :: index :: prevTerm :: commit :: entries =>
    (pairUp entries).map fun pairs =>
      .appendEntries ⟨term.length, ofCodes leader, index.length, prevTerm.length,
        pairs.map fun pair => ⟨pair.1.length, pair.2.map UInt8.ofNat⟩, commit.length⟩
  | [[3], term, follower, success, index, conflict] =>
    some (.appendEntriesReply ⟨term.length, ofCodes follower, success = [1], index.length,
      conflict.length⟩)
  | [4] :: term :: leader :: index :: lastTerm :: data =>
    (pairUp data).map fun pairs =>
      .installSnapshot ⟨term.length, ofCodes leader, index.length, lastTerm.length,
        pairs.map fun pair => (ofCodes pair.1, pair.2.map UInt8.ofNat)⟩
  | [[5], term, follower] => some (.installSnapshotReply ⟨term.length, ofCodes follower⟩)
  | _ => none

theorem ofLists_toLists (message : Message) : ofLists (toLists message) = some message := by
  cases message with
  | requestVote m => simp [toLists, ofLists, tally]
  | requestVoteReply m =>
    obtain ⟨term, voter, granted⟩ := m
    cases granted <;> simp [toLists, ofLists, tally]
  | appendEntries m => simp [toLists, ofLists, tally, pairUp_flatMap, Function.comp_def]
  | appendEntriesReply m =>
    obtain ⟨term, follower, success, index, conflict⟩ := m
    cases success <;> simp [toLists, ofLists, tally]
  | installSnapshot m => simp [toLists, ofLists, tally, pairUp_flatMap, Function.comp_def]
  | installSnapshotReply m => simp [toLists, ofLists, tally]

/-- The numbers of a list have room in three bytes. -/
def Small (list : List ℕ) : Prop :=
  ∀ n ∈ list, n < 16777216

theorem small_tally (n : ℕ) : Small (tally n) := by
  intro k hk
  rw [List.eq_of_mem_replicate hk]
  decide

theorem small_codes (text : String) : Small (codes text) :=
  fun _ hmem => lt_of_mem_codes hmem

theorem small_bytes (bytes : List UInt8) : Small (bytes.map UInt8.toNat) := by
  intro k hk
  obtain ⟨byte, -, rfl⟩ := List.mem_map.mp hk
  exact byte.toNat_lt.trans (by decide)

theorem small_toNat (b : Bool) : Small [b.toNat] := by
  intro k hk
  rw [List.mem_singleton.mp hk]
  exact (Bool.toNat_lt b).trans (by decide)

theorem small_tag {tag : ℕ} (h : tag < 16777216) : Small [tag] := by
  intro k hk
  rwa [List.mem_singleton.mp hk]

theorem small_toLists (message : Message) : ∀ list ∈ toLists message, Small list := by
  cases message with
  | requestVote m =>
    simp only [toLists, List.forall_mem_cons]
    exact ⟨small_tag (by decide), small_tally _, small_codes _, small_tally _, small_tally _,
      fun _ hmem => absurd hmem List.not_mem_nil⟩
  | requestVoteReply m =>
    simp only [toLists, List.forall_mem_cons]
    exact ⟨small_tag (by decide), small_tally _, small_codes _, small_toNat _,
      fun _ hmem => absurd hmem List.not_mem_nil⟩
  | appendEntries m =>
    simp only [toLists, List.forall_mem_cons]
    refine ⟨small_tag (by decide), small_tally _, small_codes _, small_tally _, small_tally _,
      small_tally _, fun list hlist => ?_⟩
    obtain ⟨e, -, hmem⟩ := List.mem_flatMap.mp hlist
    rcases List.mem_pair.mp hmem with rfl | rfl
    · exact small_tally _
    · exact small_bytes _
  | appendEntriesReply m =>
    simp only [toLists, List.forall_mem_cons]
    exact ⟨small_tag (by decide), small_tally _, small_codes _, small_toNat _, small_tally _,
      small_tally _, fun _ hmem => absurd hmem List.not_mem_nil⟩
  | installSnapshot m =>
    simp only [toLists, List.forall_mem_cons]
    refine ⟨small_tag (by decide), small_tally _, small_codes _, small_tally _, small_tally _,
      fun list hlist => ?_⟩
    obtain ⟨kv, -, hmem⟩ := List.mem_flatMap.mp hlist
    rcases List.mem_pair.mp hmem with rfl | rfl
    · exact small_codes _
    · exact small_bytes _
  | installSnapshotReply m =>
    simp only [toLists, List.forall_mem_cons]
    exact ⟨small_tag (by decide), small_tally _, small_codes _,
      fun _ hmem => absurd hmem List.not_mem_nil⟩

/-- The message with its sender, for lists. -/
def ofWireLists : List (List ℕ) → Option (NodeId × Message)
  | sender :: lists => (ofLists lists).map ((ofCodes sender, ·))
  | [] => none

/-- Messages as lists of numbers. -/
def tagged : WireCodec where
  encode wire := encodeLists (codes wire.1 :: toLists wire.2)
  decode bytes := (decodeLists bytes).bind ofWireLists
  decode_encode wire := by
    have hsmall : ∀ list ∈ codes wire.1 :: toLists wire.2, ∀ n ∈ list, n < 16777216 :=
      List.forall_mem_cons.mpr ⟨small_codes wire.1, small_toLists wire.2⟩
    rw [decodeLists_encodeLists hsmall, Option.bind_some, ofWireLists, ofLists_toLists,
      ofCodes_codes, Option.map_some]

end WireCodec

end Ferrium.Peer
