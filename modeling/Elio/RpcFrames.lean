/-
**`rpc_protocol.hpp`: frames on a stream.**

A frame is a header of 19 bytes, the payload, and a checksum over both if the header says so.  There
are three functions that write a frame: two gather the parts from where they are (`writev_exact`,
which advances through the vectors after a write that took only a part), and one copies them into a
buffer and can be cancelled.  `read_frame_bounded` reads the header, checks it, and then reads the
rest.

What the connection does is a list of events: a write takes some bytes, a call has to be repeated
(`EAGAIN`, after which the stream waits until it is ready, or `EINTR`), or it fails.  A read is
given bytes from the front of the stream.

Main definitions:

* `FrameHeader` — the header, with its checks and its bytes;
* `FrameHeader.wire` — the bytes of a frame.

Main results:

* `writeWith_wire` — every way to write puts the bytes of the frame on the wire;
* `readFrameBounded_wire` — the bytes of a frame are read as the frame;
* `frames_round_trip` — **a stream of frames is read as it was written.**
-/

import Elio.Crc32
import Elio.RpcTypes

set_option autoImplicit false

namespace Elio.Rpc

open Elio.Hash
open List

/-! ### Headers -/

/-- `protocol_magic`. -/
def protocolMagic : UInt32 := 0x454C494F

/-- `protocol_version`. -/
def protocolVersion : UInt8 := 1

/-- `frame_header_size`. -/
def frameHeaderSize : ℕ := 19

/-- `checksum_size`. -/
def checksumSize : ℕ := 4

/-- `message_type`. -/
inductive MessageType where
  | request
  | response
  | error
  | ping
  | pong
  | cancel
  deriving DecidableEq, Repr

/-- The type with a value, if there is one. -/
def MessageType.ofByte (raw : UInt8) : Option MessageType :=
  if raw = 0 then some .request
  else if raw = 1 then some .response
  else if raw = 2 then some .error
  else if raw = 3 then some .ping
  else if raw = 4 then some .pong
  else if raw = 5 then some .cancel
  else none

namespace MessageFlags

/-- `has_timeout`. -/
def hasTimeout : UInt8 := 0x01

/-- `has_checksum`. -/
def hasChecksum : UInt8 := 0x02

/-- `no_response`. -/
def noResponse : UInt8 := 0x10

end MessageFlags

/-- `has_flag`. -/
def hasFlag (flags flag : UInt8) : Bool := flags &&& flag ≠ 0

/-- `frame_header`.  A type or flags that came from the wire may have any value. -/
structure FrameHeader where
  magic : UInt32 := protocolMagic
  requestId : UInt32 := 0
  type : UInt8 := 0
  flags : UInt8 := 0
  methodId : UInt32 := 0
  payloadLength : UInt32 := 0
  version : UInt8 := protocolVersion
  deriving DecidableEq, Repr

/-- `has_only_supported_message_flags`. -/
def hasOnlySupportedMessageFlags (flags : UInt8) : Bool :=
  flags &&& (MessageFlags.hasTimeout ||| MessageFlags.hasChecksum ||| MessageFlags.noResponse) = flags

/-- `has_allowed_flags_for_type`. -/
def hasAllowedFlagsForType (type flags : UInt8) : Bool :=
  match MessageType.ofByte type with
  | some .request =>
    flags &&& (MessageFlags.hasTimeout ||| MessageFlags.hasChecksum ||| MessageFlags.noResponse) = flags
  | some _ => flags &&& MessageFlags.hasChecksum = flags
  | none => false

namespace FrameHeader

/-- `has_valid_shape`. -/
def hasValidShape (h : FrameHeader) : Bool :=
  match MessageType.ofByte h.type with
  | some .request => !hasFlag h.flags MessageFlags.hasTimeout || 4 ≤ h.payloadLength.toNat
  | some .response => h.methodId = 0
  | some .error => h.methodId = 0
  | some _ => h.methodId = 0 && h.payloadLength = 0
  | none => false

/-- `is_valid`. -/
def isValid (h : FrameHeader) : Bool :=
  h.magic = protocolMagic && h.version = protocolVersion && (MessageType.ofByte h.type).isSome &&
    hasOnlySupportedMessageFlags h.flags && hasAllowedFlagsForType h.type h.flags &&
    h.hasValidShape && h.payloadLength.toNat ≤ maxMessageSize

/-- `to_bytes`. -/
def toBytes (h : FrameHeader) : List UInt8 :=
  leBytes 4 h.magic.toNat ++ (leBytes 4 h.requestId.toNat ++ (h.type :: h.flags ::
    (leBytes 4 h.methodId.toNat ++ (leBytes 4 h.payloadLength.toNat ++ [h.version]))))

/-- `read_le` of 32 bits. -/
def readWord (data : List UInt8) : UInt32 := UInt32.ofNat (leNat (data.take 4))

/-- `from_bytes`. -/
def fromBytes (data : List UInt8) : FrameHeader where
  magic := readWord data
  requestId := readWord (data.drop 4)
  type := (data.drop 8).headD 0
  flags := (data.drop 9).headD 0
  methodId := readWord (data.drop 10)
  payloadLength := readWord (data.drop 14)
  version := (data.drop 18).headD 0

/-- The header has a checksum behind the payload. -/
def hasChecksum (h : FrameHeader) : Bool := hasFlag h.flags MessageFlags.hasChecksum

end FrameHeader

/-- The addresses of a header and of a payload in memory. -/
structure Addresses where
  header : ℕ
  payload : ℕ

/-- The checksum over a header and a payload, as it is computed in `write_frame` and in
`read_frame_bounded`. -/
def frameChecksum (at_ : Addresses) (header payload : List UInt8) : BitVec 32 :=
  let crc := crc32Update at_.header header 0xFFFFFFFF#32
  let crc := if 0 < payload.length then crc32Update at_.payload payload crc else crc
  crc32Finalize crc

/-! ### Writing -/

/-- What a call of the stream does: it takes bytes, it reports `EAGAIN` and the stream then becomes
ready or does not, it reports `EINTR`, or it fails. -/
inductive WriteEvent where
  | wrote (n : ℕ)
  | again (ready : Bool)
  | interrupted
  | failed
  deriving DecidableEq, Repr

/-- How a write ended, with the events that are left and the bytes that the stream has taken. -/
structure Written where
  ok : Bool
  events : List WriteEvent
  wire : List UInt8
  deriving DecidableEq, Repr

/-- `IOV_MAX`. -/
def iovMax : ℕ := 1024

/-- `INT32_MAX`. -/
def int32Max : ℕ := 2 ^ 31 - 1

/-- The inner loop of `writev_exact`. -/
def advanceVectors : List (List UInt8) → ℕ → List (List UInt8)
  | [], _ => []
  | v :: vs, written =>
    if written = 0 then v :: vs
    else if v.length ≤ written then advanceVectors vs (written - v.length)
    else v.drop written :: vs

/-- The outer loop of `writev_exact`, or none when it waits. -/
def writevLoop : List WriteEvent → List (List UInt8) → List UInt8 → Option Written
  | events, [], wire => some ⟨true, events, wire⟩
  | [], _ :: _, _ => none
  | event :: events, v :: vs, wire =>
    match event with
    | .again true => writevLoop events (v :: vs) wire
    | .again false => some ⟨false, events, wire⟩
    | .interrupted => writevLoop events (v :: vs) wire
    | .failed => some ⟨false, events, wire⟩
    | .wrote n =>
      let batch := ((v :: vs).take iovMax).flatten
      let written := min n batch.length
      if written = 0 then some ⟨false, events, wire⟩
      else writevLoop events (advanceVectors (v :: vs) written) (wire ++ batch.take written)

/-- `writev_exact`, with `result > 0` for the result. -/
def writevExact (events : List WriteEvent) (vectors : List (List UInt8)) : Option Written := do
  let total := vectors.flatten.length
  let written ← writevLoop events vectors []
  return { written with ok := written.ok && total ≤ int32Max && 0 < total }

/-- `write_exactly` with a token, with `result > 0` for the result; a token that is cancelled makes
the write fail. -/
def writeExactlyLoop : List WriteEvent → List UInt8 → List UInt8 → Option Written
  | events, [], wire => some ⟨true, events, wire⟩
  | [], _ :: _, _ => none
  | event :: events, b :: data, wire =>
    match event with
    | .again true => writeExactlyLoop events (b :: data) wire
    | .again false => some ⟨false, events, wire⟩
    | .interrupted => writeExactlyLoop events (b :: data) wire
    | .failed => some ⟨false, events, wire⟩
    | .wrote n =>
      let written := min n (b :: data).length
      if written = 0 then some ⟨false, events, wire⟩
      else writeExactlyLoop events ((b :: data).drop written) (wire ++ (b :: data).take written)

/-- `write_exactly`. -/
def writeExactly (events : List WriteEvent) (data : List UInt8) : Option Written :=
  if int32Max < data.length then some ⟨false, events, []⟩
  else do
    let written ← writeExactlyLoop events data []
    return { written with ok := written.ok && 0 < data.length }

/-- The vectors of a frame. -/
def frameVectors (at_ : Addresses) (header : FrameHeader) (payload : List UInt8) :
    List (List UInt8) :=
  [header.toBytes] ++ (if 0 < payload.length then [payload] else []) ++
    if header.hasChecksum then [leBytes 4 (frameChecksum at_ header.toBytes payload).toNat] else []

/-- `write_frame` of a header and a `buffer_writer`. -/
def writeFrame (at_ : Addresses) (events : List WriteEvent) (header : FrameHeader)
    (payload : List UInt8) : Option Written :=
  writevExact events (frameVectors at_ header payload)

/-- `write_frame` of a header and raw data. -/
def writeFrameRaw (at_ : Addresses) (events : List WriteEvent) (header : FrameHeader)
    (payload : List UInt8) : Option Written :=
  writevExact events (frameVectors at_ header payload)

/-- `write_frame` with a token: the frame is copied into one buffer. -/
def writeFrameCancellable (at_ : Addresses) (events : List WriteEvent) (header : FrameHeader)
    (payload : List UInt8) : Option Written :=
  let frame := header.toBytes ++ (if 0 < payload.length then payload else []) ++
    if header.hasChecksum then leBytes 4 (frameChecksum at_ header.toBytes payload).toNat else []
  writeExactly events frame

/-- The functions that write a frame. -/
inductive WriteMode where
  | gather
  | raw
  | cancellable
  deriving DecidableEq, Repr

/-- A frame is written with one of them. -/
def writeWith : WriteMode → Addresses → List WriteEvent → FrameHeader → List UInt8 → Option Written
  | .gather => writeFrame
  | .raw => writeFrameRaw
  | .cancellable => writeFrameCancellable

/-! ### Reading -/

/-- What a read does: it is given at most so many bytes, or it fares like a write. -/
inductive ReadEvent where
  | got (n : ℕ)
  | again (ready : Bool)
  | interrupted
  | failed
  deriving DecidableEq, Repr

/-- A computation that reads from a stream of bytes, with the events of its reads.  It waits (the
outer option), or it ends with a value or with `std::nullopt`. -/
abbrev StreamReader := OptionT (StateT (List UInt8 × List ReadEvent) Option)

/-- The loop of `read_exactly`.  A read from a stream that is empty finds its end. -/
def readLoop : List ReadEvent → List UInt8 → ℕ →
    Option (Option (List UInt8) × List UInt8 × List ReadEvent)
  | events, stream, 0 => some (some [], stream, events)
  | [], _, _ + 1 => none
  | event :: events, stream, n + 1 =>
    match event with
    | .again true => readLoop events stream (n + 1)
    | .again false => some (none, stream, events)
    | .interrupted => readLoop events stream (n + 1)
    | .failed => some (none, stream, events)
    | .got k =>
      let count := min k (min (n + 1) stream.length)
      if count = 0 then some (none, stream, events)
      else
        (readLoop events (stream.drop count) (n + 1 - count)).map fun (data, rest) =>
          (data.map (stream.take count ++ ·), rest)

/-- `read_exactly`. -/
def readExactly (length : ℕ) : StreamReader (List UInt8) :=
  OptionT.mk fun (stream, events) =>
    if int32Max < length then some (none, stream, events) else readLoop events stream length

/-- `read_frame_bounded`. -/
def readFrameBounded (maxPayload : ℕ) (at_ : Addresses) : StreamReader (FrameHeader × List UInt8) := do
  let headerBuf ← readExactly frameHeaderSize
  let header := FrameHeader.fromBytes headerBuf
  if !header.isValid then failure
  else if maxPayload < header.payloadLength.toNat then failure
  else
    let payload ← (if 0 < header.payloadLength.toNat then readExactly header.payloadLength.toNat
      else pure [])
    if header.hasChecksum then
      let received ← readExactly checksumSize
      if frameChecksum at_ headerBuf payload ≠ (FrameHeader.readWord received).toBitVec then failure
      else return (header, payload)
    else return (header, payload)

/-! ### The bytes of a frame -/

theorem length_toBytes (h : FrameHeader) : h.toBytes.length = frameHeaderSize := by
  simp [FrameHeader.toBytes, frameHeaderSize]

theorem readWord_leBytes (w : UInt32) (rest : List UInt8) :
    FrameHeader.readWord (leBytes 4 w.toNat ++ rest) = w := by
  have hlt : w.toNat < 256 ^ 4 := w.toNat_lt
  rw [FrameHeader.readWord, take_left' (length_leBytes 4 _), leNat_leBytes,
    Nat.mod_eq_of_lt hlt, UInt32.ofNat_toNat]

/-- **A header is read as it was written.** -/
theorem fromBytes_toBytes (h : FrameHeader) : FrameHeader.fromBytes h.toBytes = h := by
  have hdrop : ∀ (n : ℕ) (rest : List UInt8), (leBytes 4 n ++ rest).drop 4 = rest := fun n rest =>
    drop_left' (length_leBytes 4 n)
  have h₄ : h.toBytes.drop 4 = leBytes 4 h.requestId.toNat ++ (h.type :: h.flags ::
      (leBytes 4 h.methodId.toNat ++ (leBytes 4 h.payloadLength.toNat ++ [h.version]))) := hdrop _ _
  have h₈ : h.toBytes.drop 8 = h.type :: h.flags ::
      (leBytes 4 h.methodId.toNat ++ (leBytes 4 h.payloadLength.toNat ++ [h.version])) := by
    rw [← drop_drop (i := 4), h₄, hdrop]
  have h₉ : h.toBytes.drop 9 = h.flags ::
      (leBytes 4 h.methodId.toNat ++ (leBytes 4 h.payloadLength.toNat ++ [h.version])) := by
    rfl
  have h₁₀ : h.toBytes.drop 10 =
      leBytes 4 h.methodId.toNat ++ (leBytes 4 h.payloadLength.toNat ++ [h.version]) := by
    rfl
  have h₁₄ : h.toBytes.drop 14 = leBytes 4 h.payloadLength.toNat ++ [h.version] := by
    rw [← drop_drop (i := 4), h₁₀, hdrop]
  have h₁₈ : h.toBytes.drop 18 = [h.version] := by
    rw [← drop_drop (i := 4), h₁₄, hdrop]
  rw [FrameHeader.fromBytes, h₄, h₈, h₉, h₁₀, h₁₄, h₁₈, FrameHeader.toBytes]
  simp only [readWord_leBytes, headD_cons]

/-- The checksum does not depend on where the header and the payload are. -/
theorem frameChecksum_eq (at_ : Addresses) (header payload : List UInt8) :
    frameChecksum at_ header payload =
      crc32Finalize ((header ++ payload).foldl crc32Step 0xFFFFFFFF#32) := by
  simp only [frameChecksum, crc32Update_eq, foldl_append]
  split_ifs with hpos
  · rfl
  · rw [eq_nil_of_length_eq_zero (l := payload) (by omega)]
    rfl

/-- A checksum is read as it was written. -/
theorem frameChecksum_readWord (at_ : Addresses) (header payload : List UInt8) :
    frameChecksum at_ header payload = (FrameHeader.readWord
      (leBytes 4 (frameChecksum ⟨0, 0⟩ header payload).toNat)).toBitVec := by
  have hword := readWord_leBytes ⟨frameChecksum ⟨0, 0⟩ header payload⟩ []
  rw [frameChecksum_eq, ← frameChecksum_eq ⟨0, 0⟩]
  exact (congrArg UInt32.toBitVec hword).symm

/-- The bytes of a frame. -/
def FrameHeader.wire (h : FrameHeader) (payload : List UInt8) : List UInt8 :=
  h.toBytes ++ payload ++
    if h.hasChecksum then leBytes 4 (frameChecksum ⟨0, 0⟩ h.toBytes payload).toNat else []

theorem flatten_frameVectors (at_ : Addresses) (h : FrameHeader) (payload : List UInt8) :
    (frameVectors at_ h payload).flatten = h.wire payload := by
  have hpay : (if 0 < payload.length then [payload] else []).flatten = payload := by
    split_ifs with hpos
    · simp
    · rw [eq_nil_of_length_eq_zero (l := payload) (by omega)]
      rfl
  rw [frameVectors, FrameHeader.wire, frameChecksum_eq, frameChecksum_eq, flatten_append,
    flatten_append, hpay]
  split_ifs <;> simp

/-! ### Every way to write writes the frame -/

theorem flatten_advanceVectors (vs : List (List UInt8)) (n : ℕ) :
    (advanceVectors vs n).flatten = vs.flatten.drop n := by
  induction vs generalizing n with
  | nil => simp [advanceVectors]
  | cons v vs ih =>
    rw [advanceVectors, flatten_cons]
    split_ifs with hzero hwhole
    · rw [hzero, drop_zero, flatten_cons]
    · rw [ih, drop_append, drop_of_length_le hwhole, nil_append]
    · rw [flatten_cons, drop_append_of_le_length (by omega)]

variable {n : ℕ}

theorem take_batch {vs : List (List UInt8)} (h : n ≤ (vs.take iovMax).flatten.length) :
    (vs.take iovMax).flatten.take n = vs.flatten.take n := by
  conv => rhs; rw [← take_append_drop iovMax vs, flatten_append]
  rw [take_append_of_le_length h]

variable {events : List WriteEvent} {wire : List UInt8} {w : Written}

theorem writevLoop_wire {vs : List (List UInt8)} (h : writevLoop events vs wire = some w)
    (hok : w.ok = true) : w.wire = wire ++ vs.flatten := by
  induction events generalizing vs wire with
  | nil =>
    cases vs with
    | nil =>
      cases h
      simp
    | cons v vs => cases h
  | cons event events ih =>
    cases vs with
    | nil =>
      cases h
      simp
    | cons v vs =>
      cases event with
      | again ready =>
        cases ready with
        | true => exact ih h
        | false =>
          cases h
          cases hok
      | interrupted => exact ih h
      | failed =>
        cases h
        cases hok
      | wrote n =>
        rw [writevLoop] at h
        split_ifs at h
        · cases h
          cases hok
        · -- what was taken, and what the vectors still hold
          rw [ih h, take_batch (Nat.min_le_right ..), flatten_advanceVectors, append_assoc,
            take_append_drop]

theorem writeExactlyLoop_wire {data : List UInt8} (h : writeExactlyLoop events data wire = some w)
    (hok : w.ok = true) : w.wire = wire ++ data := by
  induction events generalizing data wire with
  | nil =>
    cases data with
    | nil =>
      cases h
      simp
    | cons b data => cases h
  | cons event events ih =>
    cases data with
    | nil =>
      cases h
      simp
    | cons b data =>
      cases event with
      | again ready =>
        cases ready with
        | true => exact ih h
        | false =>
          cases h
          cases hok
      | interrupted => exact ih h
      | failed =>
        cases h
        cases hok
      | wrote n =>
        rw [writeExactlyLoop] at h
        split_ifs at h
        · cases h
          cases hok
        · rw [ih h, append_assoc, take_append_drop]

variable {header : FrameHeader} {payload : List UInt8}

/-- **Every way to write puts the bytes of the frame on the wire.** -/
theorem writeWith_wire {mode : WriteMode} {at_ : Addresses}
    (h : writeWith mode at_ events header payload = some w) (hok : w.ok = true) :
    w.wire = header.wire payload := by
  -- the two functions that gather are the same
  have hgather : writevExact events (frameVectors at_ header payload) = some w →
      w.wire = header.wire payload := by
    intro h
    simp only [writevExact, Option.bind_eq_bind, Option.bind_eq_some_iff, Option.pure_def,
      Option.some.injEq] at h
    obtain ⟨w', hloop, rfl⟩ := h
    simp only [Bool.and_eq_true] at hok
    rw [writevLoop_wire hloop hok.1.1, nil_append, flatten_frameVectors]
  cases mode with
  | gather | raw => exact hgather h
  | cancellable =>
    have hframe : header.toBytes ++ (if 0 < payload.length then payload else []) ++
        (if header.hasChecksum then leBytes 4 (frameChecksum at_ header.toBytes payload).toNat
          else []) = header.wire payload := by
      have hpay : (if 0 < payload.length then payload else []) = payload := by
        split_ifs with hpos
        · rfl
        · exact (eq_nil_of_length_eq_zero (by omega)).symm
      rw [hpay, FrameHeader.wire, frameChecksum_eq, frameChecksum_eq]
    simp only [writeWith, writeFrameCancellable, hframe, writeExactly] at h
    split_ifs at h
    · cases h
      cases hok
    · simp only [Option.bind_eq_bind, Option.bind_eq_some_iff, Option.pure_def,
        Option.some.injEq] at h
      obtain ⟨w', hloop, rfl⟩ := h
      simp only [Bool.and_eq_true] at hok
      rw [writeExactlyLoop_wire hloop hok.1, nil_append]

/-! ### Reading what was written -/

/-- A read that is given bytes, or that is repeated. -/
def ReadEvent.Smooth : ReadEvent → Prop
  | .got n => 0 < n
  | .again ready => ready = true
  | .interrupted => True
  | .failed => False

/-- The read is given bytes. -/
def ReadEvent.isGot : ReadEvent → Bool
  | .got _ => true
  | _ => false

open ReadEvent (isGot)

/-- **What it is to read `a` from `bytes`**: on a stream that starts with them the computation ends
with `a` and leaves the rest, or it still waits and has not been given bytes that often. -/
def Yields {α : Type} (m : StreamReader α) (bytes : List UInt8) (a : α) : Prop :=
  ∀ (rest : List UInt8) (events : List ReadEvent), (∀ e ∈ events, e.Smooth) →
    (m.run (bytes ++ rest, events) = none ∧ events.countP isGot < bytes.length) ∨
      ∃ left, m.run (bytes ++ rest, events) = some (some a, rest, left) ∧ (∀ e ∈ left, e.Smooth) ∧
        events.countP isGot ≤ left.countP isGot + bytes.length

namespace Yields

variable {α β : Type}

theorem pure (a : α) : Yields (Pure.pure a) [] a := fun _ events hsmooth =>
  .inr ⟨events, rfl, hsmooth, le_rfl⟩

theorem bind {m : StreamReader α} {f : α → StreamReader β} {bytes bytes' : List UInt8} {a : α}
    {b : β} (hm : Yields m bytes a) (hf : Yields (f a) bytes' b) :
    Yields (m >>= f) (bytes ++ bytes') b := by
  intro rest events hsmooth
  rw [append_assoc, length_append]
  rcases hm (bytes' ++ rest) events hsmooth with ⟨hrun, hfew⟩ | ⟨left, hrun, hleft, hcnt⟩
  · refine .inl ⟨?_, by omega⟩
    show Option.bind (m.run (bytes ++ (bytes' ++ rest), events)) _ = none
    rw [hrun]
    rfl
  · have hthen : (m >>= f).run (bytes ++ (bytes' ++ rest), events) =
        (f a).run (bytes' ++ rest, left) := by
      show Option.bind (m.run (bytes ++ (bytes' ++ rest), events)) _ = _
      rw [hrun]
      rfl
    rw [hthen]
    rcases hf rest left hleft with ⟨hrun', hfew⟩ | ⟨left', hrun', hleft', hcount'⟩
    · exact .inl ⟨hrun', by omega⟩
    · exact .inr ⟨left', hrun', hleft', by omega⟩

theorem mapM {ι : Type} {f : ι → StreamReader α} {is : List ι} {pieces : List (List UInt8 × α)}
    (h : List.Forall₂ (fun i piece => Yields (f i) piece.1 piece.2) is pieces) :
    Yields (is.mapM f) (pieces.map Prod.fst).flatten (pieces.map Prod.snd) := by
  induction h with
  | nil => exact Yields.pure []
  | cons hfst _ ih =>
    rw [mapM_cons]
    refine hfst.bind ?_
    rw [← append_nil (flatten _)]
    exact ih.bind (Yields.pure _)

end Yields

theorem readLoop_yields {bytes : List UInt8} (hn : bytes.length = n) (rest : List UInt8)
    (events : List ReadEvent) (hsmooth : ∀ e ∈ events, e.Smooth) :
    (readLoop events (bytes ++ rest) n = none ∧ events.countP isGot < n) ∨
      ∃ left, readLoop events (bytes ++ rest) n = some (some bytes, rest, left) ∧
        (∀ e ∈ left, e.Smooth) ∧
        events.countP isGot ≤ left.countP isGot + n := by
  induction events generalizing bytes n with
  | nil =>
    cases n with
    | zero =>
      rw [eq_nil_of_length_eq_zero hn]
      exact .inr ⟨[], rfl, hsmooth, le_rfl⟩
    | succ n => exact .inl ⟨rfl, Nat.succ_pos n⟩
  | cons event events ih =>
    cases n with
    | zero =>
      rw [eq_nil_of_length_eq_zero hn]
      exact .inr ⟨_, rfl, hsmooth, le_rfl⟩
    | succ n =>
      have hrest := (forall_mem_cons.1 hsmooth).2
      have hev := hsmooth event mem_cons_self
      cases event with
      | failed => exact hev.elim
      | interrupted => exact ih hn hrest
      | again ready =>
        cases (hev : ready = true)
        exact ih hn hrest
      | got k =>
        have hpos : 0 < k := hev
        -- the bytes that this read is given
        have hcnt : min k (min (n + 1) (bytes ++ rest).length) = min k (n + 1) := by
          rw [length_append]
          omega
        obtain ⟨c, hc⟩ : ∃ c, c = min k (n + 1) := ⟨_, rfl⟩
        have hstep : readLoop (.got k :: events) (bytes ++ rest) (n + 1) =
            (readLoop events (bytes.drop c ++ rest) (n + 1 - c)).map fun r =>
              (r.1.map (bytes.take c ++ ·), r.2) := by
          rw [readLoop]
          rw [hcnt, ← hc, if_neg (by omega), drop_append_of_le_length (by omega),
            take_append_of_le_length (by omega)]
        have hgots : (ReadEvent.got k :: events).countP isGot =
            events.countP isGot + 1 := countP_cons_of_pos rfl
        rw [hstep]
        have hlen : (bytes.drop c).length = n + 1 - c := by
          rw [length_drop, hn]
        rcases ih hlen hrest with ⟨hrun, hfew⟩ | ⟨left, hrun, hleft, hmany⟩
        · refine .inl ⟨?_, by omega⟩
          rw [hrun]
          rfl
        · refine .inr ⟨left, ?_, hleft, by omega⟩
          rw [hrun, Option.map_some, Option.map_some, take_append_drop]

theorem readExactly_yields {bytes : List UInt8} (hn : bytes.length = n) (hmax : n ≤ int32Max) :
    Yields (readExactly n) bytes bytes := by
  intro rest events hsmooth
  have hrun : (readExactly n).run (bytes ++ rest, events) = readLoop events (bytes ++ rest) n :=
    if_neg (by omega)
  rw [hrun, hn]
  exact readLoop_yields hn rest events hsmooth

theorem readPayload_yields (hn : payload.length = n) (hmax : n ≤ int32Max) :
    Yields (if 0 < n then readExactly n else pure []) payload payload := by
  split_ifs with hpos
  · exact readExactly_yields hn hmax
  · rw [eq_nil_of_length_eq_zero (l := payload) (by omega)]
    exact Yields.pure []

theorem payloadLength_le (hvalid : header.isValid = true) :
    header.payloadLength.toNat ≤ int32Max := by
  simp only [FrameHeader.isValid, Bool.and_eq_true, decide_eq_true_eq] at hvalid
  exact hvalid.2.trans (by decide)

/-- **The bytes of a frame are read as the frame.** -/
theorem readFrameBounded_wire {maxPayload : ℕ} (hvalid : header.isValid = true)
    (hlen : payload.length = header.payloadLength.toNat) (hmax : payload.length ≤ maxPayload)
    (at_ : Addresses) :
    Yields (readFrameBounded maxPayload at_) (header.wire payload) (header, payload) := by
  refine (readExactly_yields (length_toBytes header) (by decide)).bind ?_
  simp only [fromBytes_toBytes, hvalid, Bool.not_true, Bool.false_eq_true, if_false]
  rw [if_neg (by omega)]
  refine (readPayload_yields hlen (payloadLength_le hvalid)).bind ?_
  split_ifs with hsum
  · refine (readExactly_yields (length_leBytes 4 _) (by decide)).bind ?_
    rw [if_neg (not_not_intro (frameChecksum_readWord _ _ _))]
    exact Yields.pure _
  · exact Yields.pure _

/-! ### Streams of frames -/

/-- A frame that is sent, and how. -/
structure Send where
  mode : WriteMode
  at_ : Addresses
  header : FrameHeader
  payload : List UInt8

/-- The header is valid and has the length of the payload, which the reader accepts. -/
def Send.Accepted (cap : ℕ) (send : Send) : Prop :=
  send.header.isValid = true ∧ send.payload.length = send.header.payloadLength.toNat ∧
    send.payload.length ≤ cap

/-- Frames are written one after the other, and every write reports that it is complete. -/
def writeFrames : List Send → List WriteEvent → Option (List UInt8 × List WriteEvent)
  | [], events => some ([], events)
  | send :: sends, events => do
    let written ← writeWith send.mode send.at_ events send.header send.payload
    if written.ok then
      let (wire, left) ← writeFrames sends written.events
      return (written.wire ++ wire, left)
    else none

theorem writeFrames_wire {sends : List Send} {left : List WriteEvent}
    (h : writeFrames sends events = some (wire, left)) :
    wire = (sends.map fun send => send.header.wire send.payload).flatten := by
  induction sends generalizing events wire with
  | nil =>
    cases h
    rfl
  | cons send sends ih =>
    simp only [writeFrames, Option.bind_eq_bind, Option.bind_eq_some_iff] at h
    obtain ⟨written, hwritten, h⟩ := h
    split_ifs at h with hok
    simp only [Option.bind_eq_some_iff, Option.pure_def, Option.some.injEq, Prod.mk.injEq] at h
    obtain ⟨⟨wire', left'⟩, hrest, rfl, rfl⟩ := h
    rw [map_cons, flatten_cons, writeWith_wire hwritten hok, ih hrest]

/-- **A stream of frames is read as it was written**: whatever way each frame was written, however
its bytes were taken, and however the stream is given to the reader, the reader gets the same
headers and payloads in the same order and leaves exactly what follows, unless it was not given
bytes as often as there are bytes and still waits. -/
theorem frames_round_trip (cap : ℕ) (sends : List Send) (hsends : ∀ send ∈ sends, send.Accepted cap)
    (events left : List WriteEvent) (wire : List UInt8)
    (hwritten : writeFrames sends events = some (wire, left)) (ats : List Addresses)
    (hats : ats.length = sends.length) (rest : List UInt8) (reads : List ReadEvent)
    (hreads : ∀ e ∈ reads, e.Smooth) :
    ((ats.mapM (readFrameBounded cap)).run (wire ++ rest, reads) = none ∧
        reads.countP isGot < wire.length) ∨
      ∃ unread, (ats.mapM (readFrameBounded cap)).run (wire ++ rest, reads) =
        some (some (sends.map fun send => (send.header, send.payload)), rest, unread) := by
  have hyields : Yields (ats.mapM (readFrameBounded cap)) wire
      (sends.map fun send => (send.header, send.payload)) := by
    have hpieces : List.Forall₂
        (fun i piece => Yields (readFrameBounded cap i) piece.1 piece.2) ats
        (sends.map fun send => (send.header.wire send.payload, (send.header, send.payload))) := by
      rw [forall₂_iff_get]
      refine ⟨by simp [hats], fun i hi hi' => ?_⟩
      rw [length_map] at hi'
      obtain ⟨hvalid, hlength, hcap⟩ := hsends (sends.get ⟨i, hi'⟩) (get_mem _ _)
      have hread := readFrameBounded_wire hvalid hlength hcap (ats.get ⟨i, hi⟩)
      simpa using hread
    have hall := Yields.mapM hpieces
    rw [map_map, map_map] at hall
    rw [writeFrames_wire hwritten]
    exact hall
  rcases hyields rest reads hreads with hfew | ⟨unread, hrun, _⟩
  · exact .inl hfew
  · exact .inr ⟨unread, hrun⟩

/-- A request that is gathered from three vectors, and a ping in one buffer. -/
def twoSends : List Send :=
  [{ mode := .gather, at_ := ⟨3, 5⟩, payload := [7, 8],
     header := { requestId := 1, flags := MessageFlags.hasChecksum, methodId := 9, payloadLength := 2 } },
   { mode := .cancellable, at_ := ⟨0, 0⟩, payload := [], header := { requestId := 2, type := 3 } }]

/-- The writes of `twoSends` with parts and repeats, and a reader that gets byte after byte. -/
theorem frames_round_trip_twoSends :
    ∃ wire, writeFrames twoSends [.wrote 20, .again true, .wrote 4, .interrupted, .wrote 1, .wrote 30]
        = some (wire, []) ∧
      ∃ unread, ([⟨1, 2⟩, ⟨4, 4⟩].mapM (readFrameBounded 16)).run
          (wire ++ [5, 6], List.replicate 50 (.got 1)) =
        some (some (twoSends.map fun send => (send.header, send.payload)), [5, 6], unread) := by
  obtain ⟨⟨wire, left⟩, hwritten⟩ := Option.isSome_iff_exists.mp (show (writeFrames twoSends
    [.wrote 20, .again true, .wrote 4, .interrupted, .wrote 1, .wrote 30]).isSome = true from by
      decide)
  have hleft : left = [] := by
    have hall := congrArg (Option.map Prod.snd) hwritten
    exact (Option.some.inj hall).symm
  subst hleft
  refine ⟨wire, hwritten, ?_⟩
  have hsends : ∀ send ∈ twoSends, send.Accepted 16 := by
    simp only [twoSends, forall_mem_cons, not_mem_nil, false_implies, implies_true,
      and_true, Send.Accepted]
    decide
  have hlength : wire.length = 44 := by
    rw [writeFrames_wire hwritten]
    rfl
  rcases frames_round_trip 16 twoSends hsends _ _ wire hwritten [⟨1, 2⟩, ⟨4, 4⟩] rfl [5, 6]
    (replicate 50 (.got 1)) (fun e he => (eq_of_mem_replicate he) ▸ Nat.one_pos) with
    ⟨-, hfew⟩ | hread
  · rw [hlength] at hfew
    exact absurd hfew (by decide)
  · exact hread

end Elio.Rpc
