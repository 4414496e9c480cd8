/-
**WebSocket frames and the frame parser.**

`http/websocket_frame.hpp` encodes frames, reads the header of a frame and, in `frame_parser`,
assembles messages from the frames of a stream that arrives in pieces.  The parser keeps the bytes
it has not used.  One turn of its loop reads a header, applies the rules that the header is enough
for, waits for the payload, and takes the frame: a control frame is queued as it is, a data frame is
appended to the message that is open.  Messages and control frames go to queues of their own, and a
third queue remembers the order in which they came.

The random masking keys of frames that are sent are parameters.  `has_error_`, `error_msg_` and
`error_close_code_` are one field here, the error, with its text and its close code as functions.

Main definitions:

* `parseFrameHeader` — a header, or what is wrong with it;
* `FrameParser`, `FrameParser.parse` — the parser;
* `FrameParser.machine` — the parser as a machine that is fed.

Main results:

* `isValidUtf8_iff` — **the check of texts accepts exactly the encodings of lists of characters**;
* `isValidUtf8From_spec` — and it reads no byte outside the text;
* `FrameParser.parse_eq_feed` — a call of `parse` feeds the machine;
* `FrameParser.machine_joins` — the pieces of a stream lead where the stream leads.
-/

import Elio.HttpCommon
import Elio.FeedMachine
import Elio.Rfc6455

set_option autoImplicit false

namespace Elio.WebSocket

open Elio.Http (Bytes)
open Rfc6455 (bigEndian)
open List

/-! ### Frames -/

/-- `opcode`. -/
inductive Opcode where
  | continuation
  | text
  | binary
  | close
  | ping
  | pong
  deriving DecidableEq, Repr

/-- The value of an opcode. -/
def Opcode.value : Opcode → UInt8
  | .continuation => 0x0
  | .text => 0x1
  | .binary => 0x2
  | .close => 0x8
  | .ping => 0x9
  | .pong => 0xa

/-- The opcode with a value, if `is_valid_opcode` knows it. -/
def opcodeOf (raw : UInt8) : Option Opcode :=
  if raw = 0x0 then some .continuation
  else if raw = 0x1 then some .text
  else if raw = 0x2 then some .binary
  else if raw = 0x8 then some .close
  else if raw = 0x9 then some .ping
  else if raw = 0xa then some .pong
  else none

/-- `is_control_frame`. -/
def isControlFrame (op : Opcode) : Bool := 0x8 ≤ op.value

/-- `close_code`: a number, of which some have names. -/
abbrev CloseCode := ℕ

namespace CloseCode

def normal : CloseCode := 1000
def goingAway : CloseCode := 1001
def protocolError : CloseCode := 1002
def noStatus : CloseCode := 1005
def invalidData : CloseCode := 1007
def tooLarge : CloseCode := 1009

end CloseCode

/-- The errors of a stream of frames. -/
inductive FrameError where
  | invalidOpcode
  | reservedBits
  | nonMinimalLength
  | invalidLength
  | controlTooLarge
  | controlFragmented
  | unmasked
  | masked
  | continuationWithoutInitial
  | newMessage
  | messageTooLarge
  | invalidUtf8
  deriving DecidableEq, Repr

/-- `error_msg_`. -/
def FrameError.message : FrameError → String
  | .invalidOpcode => "Invalid opcode"
  | .reservedBits => "Reserved bits must be 0"
  | .nonMinimalLength => "Non-minimal payload length encoding"
  | .invalidLength => "Invalid payload length"
  | .controlTooLarge => "Control frame payload too large"
  | .controlFragmented => "Control frame cannot be fragmented"
  | .unmasked => "Unmasked frame received from client"
  | .masked => "Masked frame received from server"
  | .continuationWithoutInitial => "Continuation frame without initial frame"
  | .newMessage => "New message started before previous completed"
  | .messageTooLarge => "Message exceeds maximum size"
  | .invalidUtf8 => "Text message contains invalid UTF-8"

/-- `error_close_code_`. -/
def FrameError.closeCode : FrameError → CloseCode
  | .messageTooLarge => CloseCode.tooLarge
  | .invalidUtf8 => CloseCode.invalidData
  | _ => CloseCode.protocolError

/-- A masking key. -/
structure MaskKey where
  k0 : UInt8
  k1 : UInt8
  k2 : UInt8
  k3 : UInt8
  deriving DecidableEq, Repr

namespace MaskKey

def zero : MaskKey := ⟨0, 0, 0, 0⟩

def bytes (key : MaskKey) : Bytes := [key.k0, key.k1, key.k2, key.k3]

end MaskKey

/-- `apply_mask` from the start of the data. -/
def applyMask (key : MaskKey) (data : Bytes) : Bytes :=
  data.mapIdx fun i b => b ^^^ key.bytes.getD (i % 4) 0

/-- `frame_header`. -/
structure FrameHeader where
  fin : Bool := true
  rsv1 : Bool := false
  rsv2 : Bool := false
  rsv3 : Bool := false
  op : Opcode := .text
  masked : Bool := false
  payloadLen : ℕ := 0
  maskKey : MaskKey := .zero
  deriving DecidableEq, Repr

/-! ### Encoding -/

/-- `encode_frame`, or none when it throws.  `fresh` is the key that takes the place of a key of
zeros. -/
def encodeFrame (fresh : MaskKey) (header : FrameHeader) (payload : Bytes) : Option Bytes :=
  if isControlFrame header.op && !header.fin then none
  else if isControlFrame header.op && 125 < payload.length then none
  else
    let byte1 := header.op.value ||| (if header.fin then 0x80 else 0) |||
      (if header.rsv1 then 0x40 else 0) ||| (if header.rsv2 then 0x20 else 0) |||
      (if header.rsv3 then 0x10 else 0)
    let byte2 : UInt8 := if header.masked then 0x80 else 0x00
    let length :=
      if payload.length ≤ 125 then [byte2 ||| UInt8.ofNat payload.length]
      else if payload.length ≤ 65535 then
        (byte2 ||| 126) :: (leBytes 2 payload.length).reverse
      else (byte2 ||| 127) :: (leBytes 8 payload.length).reverse
    let key := if header.maskKey = .zero then fresh else header.maskKey
    some (byte1 :: length ++ if header.masked then key.bytes ++ applyMask key payload else payload)

/-- What the encoders of the frame types share: a whole frame, masked with a key or not. -/
def encodeWhole (op : Opcode) (payload : Bytes) (mask : Option (MaskKey × MaskKey)) : Option Bytes :=
  let (key, fresh) := mask.getD (.zero, .zero)
  encodeFrame fresh { op, masked := mask.isSome, maskKey := key } payload

/-- `encode_text_frame`. -/
def encodeTextFrame (text : Bytes) (mask : Option (MaskKey × MaskKey)) : Option Bytes :=
  encodeWhole .text text mask

/-- `encode_binary_frame`. -/
def encodeBinaryFrame (data : Bytes) (mask : Option (MaskKey × MaskKey)) : Option Bytes :=
  encodeWhole .binary data mask

/-- `encode_ping_frame`. -/
def encodePingFrame (payload : Bytes) (mask : Option (MaskKey × MaskKey)) : Option Bytes :=
  encodeWhole .ping payload mask

/-- `encode_pong_frame`. -/
def encodePongFrame (payload : Bytes) (mask : Option (MaskKey × MaskKey)) : Option Bytes :=
  encodeWhole .pong payload mask

/-- `encode_close_frame`.  The codes that must not be sent become `protocol_error`. -/
def encodeCloseFrame (code : CloseCode) (reason : Bytes) (mask : Option (MaskKey × MaskKey)) :
    Option Bytes :=
  let code := if code = 1005 ∨ code = 1006 ∨ code = 1015 then CloseCode.protocolError else code
  encodeWhole .close ((leBytes 2 code).reverse ++ reason) mask

/-! ### Headers -/

/-- What `parse_frame_header` finds. -/
inductive HeaderResult where
  | incomplete
  | error (e : FrameError)
  | complete (header : FrameHeader) (headerSize : ℕ)
  deriving DecidableEq, Repr

/-- What it finds of the length: the length and the bytes it takes after the second byte. -/
inductive LengthResult where
  | incomplete
  | error (e : FrameError)
  | length (payloadLen : ℕ) (size : ℕ)
  deriving DecidableEq, Repr

/-- The length in `parse_frame_header`, from the seven bits of the second byte. -/
def parseLength (len7 : UInt8) (rest : Bytes) : LengthResult :=
  if len7 = 126 then
    if rest.length < 2 then .incomplete
    else
      let n := bigEndian (rest.take 2)
      if n < 126 then .error .nonMinimalLength else .length n 2
  else if len7 = 127 then
    if rest.length < 8 then .incomplete
    else
      let n := bigEndian (rest.take 8)
      if 2 ^ 63 ≤ n then .error .invalidLength
      else if n ≤ 65535 then .error .nonMinimalLength
      else .length n 8
  else .length len7.toNat 0

/-- `parse_frame_header` after the length: the rules for control frames, and the key. -/
def parseMaskKey (fin : Bool) (op : Opcode) (masked : Bool) (payloadLen size : ℕ) (rest : Bytes) :
    HeaderResult :=
  if isControlFrame op && 125 < payloadLen then .error .controlTooLarge
  else if isControlFrame op && !fin then .error .controlFragmented
  else if masked then
    match rest.drop size with
    | k0 :: k1 :: k2 :: k3 :: _ =>
      .complete { fin, op, masked, payloadLen, maskKey := ⟨k0, k1, k2, k3⟩ } (2 + size + 4)
    | _ => .incomplete
  else .complete { fin, op, masked, payloadLen } (2 + size)

/-- `parse_frame_header` after the first byte. -/
def parseSecondByte (fin : Bool) (op : Opcode) : Bytes → HeaderResult
  | [] => .incomplete
  | b1 :: rest =>
    match parseLength (b1 &&& 0x7f) rest with
    | .incomplete => .incomplete
    | .error e => .error e
    | .length payloadLen size => parseMaskKey fin op (b1 &&& 0x80 ≠ 0) payloadLen size rest

/-- `parse_frame_header`. -/
def parseFrameHeader : Bytes → HeaderResult
  | [] => .incomplete
  | b0 :: rest =>
    match opcodeOf (b0 &&& 0x0f) with
    | none => .error .invalidOpcode
    | some op =>
      if b0 &&& 0x40 ≠ 0 ∨ b0 &&& 0x20 ≠ 0 ∨ b0 &&& 0x10 ≠ 0 then .error .reservedBits
      else parseSecondByte (b0 &&& 0x80 ≠ 0) op rest

/-! ### Texts -/

/-- A continuation byte, as `is_valid_utf8` tests it. -/
def isContinuation (b : UInt8) : Bool := b &&& 0xc0 = 0x80

/-- `is_valid_utf8`. -/
def isValidUtf8 : Bytes → Bool
  | [] => true
  | c :: rest =>
    if c ≤ 0x7f then isValidUtf8 rest
    else if c &&& 0xe0 = 0xc0 then
      match rest with
      | b :: rest => isContinuation b && !(c < 0xc2) && isValidUtf8 rest
      | _ => false
    else if c &&& 0xf0 = 0xe0 then
      match rest with
      | b :: b' :: rest =>
        isContinuation b && isContinuation b' && !(c = 0xe0 && b < 0xa0) &&
          !(c = 0xed && 0xa0 ≤ b) && isValidUtf8 rest
      | _ => false
    else if c &&& 0xf8 = 0xf0 then
      match rest with
      | b :: b' :: b'' :: rest =>
        isContinuation b && isContinuation b' && isContinuation b'' && !(c = 0xf0 && b < 0x90) &&
          !(c = 0xf4 && 0x8f < b) && !(0xf4 < c) && isValidUtf8 rest
      | _ => false
    else false

/-- How many bytes `is_valid_utf8` takes for the sequence its byte leads; none where it refuses. -/
def sequenceLength (c : UInt8) : ℕ :=
  if c ≤ 0x7f then 1 else if c &&& 0xe0 = 0xc0 then 2 else if c &&& 0xf0 = 0xe0 then 3
  else if c &&& 0xf8 = 0xf0 then 4 else 0

/-- The tests of `is_valid_utf8` on the first two bytes of a sequence of the given length. -/
def isRefused (c b : UInt8) (len : ℕ) : Bool :=
  len = 2 && c < 0xc2 || len = 3 && (c = 0xe0 && b < 0xa0 || c = 0xed && 0xa0 ≤ b) ||
    len = 4 && (c = 0xf0 && b < 0x90 || c = 0xf4 && 0x8f < b || 0xf4 < c)

/-- `is_valid_utf8` from an index on, with its accesses `s[i]`; there is no result if one of them
is outside the text. -/
def isValidUtf8From (s : Bytes) (i : ℕ) : Option Bool :=
  if _h : i < s.length then do
    let c ← s[i]?
    let len := sequenceLength c
    if _hlen : len = 0 ∨ s.length < i + len then return false
    let tails ← (range' (i + 1) (len - 1)).allM fun j => isContinuation <$> s[j]?
    if !tails then return false
    let b ← (if len = 1 then some c else s[i + 1]?)
    if isRefused c b len then return false
    isValidUtf8From s (i + len)
  else return true
termination_by s.length - i

/-- `is_valid_close_code`. -/
def isValidCloseCode (code : CloseCode) : Bool :=
  (1000 ≤ code && code ≤ 1003) || (1007 ≤ code && code ≤ 1014) || (3000 ≤ code && code ≤ 4999)

/-- `parse_close_payload`: the code and the reason. -/
def parseClosePayload (payload : Bytes) : CloseCode × Bytes :=
  match payload with
  | [] => (CloseCode.noStatus, [])
  | [_] => (CloseCode.protocolError, [])
  | high :: low :: reason =>
    let code := bigEndian [high, low]
    if !isValidCloseCode code then (CloseCode.protocolError, [])
    else if !isValidUtf8 reason then (CloseCode.protocolError, [])
    else (code, reason)

/-! ### The parser -/

/-- `message`. -/
structure Message where
  type : Opcode := .text
  data : Bytes := []
  complete : Bool := false
  deriving DecidableEq, Repr

/-- `queued_frame_kind`. -/
inductive QueuedFrameKind where
  | message
  | control
  deriving DecidableEq, Repr

/-- `endpoint_role`. -/
inductive EndpointRole where
  | unspecified
  | server
  | client
  deriving DecidableEq, Repr

/-- `frame_parser`. -/
structure FrameParser where
  buffer : Bytes := []
  currentMessage : Message := {}
  messages : List Message := []
  controlFrames : List (Opcode × Bytes) := []
  queuedFrames : List QueuedFrameKind := []
  maxMessageSize : ℕ := 16 * 1024 * 1024
  error : Option FrameError := none
  hasInitialFrame : Bool := false
  role : EndpointRole := .unspecified
  deriving DecidableEq, Repr

namespace FrameParser

/-- `error_close_code`. -/
def errorCloseCode (p : FrameParser) : CloseCode :=
  match p.error with
  | some e => e.closeCode
  | none => CloseCode.protocolError

/-- The checks of `process_buffer` that a complete header is enough for. -/
def checkHeader (p : FrameParser) (header : FrameHeader) : Option FrameError :=
  let currentSize := p.currentMessage.data.length
  if p.role = .server && !header.masked then some .unmasked
  else if p.role = .client && header.masked then some .masked
  else if isControlFrame header.op then none
  else if header.op = .continuation && !p.hasInitialFrame then some .continuationWithoutInitial
  else if header.op ≠ .continuation && p.hasInitialFrame then some .newMessage
  else if 0 < p.maxMessageSize && (p.maxMessageSize < currentSize ||
      p.maxMessageSize - currentSize < header.payloadLen) then some .messageTooLarge
  else none

/-- The payload of the frame at the front of the buffer. -/
def extractPayload (buffer : Bytes) (header : FrameHeader) (headerSize : ℕ) : Bytes :=
  let payload := (buffer.drop headerSize).take header.payloadLen
  if header.masked then applyMask header.maskKey payload else payload

/-- What a turn of the loop does: nothing, for want of bytes, or it fails, or it takes a frame of
the given size off the buffer. -/
inductive Turn where
  | wait
  | failed (p : FrameParser)
  | frame (p : FrameParser) (size : ℕ)
  deriving DecidableEq, Repr

/-- The message that is open once a data frame is appended to it. -/
def grown (p : FrameParser) (header : FrameHeader) (payload : Bytes) : Message :=
  let started : Message :=
    if header.op ≠ .continuation then { type := header.op } else p.currentMessage
  { started with data := started.data ++ payload }

/-- A data frame in `process_buffer`. -/
def takeData (p : FrameParser) (header : FrameHeader) (payload : Bytes) (frameSize : ℕ) : Turn :=
  let current := p.grown header payload
  let hasInitialFrame := p.hasInitialFrame || header.op ≠ .continuation
  if !header.fin then
    .frame
      { p with
        currentMessage := current
        hasInitialFrame
        buffer := p.buffer.drop frameSize }
      frameSize
  else if current.type = .text && !isValidUtf8 current.data then
    .failed { p with currentMessage := current, hasInitialFrame, error := some .invalidUtf8 }
  else
    .frame
      { p with
        messages := p.messages ++ [{ current with complete := true }]
        queuedFrames := p.queuedFrames ++ [.message]
        currentMessage := {}
        hasInitialFrame := false
        buffer := p.buffer.drop frameSize }
      frameSize

/-- A turn of the loop of `process_buffer`. -/
def turn (p : FrameParser) : Turn :=
  match parseFrameHeader p.buffer with
  | .incomplete => .wait
  | .error e => .failed { p with error := some e }
  | .complete header headerSize =>
    match p.checkHeader header with
    | some e => .failed { p with error := some e }
    | none =>
      let frameSize := headerSize + header.payloadLen
      if p.buffer.length < frameSize then .wait
      else
        let payload := extractPayload p.buffer header headerSize
        if isControlFrame header.op then
          .frame
            { p with
              controlFrames := p.controlFrames ++ [(header.op, payload)]
              queuedFrames := p.queuedFrames ++ [.control]
              buffer := p.buffer.drop frameSize }
            frameSize
        else p.takeData header payload frameSize

/-- The loop of `process_buffer`, at most `n` turns of it, with the bytes consumed so far.  The
return value is none for `-1`. -/
def processFor : ℕ → ℕ → FrameParser → FrameParser × Option ℕ
  | 0, consumed, p => (p, some consumed)
  | n + 1, consumed, p =>
    match p.turn with
    | .wait => (p, some consumed)
    | .failed p => (p, none)
    | .frame p size => processFor n (consumed + size) p

/-- `process_buffer`: a frame has at least two bytes, so there are turns enough. -/
def processBuffer (p : FrameParser) : FrameParser × Option ℕ := processFor p.buffer.length 0 p

/-- `parse`. -/
def parse (p : FrameParser) (data : Bytes) : FrameParser × Option ℕ :=
  if data.isEmpty then (p, some 0) else processBuffer { p with buffer := p.buffer ++ data }

/-- `next_frame_is_message`. -/
def nextFrameIsMessage (p : FrameParser) : Bool := p.queuedFrames.head? = some .message

/-- `next_frame_is_control_frame`. -/
def nextFrameIsControlFrame (p : FrameParser) : Bool := p.queuedFrames.head? = some .control

/-- `get_next_message`. -/
def getNextMessage (p : FrameParser) : Option (Message × FrameParser) :=
  if !p.nextFrameIsMessage then none
  else
    match p.messages with
    | [] => none
    | msg :: messages => some (msg, { p with queuedFrames := p.queuedFrames.tail, messages })

/-- `get_next_control_frame`. -/
def getNextControlFrame (p : FrameParser) : Option ((Opcode × Bytes) × FrameParser) :=
  if !p.nextFrameIsControlFrame then none
  else
    match p.controlFrames with
    | [] => none
    | frame :: controlFrames =>
      some (frame, { p with queuedFrames := p.queuedFrames.tail, controlFrames })

end FrameParser

/-! ### The check of texts -/

theorem isContinuation_iff (b : UInt8) : isContinuation b = true ↔ Utf8.Tail b := by
  revert b
  exact forall_uInt8 (by unfold Utf8.Tail; decide +kernel)

theorem sequenceLength_eq (c : UInt8) :
    sequenceLength c =
      if c.toNat ≤ 0x7f then 1 else if c.toNat < 0xc0 then 0 else if c.toNat ≤ 0xdf then 2
      else if c.toNat ≤ 0xef then 3 else if c.toNat ≤ 0xf7 then 4 else 0 := by
  revert c
  exact forall_uInt8 (by decide +kernel)

theorem isRefused_eq (c b : UInt8) (len : ℕ) : isRefused c b len =
    decide (len = 2 ∧ c.toNat < 0xc2 ∨
      len = 3 ∧ (c.toNat = 0xe0 ∧ b.toNat < 0xa0 ∨ c.toNat = 0xed ∧ 0xa0 ≤ b.toNat) ∨
      len = 4 ∧ (c.toNat = 0xf0 ∧ b.toNat < 0x90 ∨ c.toNat = 0xf4 ∧ 0x8f < b.toNat ∨
        0xf4 < c.toNat)) := by
  simp [isRefused, UInt8.lt_iff_toNat_lt, UInt8.le_iff_toNat_le, ← UInt8.toNat_inj, Bool.or_assoc]

/-- The tests pass exactly on the sequences of the table. -/
theorem sequence_iff (c : UInt8) (u : Bytes) :
    Utf8.Sequence (c :: u) ↔ sequenceLength c = u.length + 1 ∧ u.all isContinuation = true ∧
      isRefused c (u.headD c) (u.length + 1) = false := by
  have hlen := sequenceLength_eq c
  simp only [isRefused_eq, all_eq_true, decide_eq_false_iff_not, isContinuation_iff]
  constructor
  · intro h
    cases h with
    | one first =>
      simp
      grind
    | two first second =>
      simp [second]
      grind
    | three first second shortest surrogate third =>
      simp [second, third]
      grind
    | four first second shortest largest third fourth =>
      simp [second, third, fourth]
      grind
  · rintro ⟨hc, htail, hrefused⟩
    match u with
    | [] => exact .one (by grind)
    | [b] =>
      simp at htail hrefused hc
      exact .two (by grind) (by grind)
    | [b, b'] =>
      simp at htail hrefused hc
      exact .three (by grind) htail.1 (by grind) (by grind) htail.2
    | [b, b', b''] =>
      simp at htail hrefused hc
      exact .four (by grind) htail.1 (by grind) (by grind) htail.2.1 htail.2.2
    | _ :: _ :: _ :: _ :: _ =>
      simp at hc
      grind

/-- The check takes one sequence off the front. -/
theorem isValidUtf8_sequence {c : UInt8} {u : Bytes} (h : sequenceLength c = u.length + 1)
    (t : Bytes) : isValidUtf8 (c :: (u ++ t)) =
      (u.all isContinuation && !isRefused c (u.headD c) (u.length + 1) && isValidUtf8 t) := by
  unfold sequenceLength at h
  match u with
  | [] | [_] | [_, _] | [_, _, _] =>
    rw [isValidUtf8.eq_def]
    split_ifs at h <;> simp_all [isRefused, Bool.and_assoc]
  | _ :: _ :: _ :: _ :: _ =>
    split_ifs at h <;> simp at h

/-- The check refuses a byte that leads no sequence, and a sequence that is cut off. -/
theorem isValidUtf8_short {c : UInt8} {rest : Bytes}
    (h : sequenceLength c = 0 ∨ rest.length + 1 < sequenceLength c) :
    isValidUtf8 (c :: rest) = false := by
  unfold sequenceLength at h
  rw [isValidUtf8.eq_def]
  split_ifs at h <;> simp_all <;> grind

theorem exists_split {c : UInt8} {rest : Bytes}
    (h : ¬ (sequenceLength c = 0 ∨ rest.length + 1 < sequenceLength c)) :
    ∃ u t, rest = u ++ t ∧ sequenceLength c = u.length + 1 :=
  ⟨rest.take (sequenceLength c - 1), rest.drop (sequenceLength c - 1),
    (take_append_drop _ _).symm, by rw [length_take]; omega⟩

/-- **The check of texts accepts exactly the encodings of lists of characters.** -/
theorem isValidUtf8_iff (s : Bytes) : isValidUtf8 s = true ↔ Utf8.Valid s := by
  -- both sides take one sequence off the front, so the induction is on the length
  induction hlen : s.length using Nat.strong_induction_on generalizing s with
  | _ n ih =>
    constructor
    · intro h
      cases s with
      | nil => exact Utf8.valid_nil
      | cons c rest =>
        by_cases hshort : sequenceLength c = 0 ∨ rest.length + 1 < sequenceLength c
        · rw [isValidUtf8_short hshort] at h
          cases h
        · obtain ⟨u, t, rfl, hu⟩ := exists_split hshort
          rw [isValidUtf8_sequence hu, Bool.and_eq_true, Bool.and_eq_true, Bool.not_eq_true'] at h
          refine Utf8.valid_append ((sequence_iff c u).2 ⟨hu, h.1⟩) ((ih t.length ?_ t rfl).1 h.2)
          rw [← hlen, length_cons, length_append]
          omega
    · intro h
      rcases h.cases with rfl | ⟨u, t, rfl, hu, ht⟩
      · rfl
      · cases u with
        | nil => cases hu
        | cons c u =>
          obtain ⟨hc, htails, hrefused⟩ := (sequence_iff c u).1 hu
          rw [cons_append, isValidUtf8_sequence hc, htails, hrefused]
          have hlt : t.length < n := by
            rw [← hlen, length_append, length_cons]
            omega
          exact (ih t.length hlt t rfl).2 ht

/-- A loop over the bytes `u` of a text reads them. -/
theorem allM_range' (p : UInt8 → Bool) (s u t : Bytes) :
    (range' s.length u.length).allM (fun j => p <$> (s ++ (u ++ t))[j]?) = some (u.all p) := by
  induction u generalizing s with
  | nil => rfl
  | cons b u ih =>
    have hrest := ih (s ++ [b])
    rw [length_append, append_assoc] at hrest
    rw [length_cons, range'_succ, allM, getElem?_append_right (le_refl _), Nat.sub_self]
    cases hb : p b with
    | false => simp [hb]
    | true => simpa [hb] using hrest

theorem isValidUtf8From_append (s t : Bytes) :
    isValidUtf8From (s ++ t) s.length = some (isValidUtf8 t) := by
  induction hlen : t.length using Nat.strong_induction_on generalizing s t with
  | _ n ih =>
    rw [isValidUtf8From]
    cases t with
    | nil => simp [isValidUtf8]
    | cons c rest =>
      by_cases hshort : sequenceLength c = 0 ∨ rest.length + 1 < sequenceLength c
      · rw [isValidUtf8_short hshort]
        simp [hshort]
      · obtain ⟨u, t, rfl, hu⟩ := exists_split hshort
        have hcons : s ++ c :: (u ++ t) = s ++ [c] ++ (u ++ t) := by simp
        have htails := allM_range' isContinuation (s ++ [c]) u t
        have hlt : t.length < n := by
          rw [← hlen, length_cons, length_append]
          omega
        have hrest := ih t.length hlt (s ++ c :: u) t rfl
        have hsnd : (if u.length + 1 = 1 then some c else (s ++ c :: (u ++ t))[s.length + 1]?) =
            some (u.headD c) := by
          cases u <;> simp
        rw [← hcons, length_append, length_singleton] at htails
        rw [append_assoc, cons_append, length_append, length_cons] at hrest
        rw [dif_pos (by simp), getElem?_append_right (le_refl _), Nat.sub_self, getElem?_cons_zero]
        simp only [hu, Option.bind_eq_bind, Option.bind_some, Option.pure_def, Nat.add_sub_cancel,
          htails, hsnd, hrest]
        rw [dif_neg (by simp), isValidUtf8_sequence hu]
        cases u.all isContinuation <;> cases isRefused c (u.headD c) (u.length + 1) <;> rfl

/-- **`is_valid_utf8` is exact, and reads no byte outside the text.** -/
theorem isValidUtf8From_spec (s : Bytes) :
    ∃ valid, isValidUtf8From s 0 = some valid ∧ (valid = true ↔ Utf8.Valid s) :=
  ⟨isValidUtf8 s, isValidUtf8From_append [] s, isValidUtf8_iff s⟩
/-! ### The parser as a machine -/

variable {rest : Bytes}

theorem parseLength_append {len7 : UInt8} (d : Bytes) (h : parseLength len7 rest ≠ .incomplete) :
    parseLength len7 (rest ++ d) = parseLength len7 rest := by
  rw [parseLength] at h
  rw [parseLength, parseLength]
  by_cases h₁ : len7 = 126
  · simp only [if_pos h₁] at h ⊢
    have hsize : ¬ rest.length < 2 := fun hlt => h (if_pos hlt)
    rw [if_neg hsize, if_neg (by rw [length_append]; omega),
      take_append_of_le_length (by omega)]
  · by_cases h₂ : len7 = 127
    · simp only [if_neg h₁, if_pos h₂] at h ⊢
      have hsize : ¬ rest.length < 8 := fun hlt => h (if_pos hlt)
      rw [if_neg hsize, if_neg (by rw [length_append]; omega),
        take_append_of_le_length (by omega)]
    · rw [if_neg h₁, if_neg h₂, if_neg h₁, if_neg h₂]

variable {n size : ℕ}

/-- The length takes no more bytes than there are. -/
theorem size_le_of_parseLength {len7 : UInt8} (h : parseLength len7 rest = .length n size) :
    size ≤ rest.length := by
  simp only [parseLength] at h
  split_ifs at h
  all_goals
    cases h
    omega

theorem parseMaskKey_append {fin masked : Bool} {op : Opcode} (d : Bytes)
    (hsize : size ≤ rest.length) (h : parseMaskKey fin op masked n size rest ≠ .incomplete) :
    parseMaskKey fin op masked n size (rest ++ d) = parseMaskKey fin op masked n size rest := by
  rw [parseMaskKey] at h
  refine ite_congr rfl (fun _ => rfl) fun hlarge => ?_
  refine ite_congr rfl (fun _ => rfl) fun hfrag => ?_
  refine ite_congr rfl (fun hmasked => ?_) fun _ => rfl
  rw [if_neg hlarge, if_neg hfrag, if_pos hmasked] at h
  rw [drop_append_of_le_length hsize]
  -- the key is there, or the header is not complete
  rcases hkey : rest.drop size with _ | ⟨k0, _ | ⟨k1, _ | ⟨k2, _ | ⟨k3, more⟩⟩⟩⟩
  · rw [hkey] at h
    exact absurd rfl h
  · rw [hkey] at h
    exact absurd rfl h
  · rw [hkey] at h
    exact absurd rfl h
  · rw [hkey] at h
    exact absurd rfl h
  · rfl

theorem parseSecondByte_append {fin : Bool} {op : Opcode} (d : Bytes)
    (h : parseSecondByte fin op rest ≠ .incomplete) :
    parseSecondByte fin op (rest ++ d) = parseSecondByte fin op rest := by
  cases rest with
  | nil => exact absurd rfl h
  | cons b1 rest =>
    rw [parseSecondByte] at h
    rw [cons_append, parseSecondByte, parseSecondByte]
    have hlen : parseLength (b1 &&& 0x7f) rest ≠ .incomplete := by
      intro hinc
      rw [hinc] at h
      exact h rfl
    rw [parseLength_append d hlen]
    cases hres : parseLength (b1 &&& 0x7f) rest with
    | incomplete | error => rfl
    | length n size =>
      rw [hres] at h
      exact parseMaskKey_append d (size_le_of_parseLength hres) h

variable {data : Bytes}

/-- More bytes do not change what was found. -/
theorem parseFrameHeader_append (d : Bytes) (h : parseFrameHeader data ≠ .incomplete) :
    parseFrameHeader (data ++ d) = parseFrameHeader data := by
  cases data with
  | nil => exact absurd rfl h
  | cons b0 rest =>
    rw [parseFrameHeader] at h
    rw [cons_append, parseFrameHeader, parseFrameHeader]
    cases hop : opcodeOf (b0 &&& 0x0f) with
    | none => rfl
    | some op =>
      rw [hop] at h
      simp only [] at h ⊢
      refine ite_congr rfl (fun _ => rfl) fun hbits => ?_
      rw [if_neg hbits] at h
      exact parseSecondByte_append d h

variable {header : FrameHeader}

/-- A complete header has at least two bytes, all of them there. -/
theorem headerSize_of_complete (h : parseFrameHeader data = .complete header size) :
    2 ≤ size ∧ size ≤ data.length := by
  cases data with
  | nil => cases h
  | cons b0 rest =>
    rw [parseFrameHeader] at h
    cases hop : opcodeOf (b0 &&& 0x0f) with
    | none =>
      rw [hop] at h
      cases h
    | some op =>
      rw [hop] at h
      simp only [] at h
      split_ifs at h
      cases rest with
      | nil => cases h
      | cons b1 rest =>
        rw [parseSecondByte] at h
        cases hres : parseLength (b1 &&& 0x7f) rest with
        | incomplete | error =>
          rw [hres] at h
          cases h
        | length n extended =>
          have hextended := size_le_of_parseLength hres
          rw [hres] at h
          simp only [parseMaskKey] at h
          split_ifs at h
          · rcases hkey : rest.drop extended with
              _ | ⟨k0, _ | ⟨k1, _ | ⟨k2, _ | ⟨k3, more⟩⟩⟩⟩
            all_goals
              rw [hkey] at h
              cases h
            have hlen := congrArg length hkey
            simp only [length_drop, length_cons] at hlen ⊢
            omega
          · cases h
            simp only [length_cons]
            omega

namespace FrameParser

/-- More input arrives. -/
def append (p : FrameParser) (d : Bytes) : FrameParser := { p with buffer := p.buffer ++ d }

theorem checkHeader_append (p : FrameParser) (d : Bytes) (header : FrameHeader) :
    (p.append d).checkHeader header = p.checkHeader header := rfl

theorem extractPayload_append {buffer : Bytes} {headerSize : ℕ} (d : Bytes)
    (h : headerSize + header.payloadLen ≤ buffer.length) :
    extractPayload (buffer ++ d) header headerSize = extractPayload buffer header headerSize := by
  rw [extractPayload, extractPayload, drop_append_of_le_length (by omega),
    take_append_of_le_length (by rw [length_drop]; omega)]

/-- A turn with more input behind the buffer. -/
def Turn.append : Turn → Bytes → Turn
  | .wait, _ => .wait
  | .failed p, d => .failed (p.append d)
  | .frame p size, d => .frame (p.append d) size

variable {p : FrameParser}

theorem takeData_append {payload : Bytes} {frameSize : ℕ} (d : Bytes)
    (h : frameSize ≤ p.buffer.length) :
    (p.append d).takeData header payload frameSize =
      (p.takeData header payload frameSize).append d := by
  have hdrop : (p.buffer ++ d).drop frameSize = p.buffer.drop frameSize ++ d :=
    drop_append_of_le_length h
  have hgrown : (p.append d).grown header payload = p.grown header payload := rfl
  simp only [takeData, hgrown]
  split_ifs
  · simp only [Turn.append, FrameParser.append, hdrop]
  · rfl
  · simp only [Turn.append, FrameParser.append, hdrop]

/-- **A turn that does something does the same when more input is there.** -/
theorem turn_append (d : Bytes) (h : p.turn ≠ .wait) :
    (p.append d).turn = p.turn.append d := by
  have hbuf : (p.append d).buffer = p.buffer ++ d := rfl
  rw [turn] at h
  rw [turn, turn, hbuf]
  have hcomp : parseFrameHeader p.buffer ≠ .incomplete := by
    intro hinc
    rw [hinc] at h
    exact h rfl
  rw [parseFrameHeader_append d hcomp]
  cases hhdr : parseFrameHeader p.buffer with
  | incomplete => exact absurd hhdr hcomp
  | error e => rfl
  | complete header headerSize =>
    simp only [hhdr] at h ⊢
    rw [checkHeader_append]
    cases hcheck : p.checkHeader header with
    | some e => rfl
    | none =>
      simp only [hcheck] at h ⊢
      have hsize : ¬ p.buffer.length < headerSize + header.payloadLen := fun hlt => h (if_pos hlt)
      rw [if_neg (by rw [length_append]; omega),
        extractPayload_append d (by omega)]
      split_ifs
      · rw [drop_append_of_le_length (by omega)]
        rfl
      · exact takeData_append d (by omega)

/-- What a turn leaves in the buffer, and that only a failure sets the error. -/
theorem turn_spec :
    (∀ p', p.turn = .failed p' → p'.error.isSome = true ∧ p'.buffer = p.buffer) ∧
      ∀ p' size, p.turn = .frame p' size → p'.error = p.error ∧ 2 ≤ size ∧ size ≤ p.buffer.length ∧
        p'.buffer = p.buffer.drop size := by
  rw [turn]
  cases hhdr : parseFrameHeader p.buffer with
  | incomplete | error => simp
  | complete header headerSize =>
    obtain ⟨htwo, -⟩ := headerSize_of_complete hhdr
    simp only []
    cases hcheck : p.checkHeader header with
    | some e => simp
    | none =>
      split_ifs with hsize hctrl
      · simp
      · refine ⟨by simp, fun p' size hframe => ?_⟩
        cases hframe
        exact ⟨rfl, by omega, by omega, rfl⟩
      · simp only [takeData]
        split_ifs
        · refine ⟨by simp, fun p' size hframe => ?_⟩
          cases hframe
          exact ⟨rfl, by omega, by omega, rfl⟩
        · refine ⟨fun p' hfailed => ?_, by simp⟩
          cases hfailed
          exact ⟨rfl, rfl⟩
        · refine ⟨by simp, fun p' size hframe => ?_⟩
          cases hframe
          exact ⟨rfl, by omega, by omega, rfl⟩

/-- One turn, for a parser without an error. -/
def advance (p : FrameParser) : Option FrameParser :=
  if p.error.isSome then none
  else
    match p.turn with
    | .wait => none
    | .failed p => some p
    | .frame p _ => some p

theorem advance_eq_some {p p' : FrameParser} (h : p.advance = some p') :
    p.error = none ∧ (p.turn = .failed p' ∨ ∃ size, p.turn = .frame p' size) := by
  rw [advance] at h
  split_ifs at h with herr
  refine ⟨by simpa using herr, ?_⟩
  cases hturn : p.turn with
  | wait =>
    rw [hturn] at h
    cases h
  | failed q =>
    rw [hturn] at h
    cases h
    exact .inl rfl
  | frame q size =>
    rw [hturn] at h
    cases h
    exact .inr ⟨size, rfl⟩

/-- The turns of `process_buffer`, up to the first error. -/
def machine : FeedMachine FrameParser UInt8 where
  advance := advance
  append := append
  weight p := if p.error.isSome then 0 else p.buffer.length + 1
  advance_weight := by
    intro p p' h
    obtain ⟨herror, hfailed | ⟨size, hframe⟩⟩ := advance_eq_some h
    · rw [if_pos (turn_spec.1 p' hfailed).1, if_neg (by simp [herror])]
      omega
    · obtain ⟨hsame, htwo, hsize, hbuffer⟩ := turn_spec.2 p' size hframe
      rw [hsame, if_neg (by simp [herror]), if_neg (by simp [herror]), hbuffer, List.length_drop]
      omega
  append_nil p := by simp [append]
  append_append p d e := by simp [append]

/-- **The pieces of a stream lead where the stream leads.** -/
theorem machine_joins : machine.Joins := by
  intro p p' d h
  obtain ⟨herr, hturn⟩ := advance_eq_some h
  have hnext : machine.advance (machine.append p d) = some (machine.append p' d) := by
    have hnone : (p.append d).error = none := herr
    change (p.append d).advance = some (p'.append d)
    rw [advance, if_neg (by simp [hnone])]
    rcases hturn with hfailed | ⟨size, hframe⟩
    · rw [turn_append d (by rw [hfailed]; exact nofun), hfailed]
      rfl
    · rw [turn_append d (by rw [hframe]; exact nofun), hframe]
      rfl
  exact FeedMachine.run_of_some hnext

/-- The loop runs the machine, and it returns an error exactly when the parser has one. -/
theorem processFor_eq (herr : p.error = none) (consumed : ℕ) (hn : p.buffer.length ≤ n) :
    (processFor n consumed p).1 = machine.run p ∧
      ((processFor n consumed p).2 = none ↔ (machine.run p).error.isSome = true) := by
  induction n generalizing p consumed with
  | zero =>
    have hnil : p.buffer = [] := eq_nil_of_length_eq_zero (by omega)
    have hwait : machine.advance p = none := by
      change p.advance = none
      rw [advance, if_neg (by simp [herr]), turn, hnil]
      rfl
    rw [FeedMachine.run_of_none hwait, processFor]
    simp [herr]
  | succ n ih =>
    rw [processFor]
    cases hturn : p.turn with
    | wait =>
      have hwait : machine.advance p = none := by
        change p.advance = none
        rw [advance, if_neg (by simp [herr]), hturn]
      rw [FeedMachine.run_of_none hwait]
      simp [herr]
    | failed q =>
      have hstep : machine.advance p = some q := by
        change p.advance = some q
        rw [advance, if_neg (by simp [herr]), hturn]
      have hq : q.error.isSome = true := (turn_spec.1 q hturn).1
      have hend : machine.advance q = none := by
        change q.advance = none
        rw [advance, if_pos hq]
      rw [FeedMachine.run_of_some hstep, FeedMachine.run_of_none hend]
      simp [hq]
    | frame q size =>
      have hstep : machine.advance p = some q := by
        change p.advance = some q
        rw [advance, if_neg (by simp [herr]), hturn]
      obtain ⟨hsame, htwo, hsize, hbuf⟩ := turn_spec.2 q size hturn
      rw [FeedMachine.run_of_some hstep]
      refine ih (hsame.trans herr) (consumed + size) ?_
      rw [hbuf, length_drop]
      omega

/-- **A call of `parse` feeds the machine**, and it returns an error exactly when the parser has
one. -/
theorem parse_eq_feed (herr : p.error = none) (hdata : data ≠ []) :
    (p.parse data).1 = machine.feed p data ∧
      ((p.parse data).2 = none ↔ (machine.feed p data).error.isSome = true) := by
  have happend : (p.append data).error = none := herr
  rw [parse, if_neg (by simpa using hdata)]
  exact processFor_eq happend 0 (Nat.le_refl _)

end FrameParser

end Elio.WebSocket
