/-
**Frames read back, and the memory of the parser.**

`encode_frame` and `parse_frame_header` are inverse: a frame in front of any bytes is found again
with its fields, and a part of its header is not enough.  The payload may be unmasked in pieces, as
long as `apply_mask` gets the number of bytes before the piece.

A frame that cannot be accepted is refused as soon as its header is there, so that the bytes that
`frame_parser` keeps are less than a header and a payload within the limit.  A call that brings no
bytes returns before it looks at anything, also after an error.

Main definitions:

* `applyMaskAt`, `applyMaskPieces` — `apply_mask` with its offset, on one piece and on many;
* `FrameParser.Bounded` — the bound on what is kept.

Main results:

* `frame_round_trip` — **a frame is read back**;
* `buffer_stays_bounded` — **the buffer is bounded by the limit for messages**.
-/

import Elio.WebSocketDecoding

set_option autoImplicit false

namespace Elio.WebSocket

open Elio.Http (Bytes)
open Rfc6455 (Header bigEndian extendedSize)
open List

/-! ### Masks in pieces -/

/-- `apply_mask` with an offset. -/
def applyMaskAt (key : MaskKey) (offset : ℕ) (data : Bytes) : Bytes :=
  data.mapIdx fun i b => b ^^^ key.bytes.getD ((offset + i) % 4) 0

/-- `apply_mask` on consecutive pieces, with the running offset. -/
def applyMaskPieces (key : MaskKey) : ℕ → List Bytes → Bytes
  | _, [] => []
  | offset, piece :: pieces =>
    applyMaskAt key offset piece ++ applyMaskPieces key (offset + piece.length) pieces

theorem applyMaskAt_append (key : MaskKey) (offset : ℕ) (u v : Bytes) :
    applyMaskAt key offset (u ++ v) =
      applyMaskAt key offset u ++ applyMaskAt key (offset + u.length) v := by
  simp only [applyMaskAt, mapIdx_append, Nat.add_assoc, Nat.add_comm u.length]

theorem applyMaskPieces_eq (key : MaskKey) (offset : ℕ) (pieces : List Bytes) :
    applyMaskPieces key offset pieces = applyMaskAt key offset pieces.flatten := by
  induction pieces generalizing offset with
  | nil => rfl
  | cons piece pieces ih => rw [applyMaskPieces, ih, flatten_cons, applyMaskAt_append]

/-- The mask is taken off in pieces. -/
theorem applyMaskPieces_applyMask (key : MaskKey) {payload : Bytes} {pieces : List Bytes}
    (h : pieces.flatten = applyMask key payload) : applyMaskPieces key 0 pieces = payload := by
  rw [applyMaskPieces_eq, h]
  simp only [applyMaskAt, Nat.zero_add]
  exact Rfc6455.mask_mask key.bytes payload

/-! ### Frames read back -/

/-- The seven bits of the length, and the bytes behind the second byte. -/
def lengthField (n : ℕ) : UInt8 × Bytes :=
  if n ≤ 125 then (UInt8.ofNat n, [])
  else if n ≤ 65535 then (126, (leBytes 2 n).reverse)
  else (127, (leBytes 8 n).reverse)

theorem bigEndian_leBytes {width n : ℕ} (h : n < 256 ^ width) :
    bigEndian (leBytes width n).reverse = n := by
  rw [bigEndian, reverse_reverse, leNat_leBytes, Nat.mod_eq_of_lt h]

theorem parseLength_lengthField {n : ℕ} (h : n < 2 ^ 63) (rest : Bytes) :
    parseLength (lengthField n).1 ((lengthField n).2 ++ rest) =
      .length n (lengthField n).2.length := by
  have hread : ∀ {width}, n < 256 ^ width →
      bigEndian (((leBytes width n).reverse ++ rest).take width) = n := by
    intro width hlt
    rw [take_left' (by simp), bigEndian_leBytes hlt]
  have hlong : ∀ width, ¬((leBytes width n).reverse ++ rest).length < width := by
    intro width
    rw [length_append, length_reverse, length_leBytes]
    omega
  rw [lengthField]
  split_ifs with hshort hmedium
  · have hnat : (UInt8.ofNat n).toNat = n := by
      rw [UInt8.toNat_ofNat', Nat.mod_eq_of_lt (by omega)]
    have hne : ∀ m : UInt8, n ≠ m.toNat → UInt8.ofNat n ≠ m := fun m hm heq => hm (heq ▸ hnat.symm)
    rw [parseLength, if_neg (hne 126 (by simp; omega)), if_neg (hne 127 (by simp; omega)), hnat]
    rfl
  · simp only [parseLength, if_true, @hread 2 (by omega)]
    rw [if_neg (hlong 2), if_neg (by omega)]
    simp
  · have hlt : n < 256 ^ 8 := h.trans (by decide)
    simp only [parseLength, hread hlt, if_true]
    rw [if_neg (by decide), if_neg (hlong 8), if_neg (by omega), if_neg (by omega)]
    simp

/-- The bits of the second byte. -/
theorem secondByte (masked : Bool) (n : ℕ) :
    (((if masked then 0x80 else 0) ||| (lengthField n).1) &&& 0x7f = (lengthField n).1) ∧
      ((((if masked then 0x80 else 0) ||| (lengthField n).1) &&& 0x80 ≠ 0 : Bool) = masked) := by
  have hbyte : ∀ b : UInt8, b.toNat < 128 → ((if masked then 0x80 else 0) ||| b) &&& 0x7f = b ∧
      ((((if masked then 0x80 else 0) ||| b) &&& 0x80 ≠ 0 : Bool) = masked) := by
    cases masked <;> exact forall_uInt8 (by decide +kernel)
  refine hbyte _ ?_
  simp only [lengthField]
  split_ifs
  · rw [UInt8.toNat_ofNat']
    omega
  · exact (by decide : (126 : UInt8).toNat < 128)
  · exact (by decide : (127 : UInt8).toNat < 128)

/-- The bits of the first byte. -/
theorem firstByte (op : Opcode) (fin : Bool) :
    opcodeOf ((op.value ||| if fin then 0x80 else 0) &&& 0x0f) = some op ∧
      ((((op.value ||| if fin then 0x80 else 0) &&& 0x80 ≠ 0) : Bool) = fin) ∧
      ¬((op.value ||| if fin then 0x80 else 0) &&& 0x40 ≠ 0 ∨
        (op.value ||| if fin then 0x80 else 0) &&& 0x20 ≠ 0 ∨
        (op.value ||| if fin then 0x80 else 0) &&& 0x10 ≠ 0) := by
  cases op <;> cases fin <;> decide

/-- A header that a frame may have, with its payload. -/
structure FrameHeader.Sendable (header : FrameHeader) (payload : Bytes) : Prop where
  reserved : header.rsv1 = false ∧ header.rsv2 = false ∧ header.rsv3 = false
  control : isControlFrame header.op = true → header.fin = true ∧ payload.length ≤ 125
  length : payload.length < 2 ^ 63
  key : header.masked = true → header.maskKey ≠ .zero

variable {header : FrameHeader} {payload : Bytes}

/-- The bytes of the key. -/
def FrameHeader.keyBytes (header : FrameHeader) : Bytes :=
  if header.masked then header.maskKey.bytes else []

/-- The fields that are read back. -/
def FrameHeader.received (header : FrameHeader) (payloadLen : ℕ) : FrameHeader where
  fin := header.fin
  op := header.op
  masked := header.masked
  payloadLen := payloadLen
  maskKey := if header.masked then header.maskKey else .zero

/-- The payload on the wire. -/
def FrameHeader.body (header : FrameHeader) (payload : Bytes) : Bytes :=
  if header.masked then applyMask header.maskKey payload else payload

/-- The rules for control frames are kept. -/
theorem FrameHeader.Sendable.checks (h : header.Sendable payload) :
    (isControlFrame header.op && decide (125 < payload.length)) = false ∧
      (isControlFrame header.op && !header.fin) = false := by
  cases hctrl : isControlFrame header.op with
  | false => exact ⟨rfl, rfl⟩
  | true =>
    obtain ⟨hfin, hshort⟩ := h.control hctrl
    simp [hfin, hshort]

theorem encodeFrame_eq (fresh : MaskKey) (h : header.Sendable payload) :
    encodeFrame fresh header payload =
      some ((header.op.value ||| if header.fin then 0x80 else 0) ::
        ((if header.masked then 0x80 else 0) ||| (lengthField payload.length).1) ::
          ((lengthField payload.length).2 ++ (header.keyBytes ++ header.body payload))) := by
  obtain ⟨hrsv1, hrsv2, hrsv3⟩ := h.reserved
  obtain ⟨hshort, hfin⟩ := h.checks
  have hbody : (if header.masked then
      (if header.maskKey = .zero then fresh else header.maskKey).bytes ++
        applyMask (if header.maskKey = .zero then fresh else header.maskKey) payload
      else payload) = header.keyBytes ++ header.body payload := by
    rw [FrameHeader.keyBytes, FrameHeader.body]
    split_ifs with hmasked hzero
    · exact absurd hzero (h.key hmasked)
    · rfl
    · rfl
  simp only [encodeFrame, hfin, hshort, hrsv1, hrsv2, hrsv3, hbody, lengthField,
    Bool.false_eq_true, if_false, UInt8.or_zero]
  split_ifs <;> simp

theorem parseMaskKey_keyBytes (h : header.Sendable payload) (extended rest : Bytes) :
    parseMaskKey header.fin header.op header.masked payload.length extended.length
        (extended ++ (header.keyBytes ++ rest)) =
      .complete (header.received payload.length)
        (2 + extended.length + header.keyBytes.length) := by
  obtain ⟨hlong, hwhole⟩ := h.checks
  rw [parseMaskKey, hlong, hwhole, drop_left, FrameHeader.keyBytes, FrameHeader.received]
  cases header.masked <;> rfl

/-- **A frame is read back**: in front of any bytes, `parse_frame_header` finds its fields, what
follows the header is the payload under the mask, which comes off in pieces, and a part of the
header is not enough. -/
theorem frame_round_trip (fresh : MaskKey) (header : FrameHeader) (payload r : Bytes)
    (h : header.Sendable payload) :
    ∃ frame parsed size, encodeFrame fresh header payload = some frame ∧
      parseFrameHeader (frame ++ r) = .complete parsed size ∧
      parsed.fin = header.fin ∧ parsed.op = header.op ∧ parsed.masked = header.masked ∧
      (header.masked = true → parsed.maskKey = header.maskKey) ∧
      parsed.payloadLen = payload.length ∧ size + payload.length = frame.length ∧
      (∀ pieces : List Bytes, pieces.flatten = ((frame ++ r).drop size).take payload.length →
        (if header.masked then applyMaskPieces header.maskKey 0 pieces else pieces.flatten) =
          payload) ∧
      (frame ++ r).drop (size + payload.length) = r ∧
      ∀ n < size, parseFrameHeader (frame.take n) = .incomplete := by
  obtain ⟨hop, hfin, hbits⟩ := firstByte header.op header.fin
  obtain ⟨hlen, hmasked⟩ := secondByte header.masked payload.length
  have hlength := parseLength_lengthField h.length
  have hencode := encodeFrame_eq fresh h
  generalize (header.op.value ||| if header.fin then 0x80 else 0) = b0 at *
  generalize ((if header.masked then 0x80 else 0) ||| (lengthField payload.length).1) = b1 at *
  generalize (lengthField payload.length).2 = extended at *
  have hparse : ∀ rest, parseFrameHeader (b0 :: b1 :: extended ++ header.keyBytes ++ rest) =
      .complete (header.received payload.length)
        (b0 :: b1 :: extended ++ header.keyBytes).length := by
    intro rest
    simp only [cons_append, append_assoc, parseFrameHeader, hop, if_neg hbits, hfin,
      parseSecondByte, hlen, hlength, hmasked, parseMaskKey_keyBytes h, length_cons,
      length_append]
    congr 1
    omega
  have hbody : (header.body payload).length = payload.length := by
    rw [FrameHeader.body]
    split_ifs
    · exact Rfc6455.length_mask _ _
    · rfl
  have hframe : b0 :: b1 :: (extended ++ (header.keyBytes ++ header.body payload)) =
      b0 :: b1 :: extended ++ header.keyBytes ++ header.body payload := by simp
  rw [hframe] at hencode
  generalize b0 :: b1 :: extended ++ header.keyBytes = head at *
  refine ⟨_, header.received payload.length, head.length, hencode, ?_, rfl, rfl, rfl,
    fun hkey => if_pos hkey, rfl, ?_, fun pieces hpieces => ?_, ?_, fun n hn => ?_⟩
  · rw [append_assoc, hparse]
  · rw [length_append, hbody]
  · rw [append_assoc, drop_left, take_left' hbody, FrameHeader.body] at hpieces
    split_ifs at hpieces ⊢
    · exact applyMaskPieces_applyMask _ hpieces
    · exact hpieces
  · rw [← hbody, ← length_append, drop_left]
  · -- what a part of the header shows would be shown by the whole frame
    by_contra hfound
    have hwhole := parseFrameHeader_append ((head ++ header.body payload).drop n) hfound
    rw [take_append_drop, hparse] at hwhole
    have hsize := (headerSize_of_complete hwhole.symm).2
    rw [length_take] at hsize
    omega

/-- A masked ping. -/
def pingHeader : FrameHeader where
  op := .ping
  masked := true
  maskKey := ⟨1, 2, 3, 4⟩

theorem frame_round_trip_ping :
    ∃ frame parsed size, encodeFrame .zero pingHeader [7, 7, 7, 7, 7] = some frame ∧
      parseFrameHeader (frame ++ [9]) = .complete parsed size ∧ parsed.op = .ping ∧
      size + 5 = frame.length := by
  obtain ⟨frame, parsed, size, hencode, hparse, -, hop, -, -, -, hlength, -⟩ :=
    frame_round_trip .zero pingHeader [7, 7, 7, 7, 7] [9]
      ⟨⟨rfl, rfl, rfl⟩, fun _ => ⟨rfl, by decide⟩, by decide, fun _ => by decide⟩
  exact ⟨frame, parsed, size, hencode, hparse, hop, hlength⟩

/-! ### What the parser keeps -/

/-- How long a header can be, and the payload of a control frame. -/
theorem parseFrameHeader_size (data : Bytes) :
    (parseFrameHeader data = .incomplete → data.length < 14) ∧
      ∀ header size, parseFrameHeader data = .complete header size →
        size ≤ 14 ∧ (isControlFrame header.op = true → header.payloadLen ≤ 125) := by
  have hextended : ∀ b, extendedSize b ≤ 8 := fun b => by
    rw [extendedSize]
    split_ifs <;> omega
  have hkey : ∀ h : Header, h.keySize ≤ 4 := fun h => by
    rw [Header.keySize]
    split_ifs <;> omega
  have hfound := found data
  generalize parseFrameHeader data = result at hfound
  cases hfound with
  | incomplete first length header =>
    refine ⟨fun _ => ?_, (by simp)⟩
    by_contra hlong
    rcases data with _ | ⟨b₀, _ | ⟨b₁, rest⟩⟩ <;>
      simp only [length_cons, length_nil] at hlong
    · omega
    · omega
    have hsize := hextended b₁
    obtain ⟨h, more, rfl, rfl, rfl⟩ :=
      Rfc6455.exists_header b₀ b₁ (show extendedSize b₁ ≤ rest.length by omega)
    rw [length_append, h.sized] at hlong
    have hfour := hkey h
    refine header h (more.take h.keySize) (more.drop h.keySize) ?_ ?_
    · rw [length_take]
      omega
    · simp [Header.bytes]
  | first | length => exact ⟨by simp, by simp⟩
  | @complete h key rest header key_length first length describes =>
    refine ⟨by simp, fun _ _ heq => ?_⟩
    cases heq
    have hsize := hextended h.second
    have hfour := hkey h
    rw [length_append, Header.bytes, length_cons, length_cons, h.sized]
    refine ⟨by omega, fun hctrl => ?_⟩
    by_contra hexcess
    rw [describes.length] at hexcess
    exact length _ (.long (describes.control_iff.1 hctrl) (by omega))

namespace FrameParser

/-- **The bound on what is kept**: less than a header and a payload that is within the limit. -/
def Bounded (limit : ℕ) (p : FrameParser) : Prop :=
  p.buffer.length < 14 + max 125 (limit - p.currentMessage.data.length)

/-- The message that is open is within the limit. -/
structure Within (limit : ℕ) (p : FrameParser) : Prop where
  limit_eq : p.maxMessageSize = limit
  opened : p.currentMessage.data.length ≤ limit

variable {limit : ℕ} {p : FrameParser}

/-- A data frame that passes the checks fits the message. -/
theorem payloadLen_le (hlim : 0 < limit) (h : p.Within limit)
    (hdata : isControlFrame header.op = false) (hcheck : p.checkHeader header = none) :
    header.payloadLen ≤ limit - p.currentMessage.data.length := by
  simp only [checkHeader, hdata, h.limit_eq, Bool.false_eq_true, if_false] at hcheck
  split_ifs at hcheck with h₁ h₂ h₃ h₄ hlarge
  simp only [hlim, decide_true, Bool.true_and, Bool.or_eq_true, decide_eq_true_iff,
    not_or] at hlarge
  omega

theorem length_extractPayload_le (buffer : Bytes) (header : FrameHeader) (size : ℕ) :
    (extractPayload buffer header size).length ≤ header.payloadLen := by
  rw [extractPayload]
  split_ifs
  · exact (Rfc6455.length_mask _ _).trans_le (length_take_le _ _)
  · exact length_take_le _ _

/-- What a turn leaves: a turn that waits leaves less than a frame, and the others keep the message
within the limit, also when they fail. -/
def Turn.Keeps (limit : ℕ) (p : FrameParser) : Turn → Prop
  | .wait => p.Bounded limit
  | .failed q => q.Within limit
  | .frame q _ => q.Within limit

theorem Within.takeData (h : p.Within limit) {payload : Bytes}
    (hpay : payload.length ≤ limit - p.currentMessage.data.length) (size : ℕ) :
    (p.takeData header payload size).Keeps limit p := by
  have hopened := h.opened
  have hgrown : (p.grown header payload).data.length ≤ limit := by
    rw [grown]
    split_ifs
    · simp only [length_append, length_nil]
      omega
    · simp only [length_append]
      omega
  simp only [FrameParser.takeData]
  split_ifs
  · exact ⟨h.limit_eq, hgrown⟩
  · exact ⟨h.limit_eq, hgrown⟩
  · exact ⟨h.limit_eq, Nat.zero_le _⟩

theorem Within.turn (hlim : 0 < limit) (h : p.Within limit) : p.turn.Keeps limit p := by
  obtain ⟨hinc, hcomp⟩ := parseFrameHeader_size p.buffer
  rw [FrameParser.turn]
  cases hhdr : parseFrameHeader p.buffer with
  | incomplete =>
    have hshort := hinc hhdr
    exact hshort.trans_le (Nat.le_add_right _ _)
  | error => exact { h with }
  | complete header size =>
    obtain ⟨hsize, hctrl⟩ := hcomp header size hhdr
    simp only
    cases hcheck : p.checkHeader header with
    | some => exact { h with }
    | none =>
      have hdata := fun hop => payloadLen_le hlim h hop hcheck
      split_ifs with hshort hop
      · rw [Turn.Keeps, Bounded]
        cases hop : isControlFrame header.op with
        | true =>
          have hpay := hctrl hop
          omega
        | false =>
          have hpay := hdata hop
          omega
      · exact { h with }
      · have hpay := hdata (Bool.eq_false_iff.2 hop)
        exact h.takeData ((length_extractPayload_le ..).trans hpay) _

/-- The loop ends with a turn that waits, or with an error. -/
theorem Within.processFor (hlim : 0 < limit) (h : p.Within limit) {n : ℕ} (consumed : ℕ)
    (hn : p.buffer.length ≤ n) :
    (processFor n consumed p).1.Within limit ∧
      ((processFor n consumed p).2 = none → (processFor n consumed p).1.error.isSome = true) ∧
      ((processFor n consumed p).2 ≠ none → (processFor n consumed p).1.Bounded limit) := by
  induction n generalizing p consumed with
  | zero =>
    refine ⟨h, fun hnone => (by cases hnone), fun _ => ?_⟩
    change p.buffer.length < _
    omega
  | succ n ih =>
    have hkeeps := h.turn hlim
    rw [FrameParser.processFor]
    cases hturn : p.turn with
    | wait =>
      rw [hturn] at hkeeps
      exact ⟨h, fun hnone => (by cases hnone), fun _ => hkeeps⟩
    | failed q =>
      rw [hturn] at hkeeps
      exact ⟨hkeeps, fun _ => (turn_spec.1 q hturn).1, fun hsome => absurd rfl hsome⟩
    | frame q size =>
      rw [hturn] at hkeeps
      obtain ⟨-, htwo, hsize, hbuf⟩ := turn_spec.2 q size hturn
      refine ih hkeeps _ ?_
      rw [hbuf, length_drop]
      omega

/-- What holds between the calls. -/
structure Sound (limit : ℕ) (p : FrameParser) : Prop extends p.Within limit where
  bounded : p.error = none → p.Bounded limit

/-- A call of `parse` keeps the bound, and restores it if it brings bytes. -/
theorem Sound.parse (hlim : 0 < limit) (h : p.Sound limit) (d : Bytes) :
    (p.parse d).1.Sound limit ∧
      ((p.parse d).2 ≠ none → d ≠ [] ∨ p.error = none → (p.parse d).1.Bounded limit) := by
  cases d with
  | nil => exact ⟨h, fun _ hb => h.bounded (hb.resolve_left fun hne => hne rfl)⟩
  | cons b d =>
    have hstart : (p.append (b :: d)).Within limit := { h with }
    obtain ⟨hwithin, herr, hbounded⟩ := hstart.processFor hlim 0 le_rfl
    refine ⟨⟨hwithin, fun hnone => hbounded fun hfail => ?_⟩, fun hok _ => hbounded hok⟩
    have hsome := herr hfail
    rw [Option.isSome_iff_ne_none] at hsome
    exact hsome hnone

end FrameParser

end Elio.WebSocket
