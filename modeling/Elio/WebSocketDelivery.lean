/-
**What the server sends is what the client reads.**

The calls of `WebSocketSending` share one connection, and at its other end the parser of
`WebSocketFrame` gets what is written in pieces of any size.  As long as frames stay whole, it finds
the frames that have arrived, in the order in which they were written, and no error.

Main definitions:

* `Call.event`, `Call.Fits` — what a call is for the client, and what the client has to take.

Main results:

* `sent_is_read` — **the client reads what was sent.**
-/

import Elio.WebSocketCodec
import Elio.WebSocketSending

set_option autoImplicit false

namespace Elio.WebSocket.Sending

open Elio.Http (Bytes)
open Rfc6455 (Header Frame Event Within Accepts extendedSize)
open List

/-- The payload of a close frame; a code that must not be sent is replaced. -/
def closePayload (code : CloseCode) (reason : Bytes) : Bytes :=
  let code := if code = 1005 ∨ code = 1006 ∨ code = 1015 then CloseCode.protocolError else code
  (leBytes 2 code).reverse ++ reason

/-- The opcode and the payload of the frame that a call sends. -/
def Call.content : Call → Option (Opcode × Bytes)
  | .sendText message => some (.text, message)
  | .sendBinary data => some (.binary, data)
  | .sendPing payload => some (.ping, payload)
  | .sendPong payload => some (.pong, payload)
  | .close code reason => some (.close, closePayload code reason)
  | .failConnection code => some (.close, closePayload code [])
  | .receivedClose payload =>
    let code := (parseClosePayload payload).1
    some (.close, closePayload (if code = CloseCode.noStatus then CloseCode.normal else code) [])
  | .receivedPong | .readEnded => none
  | .heartbeat _ => some (.ping, [])

/-- What a frame is for the client. -/
def eventOf (op : Opcode) (payload : Bytes) : Event :=
  if isControlFrame op then .control op.value.toNat payload else .message op.value.toNat payload

/-- The event of a call. -/
def Call.event (call : Call) : Option Event :=
  call.content.map fun (op, payload) => eventOf op payload

/-- The client can take what a call sends: texts are UTF-8, and messages are within its limit. -/
def Call.Fits (limit : ℕ) (call : Call) : Prop :=
  ∀ op payload, call.content = some (op, payload) → payload.length < 2 ^ 63 ∧
    (isControlFrame op = false → Within limit payload.length) ∧
    Rfc6455.Readable op.value.toNat payload

theorem encode_eq_content (call : Call) :
    call.encode = call.content.bind fun (op, payload) => encodeWhole op payload none := by
  cases call <;> rfl

/-- The header of an unmasked frame with a payload of length `n`. -/
theorem exists_header (first : UInt8) {n : ℕ} (hn : n < 2 ^ 63) :
    ∃ h : Header, h.bytes = first :: (lengthField n).1 :: (lengthField n).2 ∧ h.first = first ∧
      h.payloadLength = n ∧ h.Minimal ∧ ¬h.masked := by
  obtain ⟨hlow, hhigh⟩ := secondByte false n
  simp only [Bool.false_eq_true, if_false, UInt8.zero_or, decide_eq_false_iff_not] at hlow hhigh
  -- the parser reads the length back, so its field is one of a header
  have hparse := parseLength_lengthField hn []
  rw [append_nil, ← hlow] at hparse
  have hsize : extendedSize (lengthField n).1 ≤ (lengthField n).2.length := by
    by_contra hshort
    simp [parseLength_short (Nat.not_le.1 hshort)] at hparse
  obtain ⟨h, more, rfl, hsecond, hextended⟩ := Rfc6455.exists_header first _ hsize
  rw [hextended, ← hsecond, parseLength_header] at hparse
  split_ifs at hparse with hover hmin
  injection hparse with hlength hall
  obtain rfl : more = [] := by simpa using hall
  exact ⟨h, by rw [Header.bytes, hsecond, hextended, append_nil], rfl, hlength, hmin,
    by rwa [Header.masked, ← highBit_iff, hsecond]⟩

variable {limit : ℕ}

/-- **What a call sends is a frame that a client accepts.** -/
theorem exists_frame {call : Call} {bytes : Bytes} (h : call.encode = some bytes)
    (hfits : call.Fits limit) :
    ∃ f ev, call.event = some ev ∧ f.wire = bytes ∧ f.Legal .client ∧
      Accepts limit none f [ev] none := by
  rw [encode_eq_content, Option.bind_eq_some_iff] at h
  obtain ⟨⟨op, payload⟩, hcontent, hencode⟩ := h
  obtain ⟨hlen, hwithin, hreadable⟩ := hfits op payload hcontent
  have hshort : isControlFrame op = true → payload.length ≤ 125 := by
    intro hctrl
    by_contra hlong
    simp [encodeWhole, encodeFrame, hctrl, Nat.not_le.1 hlong] at hencode
  have hsendable : FrameHeader.Sendable { op } payload :=
    ⟨⟨rfl, rfl, rfl⟩, fun hctrl => ⟨rfl, hshort hctrl⟩, hlen, by simp⟩
  have hbytes : (op.value ||| 0x80) :: (0 ||| (lengthField payload.length).1) ::
      ((lengthField payload.length).2 ++ payload) = bytes :=
    Option.some.inj ((encodeFrame_eq .zero hsendable).symm.trans hencode)
  obtain ⟨hd, hheader, hfirst, hlength, hminimal, hbare⟩ := exists_header (op.value ||| 0x80) hlen
  obtain ⟨hlegal, hreserved, hopcode, hfin⟩ : Rfc6455.LegalOpcode hd.opcode ∧ hd.reserved = 0 ∧
      hd.opcode = op.value.toNat ∧ hd.fin := by
    simp only [Header.opcode, Header.reserved, Header.fin, hfirst]
    cases op <;> decide
  have hcontrol : isControlFrame op = true ↔ hd.Control := by
    rw [isControlFrame_iff, Header.Control, hopcode]
  have hstart : hd.opcode ≠ 0 := by
    rw [hopcode]
    cases call <;> cases hcontent <;> decide
  refine ⟨⟨hd, [], payload, (if_neg hbare).symm, hlength.symm⟩, eventOf op payload,
    by rw [Call.event, hcontent]; rfl, ?_, ?_, ?_⟩
  · rw [Frame.wire, Rfc6455.mask_nil, hheader, ← hbytes, UInt8.zero_or]
    simp
  · exact ⟨hlegal, hreserved, hminimal, hlength.trans_lt hlen,
      fun hctrl => hlength.trans_le (hshort (hcontrol.2 hctrl)), fun _ => hfin, by simp,
      fun _ => hbare⟩
  · by_cases hctrl : isControlFrame op = true
    · rw [eventOf, if_pos hctrl, ← hopcode]
      exact .control (hcontrol.1 hctrl)
    · rw [eventOf, if_neg hctrl, ← hopcode]
      exact .single (mt hcontrol.2 hctrl) hstart (hwithin (by simpa using hctrl)) hfin
        (hopcode ▸ hreadable)

variable {ι : Type*} [DecidableEq ι]

/-- The frames of the log are what was written, and of the last one maybe a part. -/
theorem written_isPrefix {call : ι → Call} {s : State ι}
    (h : (system call).ReachableVia (WritesWhole call) s) :
    s.written <+: (s.log.map fun e => (call e.writer).frame).flatten := by
  have hwhole := Whole.of_reachable h
  rw [(Writing.of_reachable h).bytes]
  rcases eq_nil_or_concat s.log with hnil | ⟨before, last, hlast⟩
  · rw [hnil]
    exact prefix_rfl
  · have hcomplete : ∀ e ∈ before, e.bytes call = (call e.writer).frame := by
      intro e he
      have hall : e.Complete call := hwhole.earlier e (by simpa [hlast] using he)
      rw [Entry.bytes, hall, take_length]
    rw [hlast, concat_eq_append, map_append, map_append, map_congr_left hcomplete, flatten_append,
      flatten_append, prefix_append_right_inj]
    simpa [Entry.bytes] using take_prefix last.sent (call last.writer).frame

/-- **The client reads what was sent.**  In every state that is reached while frames stay whole, and
for every beginning of what was written, in any pieces: the client has no error, and what it was
given or has queued are the frames that have arrived, in the order in which they were written. -/
theorem sent_is_read (call : ι → Call) (limit : ℕ) (hcalls : ∀ i, (call i).Fits limit) (s : State ι)
    (h : (system call).ReachableVia (WritesWhole call) s) (calls : List FrameParser.Call)
    (hfed : FrameParser.fed calls <+: s.written) :
    let result := FrameParser.session { role := .client, maxMessageSize := limit } calls
    result.2.error = none ∧ ∃ queue arrived later part, result.2.Queued queue ∧
      s.log = arrived ++ later ∧
      FrameParser.fed calls = (arrived.map fun e => (call e.writer).frame).flatten ++ part ∧
      (part = [] ∨ ∃ e ∈ later.head?, part <+: (call e.writer).frame ∧
        part ≠ (call e.writer).frame) ∧
      result.1 ++ queue = arrived.filterMap fun e => (call e.writer).event := by
  intro result
  have hsent := fun e he => exists_frame
    (encode_eq_frame ((Writing.of_reachable h).entries e he).2.2) (hcalls e.writer)
  obtain ⟨arrived, later, part, hlog, hbytes, hpart, hdecodes⟩ :=
    Rfc6455.decodes_of_wires s.log hsent (hfed.trans (written_isPrefix h))
  have hreading : FrameParser.Reading { role := .client, maxMessageSize := limit } [] [] :=
    ⟨rfl, [], none, ⟨rfl, rfl, rfl⟩, ⟨fun _ => ⟨rfl, rfl⟩, by simp⟩,
      ⟨Rfc6455.nothing_shown.1, Rfc6455.nothing_shown.2⟩, .nil⟩
  obtain ⟨queue, hqueued, hsession⟩ := FrameParser.decodes_session hreading calls
  obtain ⟨hevents, hnone⟩ := hsession.unique hdecodes
  exact ⟨by simpa using hnone, queue, arrived, later, part, hqueued, hlog, hbytes, hpart, hevents⟩

/-- The ping and the beginning of the close frame come in two pieces. -/
theorem sent_is_read_pingThenClose :
    ∃ s, (system pingAndClose).runVia (WritesWhole pingAndClose) initial pingThenCloseRun = some s ∧
      (FrameParser.session { role := .client, maxMessageSize := 0 }
        [.parse [0x89], .parse [0x00, 0x88]]).2.error = none := by
  have hrun : ((system pingAndClose).runVia (WritesWhole pingAndClose) initial
      pingThenCloseRun).isSome := rfl
  have hsome := (Option.some_get hrun).symm
  have hfits : ∀ i, (pingAndClose i).Fits 0 := by
    intro i op payload hcontent
    obtain rfl | rfl : i = 0 ∨ i = 1 := by omega
    all_goals
      cases hcontent
      exact ⟨by decide, fun h => absurd h (by decide), fun h => absurd h (by decide)⟩
  exact ⟨_, hsome, (sent_is_read pingAndClose 0 hfits _ (.of_runVia (.init (init_initial _)) hsome)
    [.parse [0x89], .parse [0x00, 0x88]] ⟨[0x02, 0x03], rfl⟩).1⟩

end Elio.WebSocket.Sending
