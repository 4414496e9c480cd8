/-
**The response parser, and the cut of its input.**

`response_parser` of `http/http_parser.hpp` drives a `response_decoder`: it keeps the input that the
decoder has not taken, calls `decode` until no more events come, and collects the body.  Fed with
the pieces of a stream, it ends where it ends when it is fed with the whole.  The events differ,
since a body event borrows from the piece at hand; what the decoder has found, the body, and the
number of bytes that were taken do not.

Main definitions:

* `ResponseParser.feed` — a stream in pieces, with what the calls have reported.

Main results:

* `ResponseParser.split_independent` — **the cut of the input makes no difference**.
-/

import Elio.RequestParser
import Elio.ResponseDecoderRun

set_option autoImplicit false

namespace Elio.Http

open ResponseDecoder Decoding
open List

/-- `response_parser`. -/
@[ext]
structure ResponseParser where
  decoder : ResponseDecoder
  buffer : Bytes
  body : Bytes
  deriving DecidableEq, Repr

/-- What a call of `parse` has found: the last event of the decoder, the result, the bytes that the
calls of `decode` have reported as consumed, and those that `parse` reports. -/
structure ParseReport where
  event : ResponseEvent
  result : ParseResult
  decoded : ℕ
  consumed : ℕ
  deriving DecidableEq, Repr

namespace ResponseParser

/-- `result_kind`. -/
def resultKind (d : ResponseDecoder) : ParseResult :=
  if d.state = .error then .error else if d.state = .complete then .complete else .needMore

/-- The loop of `parse`: `offset` is what the calls of `decode` have consumed of the buffer.  As in
`ResponseDecoder.drain` the bound is never reached. -/
def parseLoop : ℕ → ResponseDecoder → Bytes → ℕ → Bytes →
    ResponseDecoder × ResponseEvent × Bytes × ℕ
  | 0, d, _, offset, body => (d, .needMore, body, offset)
  | bound + 1, d, buffer, offset, body =>
    match d.decode (buffer.drop offset) with
    | (d', ⟨.body, consumed, payload⟩) =>
      parseLoop bound d' buffer (offset + consumed) (body ++ payload)
    | (d', ⟨.headersComplete, consumed, _⟩) => parseLoop bound d' buffer (offset + consumed) body
    | (d', ⟨event, consumed, _⟩) => (d', event, body, offset + consumed)

/-- `parse`. -/
def parse (p : ResponseParser) (data : Bytes) : ResponseParser × ParseReport :=
  let oldPending := p.decoder.line.length
  let buffer := p.buffer ++ data
  let r := parseLoop (2 * buffer.length + 3) p.decoder buffer 0 p.body
  (⟨r.1, buffer.drop r.2.2.2, r.2.2.1⟩,
    ⟨r.2.1, resultKind r.1, r.2.2.2, oldPending + r.2.2.2 - r.1.line.length⟩)

/-- A parser after `reset` and `set_request_method`. -/
def fresh (maxHeaders maxHeaderSize : ℕ) (requestMethod : Option Method) : ResponseParser :=
  ⟨.fresh maxHeaders maxHeaderSize requestMethod, [], []⟩

/-- The stream arrives in pieces: the parser, the last event and result, and the numbers of bytes
that were reported, all calls together. -/
def feed (p : ResponseParser) (pieces : List Bytes) : ResponseParser × ParseReport :=
  pieces.foldl (fun c piece =>
    let r := c.1.parse piece
    (r.1, { r.2 with decoded := c.2.decoded + r.2.decoded, consumed := c.2.consumed + r.2.consumed }))
    (p, ⟨(p.decoder.atEnd 0).event, resultKind p.decoder, 0, 0⟩)

/-! ### One call -/

theorem consumed_atEnd (d : ResponseDecoder) (used : ℕ) : (d.atEnd used).consumed = used := by
  rw [atEnd]
  cases d.state <;> rfl

theorem consumed_decodeBody_le (d : ResponseDecoder) (input : Bytes) (used : ℕ) :
    (d.decodeBody input used).2.consumed ≤ used + input.length := by
  rw [decodeBody]
  split_ifs
  · exact le_rfl
  · exact Nat.add_le_add_left (Nat.min_le_right _ _) _

theorem consumed_le (d : ResponseDecoder) (input : Bytes) (used : ℕ) :
    (d.decodeLoop input used).2.consumed ≤ used + input.length := by
  induction input generalizing d used with
  | nil => exact (consumed_atEnd d used).le
  | cons c input ih =>
    have hnext : ∀ d' : ResponseDecoder,
        (d'.decodeLoop input (used + 1)).2.consumed ≤ used + (c :: input).length := by
      intro d'
      have := ih d' (used + 1)
      rw [length_cons]
      omega
    have hend : (d.atEnd used).consumed ≤ used + (c :: input).length := by
      rw [consumed_atEnd]
      exact Nat.le_add_right _ _
    have hbody := consumed_decodeBody_le d (c :: input) used
    have hline : ∀ (boundary : Bool) (d' : ResponseDecoder),
        (if boundary = true then (d', ⟨.headersComplete, used + 1, []⟩)
          else d'.decodeLoop input (used + 1) : ResponseDecoder × DecodeResult).2.consumed ≤
          used + (c :: input).length := by
      intro boundary d'
      cases boundary with
      | false => exact hnext d'
      | true => exact Nat.add_le_add_left (Nat.le_add_left 1 _) used
    rw [decodeLoop]
    cases d.state with
    | error | complete => exact hend
    | fixedBody | closeBody | chunkBody => exact hbody
    | chunkCr | chunkLf =>
      dsimp only
      split_ifs
      · exact Nat.le_add_right _ _
      · exact hnext _
    | statusLine | headers | chunkSize | trailers => exact hline _ _

/-- The loop of `parse` is `drain`, with the number of bytes instead of the bytes that are left. -/
theorem parseLoop_eq (bound : ℕ) :
    ∀ (d : ResponseDecoder) (buffer : Bytes) (offset : ℕ) (body : Bytes), offset ≤ buffer.length →
      (parseLoop bound d buffer offset body).2.2.2 ≤ buffer.length ∧
      drainLoop bound d (buffer.drop offset) body =
        ((parseLoop bound d buffer offset body).1, (parseLoop bound d buffer offset body).2.1,
          (parseLoop bound d buffer offset body).2.2.1,
          buffer.drop (parseLoop bound d buffer offset body).2.2.2) := by
  induction bound with
  | zero => exact fun d buffer offset body hoffset => ⟨hoffset, rfl⟩
  | succ bound ih =>
    intro d buffer offset body hoffset
    have hle := consumed_le d (buffer.drop offset) 0
    rw [parseLoop, drainLoop, decode]
    generalize d.decodeLoop (buffer.drop offset) 0 = r at hle ⊢
    obtain ⟨d', event, consumed, payload⟩ := r
    change consumed ≤ _ at hle
    rw [length_drop] at hle
    have hnext : offset + consumed ≤ buffer.length := by omega
    cases event with
    | body =>
      dsimp only
      rw [drop_drop]
      exact ih d' buffer (offset + consumed) (body ++ payload) hnext
    | headersComplete =>
      dsimp only
      rw [drop_drop]
      exact ih d' buffer (offset + consumed) body hnext
    | needMore | messageComplete | protocolHandoff | error =>
      dsimp only
      rw [drop_drop]
      exact ⟨hnext, rfl⟩

/-- The state of the machine. -/
def toDecoding (p : ResponseParser) : Decoding := ⟨p.decoder, p.buffer, p.body⟩

/-- **A call of `parse` feeds the machine.** -/
theorem parse_spec (p : ResponseParser) (data : Bytes) :
    (p.parse data).1.toDecoding = machine.feed p.toDecoding data ∧
      (p.parse data).2.event = ((p.parse data).1.decoder.atEnd 0).event ∧
      (p.parse data).2.result = resultKind (p.parse data).1.decoder ∧
      (p.parse data).2.decoded + (p.parse data).1.buffer.length = p.buffer.length + data.length := by
  obtain ⟨hle, hloop⟩ := parseLoop_eq (2 * (p.buffer ++ data).length + 3) p.decoder
    (p.buffer ++ data) 0 p.body (Nat.zero_le _)
  have hbound : weight ⟨p.decoder, p.buffer ++ data, []⟩ < 2 * (p.buffer ++ data).length + 3 := by
    have := phase_le p.decoder.state
    simp only [weight]
    omega
  rw [drop_zero, drainLoop_eq hbound p.body] at hloop
  rw [parse]
  obtain ⟨hdecoder, hev, hbody, hin⟩ := Prod.mk.inj hloop |>.imp_right fun h =>
    (Prod.mk.inj h).imp_right Prod.mk.inj
  dsimp only at hdecoder hev hbody hin hle ⊢
  refine ⟨?_, ?_, rfl, ?_⟩
  · refine Decoding.ext ?_ ?_ ?_
    · exact hdecoder.symm
    · exact hin.symm
    · exact hbody.symm
  · rw [← hev, hdecoder]
  · rw [length_drop]
    rw [length_append] at hle ⊢
    omega

/-! ### Bytes in framing lines -/

section

variable (d : ResponseDecoder)

include d

theorem line_statusLine (line : Bytes) : (ResponseDecoder.statusLine d line).line = d.line := by
  rw [ResponseDecoder.statusLine]
  split
  · rfl
  · split_ifs
    · rfl
    · dsimp only
      split
      · split_ifs <;> rfl
      · rfl

theorem line_headerLine (line : Bytes) : (d.headerLine line).line = d.line := by
  rw [headerLine]
  split
  · rfl
  · dsimp only
    split_ifs
    all_goals try rfl
    all_goals split <;> rfl

theorem line_selectFraming : d.selectFraming.line = d.line := by
  rw [selectFraming]
  dsimp only
  split_ifs
  all_goals try rfl
  split <;> rfl

theorem line_processLine (line : Bytes) : (d.processLine line).line = d.line := by
  have hhdr : (if line.isEmpty then d.selectFraming else d.headerLine line).line = d.line := by
    split_ifs
    · exact line_selectFraming d
    · exact line_headerLine d line
  rw [processLine]
  cases d.state with
  | statusLine => exact line_statusLine d line
  | chunkSize =>
    dsimp only
    rw [chunkSizeLine]
    split <;> rfl
  | trailers =>
    rw [trailerLine]
    split_ifs <;> rfl
  | headers | fixedBody | closeBody | chunkBody | chunkCr | chunkLf | complete | error =>
    exact hhdr

theorem length_lineByte_le (c : UInt8) : (d.lineByte c).line.length ≤ d.line.length + 1 := by
  have hend : ∀ line, (d.endLine line).line.length ≤ d.line.length + 1 := by
    intro line
    have hemp : ({ d with line := [] }.processLine line).line.length ≤ d.line.length + 1 := by
      rw [line_processLine]
      exact Nat.zero_le _
    rw [endLine]
    split_ifs <;> exact hemp
  rw [lineByte]
  split_ifs
  · exact Nat.le_succ _
  · exact Nat.le_succ _
  · exact hend _
  · exact Nat.le_succ _
  · exact (length_append).le

/-- What the decoder keeps of a line it has taken from the input. -/
theorem pending_byte_le (c : UInt8) (input body : Bytes) :
    (byte d c input body).decoder.line.length + (byte d c input body).input.length ≤
      d.line.length + (c :: input).length := by
  have hline := length_lineByte_le d c
  rw [byte]
  cases d.state with
  | statusLine | headers | chunkSize | trailers =>
    dsimp only
    rw [length_cons]
    omega
  | fixedBody | chunkBody =>
    dsimp only
    rw [bodyByte]
    split_ifs
    · exact le_rfl
    · exact Nat.add_le_add_left (Nat.le_succ _) _
    · exact Nat.add_le_add_left (Nat.le_succ _) _
  | chunkCr | chunkLf =>
    dsimp only
    split_ifs
    · exact le_rfl
    · exact Nat.add_le_add_left (Nat.le_succ _) _
  | closeBody =>
    dsimp only
    rw [length_cons]
    omega
  | complete | error => exact le_rfl

end

theorem pending_run_le (s : Decoding) :
    (machine.run s).decoder.line.length + (machine.run s).input.length ≤
      s.decoder.line.length + s.input.length := by
  refine FeedMachine.run_induction
    (P := fun t : Decoding => t.decoder.line.length + t.input.length ≤ s.decoder.line.length + s.input.length)
    (fun t t' h hadvance => ?_) le_rfl
  obtain ⟨c, input, hin, -, rfl⟩ := advance_eq_some hadvance
  have hbyte := pending_byte_le t.decoder c input t.body
  rw [hin] at h
  exact hbyte.trans h

/-- **The bytes that `parse` reports** are those that have left both the buffer and the line. -/
theorem parse_consumed (p : ResponseParser) (data : Bytes) :
    (p.parse data).2.consumed + (p.parse data).1.decoder.line.length +
        (p.parse data).1.buffer.length =
      p.decoder.line.length + p.buffer.length + data.length := by
  obtain ⟨hfeed, -, -, hdecoded⟩ := parse_spec p data
  have hpend := pending_run_le (machine.append p.toDecoding data)
  change (machine.feed p.toDecoding data).decoder.line.length +
    (machine.feed p.toDecoding data).input.length ≤
      p.decoder.line.length + (p.buffer ++ data).length at hpend
  rw [← hfeed, length_append] at hpend
  change (p.parse data).1.decoder.line.length + (p.parse data).1.buffer.length ≤ _ at hpend
  have hcons : (p.parse data).2.consumed =
      p.decoder.line.length + (p.parse data).2.decoded - (p.parse data).1.decoder.line.length := rfl
  omega

/-! ### Streams -/

/-- What is known after some pieces: `total` is their length. -/
structure Reported (p : ResponseParser) (total : ℕ) (c : ResponseParser × ParseReport) : Prop where
  event : c.2.event = (c.1.decoder.atEnd 0).event
  result : c.2.result = resultKind c.1.decoder
  decoded : c.2.decoded + c.1.buffer.length = p.buffer.length + total
  consumed : c.2.consumed + c.1.decoder.line.length + c.1.buffer.length =
    p.decoder.line.length + p.buffer.length + total

theorem feed_append (p : ResponseParser) (pieces : List Bytes) (piece : Bytes) :
    p.feed (pieces ++ [piece]) =
      (((p.feed pieces).1.parse piece).1,
        { ((p.feed pieces).1.parse piece).2 with
          decoded := (p.feed pieces).2.decoded + ((p.feed pieces).1.parse piece).2.decoded
          consumed := (p.feed pieces).2.consumed + ((p.feed pieces).1.parse piece).2.consumed }) := by
  rw [feed, foldl_append]
  rfl

/-- The stream that was fed, and what was reported of it. -/
theorem feed_spec (p : ResponseParser) (pieces : List Bytes) :
    (p.feed pieces).1.toDecoding = machine.feedAll p.toDecoding pieces ∧
      Reported p pieces.flatten.length (p.feed pieces) := by
  induction pieces using reverseRecOn with
  | nil =>
    refine ⟨rfl, rfl, rfl, Nat.zero_add _, ?_⟩
    change 0 + _ + _ = _
    rw [Nat.zero_add]
    rfl
  | append_singleton pieces piece ih =>
    obtain ⟨hfeed, hreported⟩ := ih
    obtain ⟨hparse, hev, hres, hdecoded⟩ := parse_spec (p.feed pieces).1 piece
    have hcons := parse_consumed (p.feed pieces).1 piece
    have hdecoded' := hreported.decoded
    have hconsumed' := hreported.consumed
    rw [feed_append]
    refine ⟨?_, hev, hres, ?_, ?_⟩
    · rw [FeedMachine.feedAll, foldl_append]
      change _ = machine.feed (machine.feedAll p.toDecoding pieces) piece
      rw [← hfeed]
      exact hparse
    · rw [flatten_append, length_append, flatten_singleton]
      dsimp only
      omega
    · rw [flatten_append, length_append, flatten_singleton]
      dsimp only
      omega

/-- **The cut of the input makes no difference.**  Whatever the limits and the request method: after
the pieces of a stream the decoder is as it is after the whole stream, with its status, headers,
framing, completion or error and message, and so are the body, the input that was not taken, the
last event, the result, and the numbers of bytes that the calls of `decode` and of `parse` have
reported. -/
theorem split_independent (maxHeaders maxHeaderSize : ℕ) (requestMethod : Option Method)
    (piece : Bytes) (pieces : List Bytes) :
    (fresh maxHeaders maxHeaderSize requestMethod).feed (piece :: pieces) =
      (fresh maxHeaders maxHeaderSize requestMethod).feed [(piece :: pieces).flatten] := by
  obtain ⟨hcut, hcutReport⟩ :=
    feed_spec (fresh maxHeaders maxHeaderSize requestMethod) (piece :: pieces)
  obtain ⟨hwhole, hwholeReport⟩ :=
    feed_spec (fresh maxHeaders maxHeaderSize requestMethod) [(piece :: pieces).flatten]
  rw [FeedMachine.feedAll_eq_feed_flatten machine_joins] at hcut hwhole
  rw [flatten_singleton] at hwhole hwholeReport
  generalize (fresh maxHeaders maxHeaderSize requestMethod).feed (piece :: pieces) = c at *
  generalize (fresh maxHeaders maxHeaderSize requestMethod).feed [(piece :: pieces).flatten] = w at *
  obtain ⟨⟨d, buffer, body⟩, event, result, decoded, consumed⟩ := c
  obtain ⟨⟨d', buffer', body'⟩, event', result', decoded', consumed'⟩ := w
  cases hcut.trans hwhole.symm
  have hevent : event = event' := hcutReport.event.trans hwholeReport.event.symm
  have hresult : result = result' := hcutReport.result.trans hwholeReport.result.symm
  have hdecoded := hcutReport.decoded.trans hwholeReport.decoded.symm
  have hconsumed := hcutReport.consumed.trans hwholeReport.consumed.symm
  have hdecoded' : decoded = decoded' := Nat.add_right_cancel hdecoded
  have hconsumed' : consumed = consumed' := Nat.add_right_cancel (Nat.add_right_cancel hconsumed)
  rw [hevent, hresult, hdecoded', hconsumed']

end ResponseParser

end Elio.Http
