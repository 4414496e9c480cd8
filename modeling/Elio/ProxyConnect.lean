/-
**CONNECT tunnels through a proxy.**

`negotiate_connect` of `http/detail/proxy_connect.hpp` sends a `CONNECT` request and reads responses
with a `response_reader` until the decoder hands the connection over.  What the reader has received
beyond the head of the last response belongs to the tunnel; `owned_prefix_stream` delivers it before
the bytes of the connection.

What the connection does is a list of events.  A read is given bytes from the front of the stream,
it is interrupted, it fails, or it reports more bytes than were asked for; a cancellation or the end
of the deadline is an event, too, which the next check finds.  The bytes of the request are a
parameter.

Main definitions:

* `IsHead` — the bytes of a response without a body.
-/

import Elio.ResponseDecoderRun

set_option autoImplicit false

namespace Elio.Http.Proxy

open List
open ResponseDecoder (statusLine)

/-! ### The connection -/

/-- The errors. -/
inductive Errno where
  | ecanceled
  | etimedout
  | emsgsize
  | eintr
  | eio
  | eoverflow
  | ebadmsg
  | enotsup
  | eacces
  | econnrefused
  | ebusy
  | other (code : ℕ)
  deriving DecidableEq, Repr

/-- What happens to the next operation of the connection. -/
inductive StreamEvent where
  /-- It moves at most so many bytes. -/
  | moved (n : ℕ)
  | interrupted
  | failed (error : Errno)
  /-- It reports more bytes than it was given room for. -/
  | tooMany
  /-- The token is cancelled before. -/
  | cancelled
  /-- The deadline has passed before. -/
  | expired
  deriving DecidableEq, Repr

/-- `stopped`. -/
def stopped : List StreamEvent → Option Errno
  | .cancelled :: _ => some .ecanceled
  | .expired :: _ => some .etimedout
  | _ => none

/-- `token.is_cancelled()`. -/
def isCancelled : List StreamEvent → Bool
  | .cancelled :: _ => true
  | _ => false

/-- The limits of a proxy. -/
structure ProxyLimits where
  maxHeaders : ℕ
  maxHeaderSize : ℕ
  maxResponseBytes : ℕ
  maxInformationalResponses : ℕ
  maxReadAhead : ℕ
  deriving DecidableEq, Repr

/-- The connection: the bytes that have not been received, how many have been, and the events. -/
structure Connection where
  stream : Bytes
  received : ℕ
  events : List StreamEvent
  deriving DecidableEq, Repr

/-- What a read returns: bytes, none of them at the end of the stream, or an error. -/
inductive Received where
  | data (bytes : Bytes)
  | error (error : Errno)
  deriving DecidableEq, Repr

/-- The `receive` of `negotiate_connect`, with the events that follow. -/
def receive (limits : ProxyLimits) (c : Connection) (event : StreamEvent) (rest : List StreamEvent)
    (size : ℕ) : Received × Connection :=
  match event with
  | .cancelled => (.error .ecanceled, c)
  | .expired => (.error .etimedout, c)
  | _ =>
    if limits.maxResponseBytes ≤ c.received then (.error .emsgsize, c)
    else
      let size := min size (limits.maxResponseBytes - c.received)
      let c := { c with events := rest }
      match event with
      | .moved n =>
        let bytes := c.stream.take (min n size)
        (.data bytes,
          { c with stream := c.stream.drop (min n size), received := c.received + bytes.length })
      | .failed error => (.error error, c)
      | .tooMany => (.error .eoverflow, c)
      | _ => (.error .eintr, c)

/-! ### `response_reader` -/

/-- `response_reader`: the decoder, the size of its buffer, and the bytes between `begin_` and
`end_`. -/
structure ResponseReader where
  decoder : ResponseDecoder
  bufferSize : ℕ
  buffer : Bytes
  messageBytes : ℕ
  eof : Bool
  handoff : Bool
  completed : Bool
  deriving DecidableEq, Repr

/-- `response_read_result`, and the reader and the connection afterwards. -/
structure ReadOutcome where
  event : ResponseEvent
  body : Bytes
  error : Option Errno
  reader : ResponseReader
  connection : Connection

namespace ResponseReader

/-- The largest `size_t`. -/
def sizeMax : ℕ := 2 ^ 64 - 1

/-- The constructor, the limits and the request method. -/
def create (bufferSize maxHeaders maxHeaderSize : ℕ) (requestMethod : Option Method) :
    ResponseReader where
  decoder := .fresh maxHeaders maxHeaderSize requestMethod
  bufferSize := max bufferSize 1
  buffer := []
  messageBytes := 0
  eof := false
  handoff := false
  completed := false

/-- The error of an event. -/
def eventError (d : ResponseDecoder) (event : ResponseEvent) : Option Errno :=
  if event = .error then some (if d.limitExceeded then .emsgsize else .ebadmsg) else none

/-- A call of `decode` on what is in the buffer. -/
def decodeBuffer (r : ResponseReader) : ResponseReader × DecodeResult :=
  let (d, result) := r.decoder.decode r.buffer
  ({ r with
      decoder := d
      buffer := r.buffer.drop result.consumed
      messageBytes := r.messageBytes + min result.consumed (sizeMax - r.messageBytes) }, result)

/-- `read_with`, or none when it waits. -/
def readWith (limits : ProxyLimits) (stream : Bytes) (received : ℕ) :
    List StreamEvent → ResponseReader → Option ReadOutcome
  | events, r =>
    let (r, result) := r.decodeBuffer
    let c : Connection := ⟨stream, received, events⟩
    if result.event ≠ .needMore then
      let r := { r with
        handoff := result.event = .protocolHandoff
        completed := result.event = .messageComplete }
      some ⟨result.event, result.body, eventError r.decoder result.event, r, c⟩
    else if isCancelled events then some ⟨.error, [], some .ecanceled, r, c⟩
    else if r.eof then
      let (d, done) := r.decoder.finishEof
      let r := { r with decoder := d, completed := done.event = .messageComplete }
      some ⟨done.event, done.body, eventError d done.event, r, c⟩
    else
      match events with
      | [] => none
      | event :: rest =>
        let r := { r with buffer := [] }
        match receive limits c event rest r.bufferSize with
        | (.error error, c) =>
          if error = .eintr then readWith limits c.stream c.received rest r
          else some ⟨.error, [], some error, r, c⟩
        | (.data bytes, c) =>
          if bytes = [] then readWith limits c.stream c.received rest { r with eof := true }
          else readWith limits c.stream c.received rest { r with buffer := bytes }

/-- `next_response`. -/
def nextResponse (r : ResponseReader) : Option ResponseReader :=
  if !r.completed || r.decoder.state = .error || r.handoff then none
  else
    some { r with
      decoder := .fresh r.decoder.maxHeaders r.decoder.maxHeaderSize none
      completed := false
      messageBytes := 0 }

/-- `set_request_method`. -/
def setRequestMethod (r : ResponseReader) (method : Method) : ResponseReader :=
  { r with decoder := { r.decoder with requestMethod := some method } }

end ResponseReader

/-! ### `negotiate_connect` -/

/-- The loop that writes the request: the error, or the events that are left. -/
def writeRequest : List StreamEvent → ℕ → Option (Except Errno (List StreamEvent))
  | events, 0 => some (.ok events)
  | [], _ + 1 => none
  | event :: events, n + 1 =>
    match event with
    | .cancelled => some (.error .ecanceled)
    | .expired => some (.error .etimedout)
    | .interrupted => writeRequest events (n + 1)
    | .failed error => some (.error error)
    | .tooMany => some (.error .eoverflow)
    | .moved count =>
      if count = 0 then some (.error .eio)
      else if n + 1 < count then some (.error .eoverflow)
      else writeRequest events (n + 1 - count)

/-- `max_request_bytes`. -/
def maxRequestBytes : ℕ := 64 * 1024

/-- The loop over the responses, with a bound on its rounds; none when it waits. -/
def negotiateLoop (limits : ProxyLimits) :
    ℕ → ResponseReader → Connection → ℕ → Option (Except Errno Bytes × Connection)
  | 0, _, _, _ => none
  | rounds + 1, r, c, interims =>
    match stopped c.events with
    | some error => some (.error error, c)
    | none => do
      let next ← r.readWith limits c.stream c.received c.events
      match next.error with
      | some error => some (.error error, next.connection)
      | none =>
        let code := next.reader.decoder.status
        match next.event with
        | .headersComplete =>
          if code < 100 || 599 < code then some (.error .ebadmsg, next.connection)
          else if code = 101 then some (.error .enotsup, next.connection)
          else if 300 ≤ code then
            some (.error (if code = 407 then .eacces else .econnrefused), next.connection)
          else if code < 200 then
            if limits.maxInformationalResponses ≤ interims then
              some (.error .emsgsize, next.connection)
            else negotiateLoop limits rounds next.reader next.connection (interims + 1)
          else negotiateLoop limits rounds next.reader next.connection interims
        | .protocolHandoff =>
          if code < 200 || 300 ≤ code then some (.error .enotsup, next.connection)
          else if limits.maxReadAhead < next.reader.buffer.length then
            some (.error .emsgsize, next.connection)
          else some (.ok next.reader.buffer, next.connection)
        | .messageComplete =>
          if 200 ≤ code then some (.error .ebadmsg, next.connection)
          else
            match next.reader.nextResponse with
            | none => some (.error .ebadmsg, next.connection)
            | some r =>
              negotiateLoop limits rounds (r.setRequestMethod .connect) next.connection interims
        | _ => negotiateLoop limits rounds next.reader next.connection interims

/-- `negotiate_connect`: what it returns, and the connection. -/
def negotiateConnect (limits : ProxyLimits) (request stream : Bytes) (events : List StreamEvent)
    (rounds : ℕ) : Option (Except Errno Bytes × Connection) :=
  match stopped events with
  | some error => some (.error error, ⟨stream, 0, events⟩)
  | none =>
    if maxRequestBytes < request.length then some (.error .emsgsize, ⟨stream, 0, events⟩)
    else
      match writeRequest events request.length with
      | none => none
      | some (.error error) => some (.error error, ⟨stream, 0, events⟩)
      | some (.ok events) =>
        negotiateLoop limits rounds
          (.create (max 1 (min 8192 limits.maxReadAhead)) limits.maxHeaders limits.maxHeaderSize
            (some .connect)) ⟨stream, 0, events⟩ 0

/-! ### `owned_prefix_stream` -/

/-- `owned_prefix_stream`: the prefix, the offset in it, and the stream below. -/
structure OwnedPrefix where
  kept : Bytes
  offset : ℕ
  lower : Bytes
  deriving DecidableEq, Repr

/-- The constructor, which throws when the prefix is too long. -/
def OwnedPrefix.create (lower kept : Bytes) (limit : ℕ) : Except String OwnedPrefix :=
  if limit < kept.length then .error "HTTP CONNECT read-ahead exceeds its bound"
  else .ok ⟨kept, 0, lower⟩

/-- A call of `read`: its size, and what happens to it. -/
structure TunnelRead where
  size : ℕ
  /-- The token is cancelled, the channel is sealed, or another read is in progress. -/
  refused : Option Errno
  /-- What the read of the stream below does, if there is one. -/
  event : StreamEvent
  deriving DecidableEq, Repr

/-- `INT32_MAX`. -/
def int32Max : ℕ := 2 ^ 31 - 1

/-- `read_owned`. -/
def OwnedPrefix.readOwned (s : OwnedPrefix) (call : TunnelRead) : Received × OwnedPrefix :=
  match call.refused with
  | some error => (.error error, s)
  | none =>
    if call.size = 0 then (.data [], s)
    else if s.offset < s.kept.length then
      let count := min call.size (min (s.kept.length - s.offset) int32Max)
      (.data ((s.kept.drop s.offset).take count), { s with offset := s.offset + count })
    else
      match call.event with
      | .moved n => (.data (s.lower.take (min n call.size)),
          { s with lower := s.lower.drop (min n call.size) })
      | .interrupted => (.error .eintr, s)
      | .failed error => (.error error, s)
      | .tooMany => (.error .eoverflow, s)
      | .cancelled => (.error .ecanceled, s)
      | .expired => (.error .etimedout, s)

/-- The bytes of a result. -/
def Received.bytes : Received → Bytes
  | .data bytes => bytes
  | .error _ => []

/-- Reads one after the other: what they deliver. -/
def OwnedPrefix.readAll (s : OwnedPrefix) : List TunnelRead → Bytes × OwnedPrefix
  | [] => ([], s)
  | call :: calls =>
    let (result, s) := s.readOwned call
    let (more, s) := s.readAll calls
    (result.bytes ++ more, s)

/-! ### Heads -/

/-- A status line with the code. -/
def IsStatusLine (code : ℕ) (line : Bytes) : Prop :=
  ∃ version digits tail, line = version ++ space :: (digits ++ tail) ∧
    isValidHttpVersion version = true ∧ digits.length = 3 ∧
    fromChars 65535 digits = some (code, []) ∧ (tail = [] ∨ ∃ reason, tail = space :: reason)

/-- A header line. -/
def IsHeaderLine (line : Bytes) : Prop :=
  ∃ name value, line = name ++ colon :: value ∧ isValidHeaderName name = true ∧
    isValidHeaderValue (trimOws value) = true

/-- A status line and header lines, each with its line end. -/
def IsHeadLines (code : ℕ) (bytes : Bytes) : Prop :=
  ∃ (status : Bytes) (lines : List Bytes), bytes = status ++ crlf ++ (lines.map (· ++ crlf)).flatten ∧
    Plain status ∧ IsStatusLine code status ∧ ∀ line ∈ lines, Plain line ∧ IsHeaderLine line

/-- **The bytes of a head**: a status line with the code, header lines, and an empty line. -/
def IsHead (code : ℕ) (bytes : Bytes) : Prop := ∃ lines, bytes = lines ++ crlf ∧ IsHeadLines code lines

/-! ### The decoder at a head -/

open ResponseDecoder Decoding

theorem eq_take_append_of_idxOf? {line : Bytes} {c : UInt8} {n : ℕ} (h : line.idxOf? c = some n) :
    line = line.take n ++ c :: line.drop (n + 1) := by
  obtain ⟨hlt, hget, -⟩ := idxOf?_eq_some_iff.1 h
  have hdrop : line.drop n = c :: line.drop (n + 1) := by
    rw [drop_eq_getElem_cons hlt, hget]
  rw [← hdrop, take_append_drop]

theorem statusLine_spec (d : ResponseDecoder) (line : Bytes) :
    (statusLine d line).state = .error ∨
      ∃ reason version, IsStatusLine (statusLine d line).status line ∧
        statusLine d line = { d with
          version := version
          status := (statusLine d line).status
          reason := reason
          state := .headers } := by
  rw [statusLine]
  split
  · exact .inl rfl
  next first hfst =>
    have hline := eq_take_append_of_idxOf? hfst
    split_ifs with hver
    · exact .inl rfl
    · dsimp only
      split
      next number hnumber =>
        split_ifs with hlen
        · exact .inl rfl
        · refine .inr ⟨_, _, ?_, rfl⟩
          rw [Bool.not_eq_true, Bool.not_eq_false'] at hver
          cases hsnd : (line.drop (first + 1)).idxOf? space with
          | none =>
            rw [hsnd] at hnumber hlen
            exact ⟨_, line.drop (first + 1), [], by rw [append_nil]; exact hline, hver,
              not_not.1 hlen, hnumber, .inl rfl⟩
          | some second =>
            rw [hsnd] at hnumber hlen
            refine ⟨_, (line.drop (first + 1)).take second,
              space :: (line.drop (first + 1)).drop (second + 1), ?_, hver,
              not_not.1 hlen, hnumber, .inr ⟨_, rfl⟩⟩
            rw [← eq_take_append_of_idxOf? hsnd]
            exact hline
      · exact .inl rfl

theorem headerLine_spec (d : ResponseDecoder) (line : Bytes) :
    (d.headerLine line).state = .error ∨
      IsHeaderLine line ∧ ∃ count headers,
        d.headerLine line = { d with headerCount := count, headers := headers } := by
  rw [headerLine]
  split
  · exact .inl rfl
  next n hn =>
    by_cases hname : isValidHeaderName (line.take n)
    · by_cases hval : isValidHeaderValue (trimOws (line.drop (n + 1)))
      · have hline : IsHeaderLine line := ⟨_, _, eq_take_append_of_idxOf? hn, hname, hval⟩
        simp only [hname, hval, Bool.not_true, Bool.false_eq_true, if_false]
        split_ifs
        · exact .inl rfl
        · exact .inl rfl
        all_goals
          refine .inr ⟨hline, ?_⟩
          split
          · exact ⟨_, _, rfl⟩
          · exact ⟨_, _, rfl⟩
      · simp [hname, hval, fail]
    · simp [hname, fail]

/-- A line that is being read: its end may have begun. -/
def Begun (line : Bytes) : Prop := Plain line ∨ ∃ p, line = p ++ [cr] ∧ Plain p

/-- **The decoder has taken the bytes `m` of a head**, and the head has not ended. -/
inductive Reading (d : ResponseDecoder) (m : Bytes) : Prop
  | status : d.state = .statusLine → d.requestMethod = some .connect → m = d.line → Begun d.line →
      Reading d m
  | headers (lines : Bytes) : d.state = .headers → d.requestMethod = some .connect →
      m = lines ++ d.line → Begun d.line → IsHeadLines d.status lines → Reading d m

/-- The state that `select_framing` finds for a `CONNECT` request. -/
def Framed (d : ResponseDecoder) : Prop :=
  100 ≤ d.status → d.status < 300 →
    d.state = .complete ∧ d.handoff = (decide (d.status = 101) || decide (200 ≤ d.status))

theorem Reading.fresh (maxHeaders maxHeaderSize : ℕ) :
    Reading (.fresh maxHeaders maxHeaderSize (some .connect)) [] :=
  .status rfl rfl rfl (.inl Plain.nil)

variable {d : ResponseDecoder} {m : Bytes}

/-- The states in which a head is read. -/
theorem Reading.inLine (h : Reading d m) : inLine d := by
  cases h with
  | status hst => exact .inl hst
  | headers lines hst => exact .inr (.inl hst)

theorem Reading.begun (h : Reading d m) : Begun d.line := by
  cases h with
  | status _ _ _ hbegun | headers _ _ _ _ hbegun => exact hbegun

/-- A byte of a line that does not end it. -/
theorem Reading.collect (h : Reading d m) {c : UInt8}
    (hbegun : Begun (d.line ++ [c])) : Reading { d with line := d.line ++ [c] } (m ++ [c]) := by
  cases h with
  | status hst hmeth hm => exact .status hst hmeth (by rw [hm]) hbegun
  | headers lines hst hmeth hm _ hlines =>
    exact .headers lines hst hmeth (by rw [hm, append_assoc]) hbegun hlines

/-- **The framing of a response to `CONNECT`.** -/
theorem selectFraming_framed (h : d.requestMethod = some .connect) :
    Framed d.selectFraming ∧ d.selectFraming.status = d.status := by
  have hstat : d.selectFraming.status = d.status := by
    rw [selectFraming]
    dsimp only
    split_ifs
    all_goals try rfl
    split <;> rfl
  refine ⟨fun hlow hhigh => ?_, hstat⟩
  rw [hstat] at hlow hhigh ⊢
  by_cases hsuccess : 200 ≤ d.status
  · simp [selectFraming, h, hsuccess, hhigh]
  · have hforbids : statusForbidsResponseBody d.status = true := by
      simp only [statusForbidsResponseBody, Bool.or_eq_true, Bool.and_eq_true, decide_eq_true_eq]
      omega
    simp [selectFraming, h, hsuccess, hforbids]

/-- **A line end.** -/
theorem Reading.endLine {m line : Bytes} (h : Reading d m)
    (hline : d.line = line ++ [cr]) (hplain : Plain line) :
    (d.endLine line).state = .error ∨ Reading (d.endLine line) (m ++ [lf]) ∧
        ¬ (d.state = .headers ∧ line = []) ∨
      d.state = .headers ∧ line = [] ∧ IsHead (d.endLine line).status (m ++ [lf]) ∧
        Framed (d.endLine line) := by
  cases h with
  | status hst hmeth hm _ =>
    have hend : d.endLine line = statusLine { d with line := [] } line := by
      simp [ResponseDecoder.endLine, processLine, hst]
    rw [hend]
    rcases statusLine_spec { d with line := [] } line with herr | ⟨reason, version, hspec, heq⟩
    · exact .inl herr
    · refine .inr (.inl ⟨.headers (line ++ crlf) ?_ ?_ ?_ ?_ ⟨line, [], ?_, hplain, hspec, by simp⟩, ?_⟩)
      · rw [heq]
      · rw [heq]
        exact hmeth
      · rw [heq, hm, hline]
        simp [crlf]
      · rw [heq]
        exact .inl Plain.nil
      · simp
      · rw [hst]
        simp
  | headers lines hst hmeth hm _ hlines =>
    by_cases hemp : line = []
    · subst hemp
      have hsel := selectFraming_framed (d := { d with line := [] }) hmeth
      have hend : d.endLine [] = { d with line := [] }.selectFraming ∨
          d.endLine [] = { { d with line := [] }.selectFraming with headersComplete := true } := by
        simp only [ResponseDecoder.endLine, processLine, hst, isEmpty_nil, if_true]
        split_ifs
        · exact .inr rfl
        · exact .inl rfl
      have hhead : IsHead { d with line := [] }.selectFraming.status (m ++ [lf]) := by
        rw [hsel.2]
        refine ⟨lines, ?_, hlines⟩
        rw [hm, hline]
        simp [crlf]
      refine .inr (.inr ⟨hst, rfl, ?_, ?_⟩)
      · rcases hend with hend | hend <;> rw [hend] <;> exact hhead
      · rcases hend with hend | hend <;> rw [hend] <;> exact hsel.1
    · have hend : d.endLine line = { d with line := [] }.headerLine line := by
        simp [ResponseDecoder.endLine, processLine, hst, hemp]
      rw [hend]
      rcases headerLine_spec { d with line := [] } line with herr | ⟨hspec, count, headers, heq⟩
      · exact .inl herr
      · rw [heq]
        refine .inr (.inl ⟨.headers (lines ++ line ++ crlf) hst hmeth ?_ (.inl Plain.nil) ?_,
          fun h => hemp h.2⟩)
        · rw [hm, hline]
          simp [crlf]
        · obtain ⟨status, heads, hbytes, hstat, hcode, hheads⟩ := hlines
          refine ⟨status, heads ++ [line], ?_, hstat, hcode, ?_⟩
          · rw [hbytes]
            simp
          · intro l hl
            rcases mem_append.1 hl with hl | hl
            · exact hheads l hl
            · rw [mem_singleton.1 hl]
              exact ⟨hplain, hspec⟩

/-- **A byte of a head.** -/
theorem Reading.byte (h : Reading d m) (c : UInt8) :
    (d.lineByte c).state = .error ∨
      Reading (d.lineByte c) (m ++ [c]) ∧ ¬ (d.state = .headers ∧ d.line = [cr] ∧ c = lf) ∨
      d.state = .headers ∧ d.line = [cr] ∧ c = lf ∧ IsHead (d.lineByte c).status (m ++ [c]) ∧
        Framed (d.lineByte c) := by
  rcases h.begun with hplain | ⟨p, hp, hplain⟩
  · have hline : d.line ≠ [cr] := by
      intro hcr
      exact (hplain cr (by rw [hcr]; exact mem_singleton.2 rfl)).1 rfl
    by_cases hcr : c = cr
    · rw [hcr, lineByte_cr hplain]
      exact .inr (.inl ⟨h.collect (.inr ⟨_, rfl, hplain⟩), fun h => hline h.2.1⟩)
    by_cases hlf : c = lf
    · rw [hlf, lineByte_lf hplain]
      exact .inl rfl
    rw [lineByte_of_plain hplain ⟨hcr, hlf⟩]
    split_ifs
    · exact .inl rfl
    · exact .inr (.inl ⟨h.collect (.inl (hplain.append (Plain.cons ⟨hcr, hlf⟩ Plain.nil))),
        fun h => hlf h.2.2⟩)
  · -- a line end has begun
    have hbyte := lineByte_after_cr d p c
    rw [← hp] at hbyte
    rw [hbyte]
    split_ifs with hlf
    · subst hlf
      have hiff : d.line = [cr] ↔ p = [] := by
        rw [hp]
        simp
      rcases h.endLine hp hplain with herr | ⟨hread, hnot⟩ | ⟨hst, hemp, hhead, hframed⟩
      · exact .inl herr
      · exact .inr (.inl ⟨hread, fun h => hnot ⟨h.1, hiff.1 h.2.1⟩⟩)
      · exact .inr (.inr ⟨hst, hiff.2 hemp, rfl, hhead, hframed⟩)
    · exact .inl rfl

/-- What a call of `decode` has found of a head, of which `m` had been taken. -/
inductive Scanned (m input : Bytes) (used : ℕ) : ResponseDecoder × DecodeResult → Prop
  | error (d : ResponseDecoder) (n : ℕ) : d.state = .error → Scanned m input used (d, ⟨.error, n, []⟩)
  | more (d : ResponseDecoder) : Reading d (m ++ input) →
      Scanned m input used (d, ⟨.needMore, used + input.length, []⟩)
  | head (d : ResponseDecoder) (taken rest : Bytes) : input = taken ++ rest →
      IsHead d.status (m ++ taken) → Framed d → d.state ≠ .error →
      Scanned m input used (d, ⟨.headersComplete, used + taken.length, []⟩)

theorem Scanned.cons {m input : Bytes} {c : UInt8} {used : ℕ} {r : ResponseDecoder × DecodeResult}
    (h : Scanned (m ++ [c]) input (used + 1) r) : Scanned m (c :: input) used r := by
  have hlen : ∀ s : Bytes, used + 1 + s.length = used + (c :: s).length := by
    intro s
    rw [length_cons]
    omega
  have happend : ∀ s : Bytes, m ++ [c] ++ s = m ++ c :: s := by
    intro s
    rw [append_assoc, singleton_append]
  cases h with
  | error d n herr => exact .error d n herr
  | more d hread =>
    rw [hlen]
    exact .more d (happend input ▸ hread)
  | head d taken rest hin hhead hframed herr =>
    rw [hlen]
    exact .head d (c :: taken) rest (by rw [hin]; rfl) (happend taken ▸ hhead) hframed herr

/-- **A call of `decode` at a head.** -/
theorem decodeLoop_scanned (h : Reading d m) (input : Bytes)
    (used : ℕ) : Scanned m input used (d.decodeLoop input used) := by
  induction input generalizing d m used with
  | nil =>
    have hend : d.atEnd used = ⟨.needMore, used + ([] : Bytes).length, []⟩ := by
      rw [atEnd]
      cases h with
      | status hst | headers lines hst => rw [hst]; rfl
    rw [decodeLoop, hend]
    exact .more d (by rwa [append_nil])
  | cons c input ih =>
    have hloop : d.decodeLoop (c :: input) used =
        if d.state = .headers && d.line = [cr] && c = lf && (d.lineByte c).state ≠ .error then
          (d.lineByte c, ⟨.headersComplete, used + 1, []⟩)
        else (d.lineByte c).decodeLoop input (used + 1) := by
      rw [decodeLoop]
      cases h with
      | status hst | headers lines hst => simp only [hst]
    rw [hloop]
    by_cases herror : (d.lineByte c).state = .error
    · have hstop : (d.lineByte c).decodeLoop input (used + 1) =
          (d.lineByte c, ⟨.error, used + 1, []⟩) := by
        cases input with
        | nil => rw [decodeLoop, atEnd, herror]
        | cons c' input => simp only [decodeLoop, herror, atEnd]
      rw [if_neg (by simp [herror]), hstop]
      exact .error _ _ herror
    rcases h.byte c with herr | ⟨hread, hnot⟩ | ⟨hst, hline, hc, hhead, hframed⟩
    · exact absurd herr herror
    · rw [if_neg (by simpa [herror, and_assoc] using hnot)]
      exact (ih hread (used + 1)).cons
    · rw [if_pos (by simp [hst, hline, hc, hc ▸ herror])]
      exact .head _ [c] input rfl hhead hframed herror

/-! ### The bytes that have been received -/

/-- Of the bytes of the connection, `prior` have been taken by the decoder, and the buffer holds the
others that were received. -/
structure Flow (limits : ProxyLimits) (wire prior : Bytes) (buffer stream : Bytes) (received : ℕ) :
    Prop where
  split : wire = prior ++ buffer ++ stream
  count : (prior ++ buffer).length = received
  bound : received ≤ limits.maxResponseBytes

/-- The bytes that have been received. -/
def Taken (limits : ProxyLimits) (wire taken : Bytes) (c : Connection) : Prop :=
  wire = taken ++ c.stream ∧ taken.length = c.received ∧ c.received ≤ limits.maxResponseBytes

variable {limits : ProxyLimits} {prior wire stream before current : Bytes}

theorem Flow.taken {buffer : Bytes} {c : Connection}
    (h : Flow limits wire prior buffer c.stream c.received) :
    Taken limits wire (prior ++ buffer) c :=
  ⟨h.split, h.count, h.bound⟩

variable {taken : Bytes}

theorem Flow.consume {buffer : Bytes} {received : ℕ}
    (h : Flow limits wire prior buffer stream received) {rest : Bytes}
    (hbuf : buffer = taken ++ rest) :
    Flow limits wire (prior ++ taken) rest stream received := by
  subst hbuf
  refine ⟨?_, ?_, h.bound⟩
  · rw [h.split]
    simp
  · rw [← h.count]
    simp

variable {c c' : Connection}

theorem receive_flow
    (h : Flow limits wire prior [] c.stream c.received) {event : StreamEvent}
    {rest : List StreamEvent} {size : ℕ} {result : Received}
    (hrecv : receive limits c event rest size = (result, c')) :
    Flow limits wire prior result.bytes c'.stream c'.received := by
  -- without bytes nothing changes but the events
  have hsame : ∀ (error : Errno) (events : List StreamEvent),
      ((Received.error error, { c with events := events }) : Received × Connection) =
        (result, c') → Flow limits wire prior result.bytes c'.stream c'.received := by
    intro error events heq
    cases heq
    exact h
  cases event with
  | cancelled | expired => exact hsame _ c.events hrecv
  | interrupted | failed | tooMany =>
    simp only [receive] at hrecv
    split_ifs at hrecv
    · exact hsame _ c.events hrecv
    · exact hsame _ rest hrecv
  | moved n =>
    simp only [receive] at hrecv
    split_ifs at hrecv with hfull
    · exact hsame _ c.events hrecv
    · cases hrecv
      have hcnt := h.count
      rw [append_nil] at hcnt
      refine ⟨?_, ?_, ?_⟩
      · rw [h.split, append_nil, append_assoc]
        exact congrArg (prior ++ ·) (take_append_drop _ _).symm
      · rw [length_append, hcnt]
        rfl
      · dsimp only
        rw [length_take]
        omega

/-- What is known after the call of `decode` in `read_with`. -/
inductive Decoded.AtHead (limits : ProxyLimits) (wire before m : Bytes) (stream : Bytes) (received : ℕ)
    (r : ResponseReader) : ResponseReader × DecodeResult → Prop
  | error (prior : Bytes) (r' : ResponseReader) (result : DecodeResult) : result.event = .error →
      Flow limits wire prior r'.buffer stream received →
      AtHead limits wire before m stream received r (r', result)
  | more (r' : ResponseReader) (result : DecodeResult) : result.event = .needMore →
      r'.eof = r.eof → Reading r'.decoder (m ++ r.buffer) →
      Flow limits wire (before ++ (m ++ r.buffer)) [] stream received →
      AtHead limits wire before m stream received r (r', result)
  | head (head : Bytes) (r' : ResponseReader) (result : DecodeResult) :
      result.event = .headersComplete →
      Flow limits wire (before ++ head) r'.buffer stream received →
      IsHead r'.decoder.status head → Framed r'.decoder →
      AtHead limits wire before m stream received r (r', result)

variable {r : ResponseReader}

theorem decodeBuffer_atHead {m : Bytes} {received : ℕ}
    (h : Reading r.decoder m)
    (hflow : Flow limits wire (before ++ m) r.buffer stream received) :
    Decoded.AtHead limits wire before m stream received r r.decodeBuffer := by
  have hscanned := decodeLoop_scanned h r.buffer 0
  rw [ResponseReader.decodeBuffer, decode]
  generalize r.decoder.decodeLoop r.buffer 0 = decoded at hscanned
  cases hscanned with
  | error d n herr =>
    exact .error _ _ _ rfl (hflow.consume (take_append_drop n r.buffer).symm)
  | more d hread =>
    refine .more _ _ rfl rfl hread ?_
    have hall := hflow.consume (append_nil r.buffer).symm
    rwa [append_assoc] at hall
  | head d taken rest hbuf hhead hframed herr =>
    refine .head (m ++ taken) _ _ rfl ?_ hhead hframed
    have hrest : r.buffer.drop (0 + taken.length) = rest := by
      rw [hbuf, Nat.zero_add, drop_left]
    dsimp only
    rw [hrest, ← append_assoc]
    exact hflow.consume hbuf

theorem finishEof_reading (h : Reading d m) :
    d.finishEof.2.event = .error := by
  have hne : d.state ≠ .closeBody := by
    rcases h.inLine with hst | hst | hst | hst <;> rw [hst] <;> nofun
  rw [finishEof, if_neg hne]
  rw [h.inLine.ended]
  rfl

/-- What is known after `read_with`. -/
def AfterRead (limits : ProxyLimits) (wire before : Bytes) (o : ReadOutcome) : Prop :=
  (∃ taken, Taken limits wire taken o.connection) ∧
    (o.error = none → o.event = .headersComplete ∧ ∃ head,
      Flow limits wire (before ++ head) o.reader.buffer o.connection.stream o.connection.received ∧
      IsHead o.reader.decoder.status head ∧ Framed o.reader.decoder)

theorem AfterRead.of_error {o : ReadOutcome} (htaken : Taken limits wire taken o.connection)
    (herr : o.error ≠ none) : AfterRead limits wire before o :=
  ⟨⟨_, htaken⟩, fun h => absurd h herr⟩

/-- **A call of `read_with` at a head.** -/
theorem readWith_reading {events : List StreamEvent} :
    ∀ {r : ResponseReader} {m stream : Bytes} {received : ℕ} {o : ReadOutcome},
      Reading r.decoder m → Flow limits wire (before ++ m) r.buffer stream received →
      r.readWith limits stream received events = some o → AfterRead limits wire before o := by
  have hbad : ∀ {d : ResponseDecoder} {event : ResponseEvent}, event = .error →
      ResponseReader.eventError d event ≠ none := by
    rintro d event rfl
    exact nofun
  -- the induction is on the events that are left
  induction hn : events.length using Nat.strong_induction_on generalizing events with
  | _ n ih =>
  intro r m stream received o hreading hflow hread
  unfold ResponseReader.readWith at hread
  have hhead := decodeBuffer_atHead hreading hflow
  generalize r.decodeBuffer = decoded at hhead hread
  cases hhead with
  | error prior r' result hev hflow' =>
    dsimp only at hread
    rw [if_pos (by rw [hev]; nofun)] at hread
    cases hread
    exact .of_error (Flow.taken hflow') (hbad hev)
  | head head r' result hev hflow' hhead hframed =>
    dsimp only at hread
    rw [if_pos (by rw [hev]; nofun)] at hread
    cases hread
    exact ⟨⟨_, Flow.taken hflow'⟩, fun _ => ⟨hev, head, hflow', hhead, hframed⟩⟩
  | more r' result hev heof hreading' hflow' =>
    dsimp only at hread
    rw [if_neg (not_not.2 hev)] at hread
    split_ifs at hread
    · cases hread
      exact .of_error (Flow.taken hflow') nofun
    · cases hread
      exact .of_error (Flow.taken hflow') (hbad (finishEof_reading hreading'))
    · cases events with
      | nil => cases hread
      | cons event rest =>
        have hlt : rest.length < n := by
          rw [← hn]
          exact Nat.lt_succ_self _
        dsimp only at hread
        generalize hrecv : receive limits ⟨stream, received, event :: rest⟩ event rest
          r'.bufferSize = received' at hread
        obtain ⟨result', c'⟩ := received'
        have hflow'' := receive_flow hflow' hrecv
        cases result' with
        | error e =>
          dsimp only at hread
          split_ifs at hread
          · exact ih _ hlt rfl (r := { r' with buffer := [] }) hreading' hflow'' hread
          · cases hread
            exact .of_error hflow''.taken nofun
        | data bytes =>
          dsimp only at hread
          split_ifs at hread with hemp
          · rw [Received.bytes, hemp] at hflow''
            exact ih _ hlt rfl (r := { r' with buffer := [], eof := true }) hreading' hflow''
              hread
          · exact ih _ hlt rfl (r := { r' with buffer := bytes }) hreading' hflow'' hread

/-- A call of `read_with` when the message has ended. -/
theorem readWith_complete (limits : ProxyLimits)
    (h : r.decoder.state = .complete) (c : Connection) :
    ∃ reader, r.readWith limits c.stream c.received c.events =
        some ⟨if r.decoder.handoff then .protocolHandoff else .messageComplete, [], none, reader, c⟩ ∧
      reader.decoder = r.decoder ∧ reader.buffer = r.buffer ∧
        reader.completed = !r.decoder.handoff ∧ reader.handoff = r.decoder.handoff := by
  have hdecode : r.decoder.decode r.buffer =
      (r.decoder, ⟨if r.decoder.handoff then .protocolHandoff else .messageComplete, 0, []⟩) := by
    rw [decode]
    cases hbuf : r.buffer with
    | nil => rw [decodeLoop, atEnd, h]
    | cons c input => simp only [decodeLoop, h, atEnd]
  refine ⟨{ r with
    handoff := r.decoder.handoff
    completed := !r.decoder.handoff
    buffer := r.buffer.drop 0
    messageBytes := r.messageBytes + min 0 (ResponseReader.sizeMax - r.messageBytes) }, ?_, rfl, rfl,
    rfl, rfl⟩
  unfold ResponseReader.readWith
  simp only [ResponseReader.decodeBuffer, hdecode]
  cases r.decoder.handoff with
  | false | true => rfl

/-! ### The responses -/

/-- An interim response that is skipped. -/
def IsInterim (bytes : Bytes) : Prop := ∃ code, IsHead code bytes ∧ 100 ≤ code ∧ code < 200 ∧ code ≠ 101

/-- A response that opens the tunnel. -/
def IsSuccess (bytes : Bytes) : Prop := ∃ code, IsHead code bytes ∧ 200 ≤ code ∧ code < 300

/-- Where the loop over the responses is, when `skipped` are the interim responses that have been
read: it reads a head, or it has accepted one. -/
inductive Position (r : ResponseReader) (interims : ℕ) (skipped : List Bytes) (current : Bytes) : Prop
  | reading : Reading r.decoder current → skipped.length = interims →
      Position r interims skipped current
  | interim : r.decoder.state = .complete → r.decoder.handoff = false →
      r.decoder.status < 200 → IsInterim current → skipped.length + 1 = interims →
      Position r interims skipped current
  | success : r.decoder.state = .complete → r.decoder.handoff = true →
      200 ≤ r.decoder.status → IsSuccess current → skipped.length = interims →
      Position r interims skipped current

/-- **What is known when the negotiation ends**: the bytes that were received, and when it has
succeeded, what they are. -/
def Negotiated (limits : ProxyLimits) (wire : Bytes) (result : Except Errno Bytes) (c : Connection) :
    Prop :=
  ∃ taken, Taken limits wire taken c ∧ ∀ rest, result = .ok rest →
    ∃ (interims : List Bytes) (head : Bytes), taken = interims.flatten ++ head ++ rest ∧
      interims.length ≤ limits.maxInformationalResponses ∧ (∀ i ∈ interims, IsInterim i) ∧
      IsSuccess head ∧ rest.length ≤ limits.maxReadAhead

theorem Negotiated.of_error {c : Connection} (h : Taken limits wire taken c) (error : Errno) :
    Negotiated limits wire (.error error) c :=
  ⟨taken, h, nofun⟩

/-- The statement about the loop for a number of rounds. -/
def LoopSpec (limits : ProxyLimits) (wire : Bytes) (rounds : ℕ) : Prop :=
  ∀ {r : ResponseReader} {c c' : Connection} {interims : ℕ} {skipped : List Bytes}
    {current : Bytes} {result : Except Errno Bytes},
    Position r interims skipped current → interims ≤ limits.maxInformationalResponses →
    (∀ i ∈ skipped, IsInterim i) →
    Flow limits wire (skipped.flatten ++ current) r.buffer c.stream c.received →
    negotiateLoop limits rounds r c interims = some (result, c') → Negotiated limits wire result c'

variable {result : Except Errno Bytes} {rounds : ℕ} {skipped : List Bytes}

section Round

variable (hskipped : ∀ i ∈ skipped, IsInterim i)
  (hflow : Flow limits wire (skipped.flatten ++ current) r.buffer c.stream c.received)
  (hstopped : stopped c.events = none)

include hskipped hflow hstopped

/-- A round that reads a head. -/
theorem LoopSpec.reading (ih : LoopSpec limits wire rounds) (hreading : Reading r.decoder current)
    (hinterims : skipped.length ≤ limits.maxInformationalResponses)
    (hloop : negotiateLoop limits (rounds + 1) r c skipped.length = some (result, c')) :
    Negotiated limits wire result c' := by
  rw [negotiateLoop] at hloop
  cases hread : r.readWith limits c.stream c.received c.events with
  | none =>
    simp only [hstopped, hread] at hloop
    cases hloop
  | some o =>
    have hafter := readWith_reading hreading hflow hread
    simp only [hstopped, hread, Option.bind_eq_bind, Option.bind_some] at hloop
    cases herr : o.error with
    | some error =>
      simp only [herr] at hloop
      cases hloop
      obtain ⟨taken, htaken⟩ := hafter.1
      exact .of_error htaken _
    | none =>
      obtain ⟨hev, head, hflow', hhead, hframed⟩ := hafter.2 herr
      simp only [herr, hev] at hloop
      split_ifs at hloop with hrange hswitch hrefused hauth hinterim hmany
      iterate 5
        · cases hloop
          exact .of_error hflow'.taken _
      · -- an interim response
        simp only [Bool.or_eq_true, decide_eq_true_eq, not_or, not_lt] at hrange
        obtain ⟨hst, hhandoff⟩ := hframed hrange.1 (by omega)
        refine ih (.interim hst ?_ hinterim ⟨_, hhead, hrange.1, hinterim, hswitch⟩ rfl)
          (by omega) hskipped hflow' hloop
        rw [hhandoff]
        simp [hswitch, hinterim]
      · simp only [Bool.or_eq_true, decide_eq_true_eq, not_or, not_lt] at hrange
        obtain ⟨hst, hhandoff⟩ := hframed hrange.1 (by omega)
        refine ih (.success hst ?_ (by omega) ⟨_, hhead, by omega, by omega⟩ rfl)
          hinterims hskipped hflow' hloop
        rw [hhandoff]
        simp only [Bool.or_eq_true, decide_eq_true_eq]
        omega

/-- A round after an interim response. -/
theorem LoopSpec.interim (ih : LoopSpec limits wire rounds) (hst : r.decoder.state = .complete)
    (hhandoff : r.decoder.handoff = false) (hlow : r.decoder.status < 200)
    (hcur : IsInterim current)
    (hinterims : skipped.length + 1 ≤ limits.maxInformationalResponses)
    (hloop : negotiateLoop limits (rounds + 1) r c (skipped.length + 1) = some (result, c')) :
    Negotiated limits wire result c' := by
  rw [negotiateLoop] at hloop
  obtain ⟨reader, hread, hdecoder, hbuf, hcompleted, hrd⟩ :=
    readWith_complete limits hst c
  simp only [hstopped, hread, hhandoff, Option.bind_eq_bind, Option.bind_some, hdecoder, hlow.not_ge,
    if_false, Bool.false_eq_true] at hloop
  have hnext : reader.nextResponse = some { reader with
      decoder := .fresh reader.decoder.maxHeaders reader.decoder.maxHeaderSize none
      completed := false
      messageBytes := 0 } := by
    simp [ResponseReader.nextResponse, hcompleted, hrd, hhandoff, hdecoder, hst]
  simp only [hnext] at hloop
  have hskipped' : ∀ i ∈ skipped ++ [current], IsInterim i := by
    intro i hi
    rcases mem_append.1 hi with hi | hi
    · exact hskipped i hi
    · rw [mem_singleton.1 hi]
      exact hcur
  have hflow' : Flow limits wire ((skipped ++ [current]).flatten ++ []) reader.buffer c.stream
      c.received := by
    rw [flatten_append, flatten_singleton, append_nil, hbuf]
    exact hflow
  refine @ih _ _ _ _ _ [] _ ?_ hinterims hskipped' ?_ hloop
  · exact .reading (Reading.fresh _ _) length_append
  · exact hflow'

/-- A round after the head that opens the tunnel. -/
theorem negotiateLoop_success {interims : ℕ} (hst : r.decoder.state = .complete)
    (hhandoff : r.decoder.handoff = true) (hcur : IsSuccess current)
    (hinterims : skipped.length ≤ limits.maxInformationalResponses)
    (hloop : negotiateLoop limits (rounds + 1) r c interims = some (result, c')) :
    Negotiated limits wire result c' := by
  rw [negotiateLoop] at hloop
  obtain ⟨reader, hread, hdecoder, hbuf, -, -⟩ := readWith_complete limits hst c
  simp only [hstopped, hread, hhandoff, Option.bind_eq_bind, Option.bind_some, hbuf, if_true] at hloop
  split_ifs at hloop with hcode hlong <;> cases hloop
  · exact .of_error hflow.taken _
  · exact .of_error hflow.taken _
  · refine ⟨_, hflow.taken, ?_⟩
    rintro rest ⟨⟩
    exact ⟨skipped, current, rfl, hinterims, hskipped, hcur, not_lt.1 hlong⟩

end Round

/-- **What the loop over the responses has done when it returns.** -/
theorem negotiateLoop_spec (limits : ProxyLimits) (wire : Bytes) (rounds : ℕ) :
    LoopSpec limits wire rounds := by
  induction rounds with
  | zero => exact fun _ _ _ _ h => nomatch h
  | succ rounds ih =>
    intro r c c' interims skipped current result hpos hinterims hskipped hflow hloop
    cases hstopped : stopped c.events with
    | some error =>
      rw [negotiateLoop, hstopped] at hloop
      cases hloop
      exact .of_error hflow.taken _
    | none =>
      cases hpos with
      | reading hread hlen =>
        subst hlen
        exact ih.reading hskipped hflow hstopped hread hinterims hloop
      | interim hst hhandoff hlow hcur hlen =>
        subst hlen
        exact ih.interim hskipped hflow hstopped hst hhandoff hlow hcur hinterims hloop
      | success hst hhandoff _ hcur hlen =>
        exact negotiateLoop_success hskipped hflow hstopped hst hhandoff hcur
          (hlen.le.trans hinterims) hloop

/-- **What the negotiation has done when it returns.** -/
theorem negotiateConnect_spec {request : Bytes} {events : List StreamEvent} {c : Connection}
    (h : negotiateConnect limits request stream events rounds = some (result, c)) :
    Negotiated limits stream result c := by
  have hstart : ∀ events, Taken limits stream [] ⟨stream, 0, events⟩ := fun _ =>
    ⟨rfl, rfl, Nat.zero_le _⟩
  rw [negotiateConnect] at h
  cases hstopped : stopped events with
  | some error =>
    simp only [hstopped] at h
    cases h
    exact .of_error (hstart _) _
  | none =>
    simp only [hstopped] at h
    split_ifs at h
    · cases h
      exact .of_error (hstart _) _
    · cases hwrite : writeRequest events request.length with
      | none =>
        simp only [hwrite] at h
        cases h
      | some written =>
        cases written with
        | error error =>
          simp only [hwrite] at h
          cases h
          exact .of_error (hstart _) _
        | ok rest =>
          simp only [hwrite] at h
          exact negotiateLoop_spec limits stream rounds
            (.reading (Reading.fresh _ _) (length_nil)) (Nat.zero_le _) nofun
            ⟨rfl, rfl, Nat.zero_le _⟩ h

/-! ### The tunnel -/

/-- What a read leaves of the bytes it has not delivered. -/
def OwnedPrefix.left (s : OwnedPrefix) : Bytes := s.kept.drop s.offset ++ s.lower

/-- **A read delivers the next bytes.** -/
theorem OwnedPrefix.readOwned_left (s : OwnedPrefix) (call : TunnelRead) :
    (s.readOwned call).1.bytes ++ (s.readOwned call).2.left = s.left := by
  rw [readOwned]
  cases call.refused with
  | some error => rfl
  | none =>
    split_ifs with hsize hprefix
    · rfl
    · simp only [Received.bytes, left, ← append_assoc, ← drop_drop, take_append_drop]
    · have hemp : s.kept.drop s.offset = [] := drop_eq_nil_of_le (not_lt.1 hprefix)
      cases call.event with
      | moved n =>
        simp only [Received.bytes, left, hemp, nil_append, take_append_drop]
      | _ => rfl

theorem OwnedPrefix.readAll_left (s : OwnedPrefix) (calls : List TunnelRead) :
    (s.readAll calls).1 ++ (s.readAll calls).2.left = s.left := by
  induction calls generalizing s with
  | nil => rfl
  | cons call calls ih =>
    rw [readAll]
    rw [append_assoc, ih, readOwned_left]

/-- A reply with an interim response. -/
def interimReply : Bytes :=
  text "HTTP/1.1 100 Go\x0d\nA: b\x0d\n\x0d\nHTTP/1.1 200 OK\x0d\n\x0d\nabcdef"

end Elio.Http.Proxy
