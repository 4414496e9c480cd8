/-
**The response decoder.**

`response_decoder` of `http/http_parser.hpp` never stores a body.  It collects the bytes of a
framing line in `line_`, one after another, and hands the bytes of a body on as parts of the input
it was given.  A call of `decode` returns at the first event; the caller calls again with what is
left.

`decode` goes over its input from the front, and every turn of its loop that does not return takes
one byte of it, so it is a recursion on the input here.

Main definitions:

* `ResponseDecoder.decode`, `ResponseDecoder.finishEof` — the interface;
* `ResponseDecoder.drain` — calls of `decode` until no more events come.
-/

import Elio.ChunkedBody

set_option autoImplicit false

namespace Elio.Http

/-- `response_decoder::state`. -/
inductive DecoderState where
  | statusLine
  | headers
  | fixedBody
  | closeBody
  | chunkSize
  | chunkBody
  | chunkCr
  | chunkLf
  | trailers
  | complete
  | error
  deriving DecidableEq, Repr

/-- `enum class response_event`. -/
inductive ResponseEvent where
  | needMore
  | headersComplete
  | body
  | messageComplete
  | protocolHandoff
  | error
  deriving DecidableEq, Repr

/-- `response_decode_result`. -/
structure DecodeResult where
  event : ResponseEvent
  consumed : ℕ
  body : Bytes
  deriving DecidableEq, Repr

/-- `response_decoder`.  A status is its code. -/
structure ResponseDecoder where
  state : DecoderState
  status : ℕ
  version : Bytes
  reason : Bytes
  headers : Headers
  line : Bytes
  errorMessage : String
  requestMethod : Option Method
  remaining : ℕ
  maxHeaders : ℕ
  maxHeaderSize : ℕ
  headerCount : ℕ
  headersComplete : Bool
  closeDelimited : Bool
  handoff : Bool
  limitExceeded : Bool
  deriving DecidableEq, Repr

/-- `status_forbids_response_body`. -/
def statusForbidsResponseBody (code : ℕ) : Bool :=
  (100 ≤ code && code < 200) || code = 204 || code = 205 || code = 304

namespace ResponseDecoder

/-- A decoder after `reset` and `set_request_method`. -/
def fresh (maxHeaders maxHeaderSize : ℕ) (requestMethod : Option Method) : ResponseDecoder where
  state := .statusLine
  status := 200
  version := []
  reason := []
  headers := .empty
  line := []
  errorMessage := ""
  requestMethod := requestMethod
  remaining := 0
  maxHeaders := maxHeaders
  maxHeaderSize := maxHeaderSize
  headerCount := 0
  headersComplete := false
  closeDelimited := false
  handoff := false
  limitExceeded := false

/-- `fail`. -/
def fail (d : ResponseDecoder) (message : String) : ResponseDecoder :=
  { d with state := .error, errorMessage := message }

/-- `fail_limit`. -/
def failLimit (d : ResponseDecoder) (message : String) : ResponseDecoder :=
  { d with limitExceeded := true }.fail message

/-- The state is one in which `decode` does nothing more. -/
def ended (d : ResponseDecoder) : Bool := d.state = .complete || d.state = .error

/-! ### What is done with a line -/

/-- `select_framing`. -/
def selectFraming (d : ResponseDecoder) : ResponseDecoder :=
  let d : ResponseDecoder := { d with
    handoff := d.status = 101 ||
      (d.requestMethod = some .connect && 200 ≤ d.status && d.status < 300) }
  if d.handoff || d.requestMethod = some .head || statusForbidsResponseBody d.status then
    { d with state := .complete }
  else
    let hasTe := d.headers.contains (text "Transfer-Encoding")
    let hasCl := d.headers.contains (text "Content-Length")
    if hasTe && hasCl then d.fail "Both Transfer-Encoding and Content-Length present"
    else if hasTe then
      if !asciiIequals (trimOws (d.headers.get (text "Transfer-Encoding"))) (text "chunked") then
        d.fail "Unsupported Transfer-Encoding"
      else { d with state := .chunkSize }
    else if hasCl then
      match d.headers.contentLength with
      | none => d.fail "Invalid Content-Length"
      | some length =>
        { d with remaining := length, state := if length = 0 then .complete else .fixedBody }
    else { d with closeDelimited := true, state := .closeBody }

/-- `process_line` at the status line. -/
def statusLine (d : ResponseDecoder) (line : Bytes) : ResponseDecoder :=
  match line.idxOf? space with
  | none => d.fail "Invalid status line: no version"
  | some first =>
    if !isValidHttpVersion (line.take first) then d.fail "Invalid HTTP version"
    else
      let d := { d with version := line.take first }
      let rest := line.drop (first + 1)
      let code := match rest.idxOf? space with
        | none => rest
        | some space => rest.take space
      match fromChars 65535 code with
      | some (number, []) =>
        if code.length ≠ 3 then d.fail "Invalid status code"
        else
          { d with
            status := number
            reason := match rest.idxOf? space with
              | none => d.reason
              | some space => rest.drop (space + 1)
            state := .headers }
      | _ => d.fail "Invalid status code"

/-- `process_line` at a header line that is not empty. -/
def headerLine (d : ResponseDecoder) (line : Bytes) : ResponseDecoder :=
  match line.idxOf? colon with
  | none => d.fail "Invalid header line"
  | some colon =>
    let name := line.take colon
    let value := trimOws (line.drop (colon + 1))
    if !isValidHeaderName name then d.fail "Invalid header name"
    else if !isValidHeaderValue value then d.fail "Invalid header value"
    else
      let tunnelLength := d.requestMethod = some .connect && 200 ≤ d.status && d.status < 300 &&
        asciiIequals name (text "Content-Length")
      if !tunnelLength && asciiIequals name (text "Content-Length") &&
          d.headers.contains (text "Content-Length") &&
          trimOws (d.headers.get (text "Content-Length")) ≠ value then
        d.fail "Conflicting Content-Length headers"
      else if d.headerCount ≥ d.maxHeaders then d.failLimit "Too many headers"
      else
        match (if tunnelLength then d.headers.set name value else d.headers.add name value) with
        | .ok headers => { d with headerCount := d.headerCount + 1, headers := headers }
        -- neither throws on what has passed the checks above
        | .error _ => d

/-- `process_line` at a trailer line. -/
def trailerLine (d : ResponseDecoder) (line : Bytes) : ResponseDecoder :=
  if line.isEmpty then { d with state := .complete }
  else if d.headerCount ≥ d.maxHeaders then d.failLimit "Too many headers"
  else if !validateChunkTrailerLine line then d.fail "Invalid trailer header"
  else { d with headerCount := d.headerCount + 1 }

/-- `process_line` at a chunk-size line. -/
def chunkSizeLine (d : ResponseDecoder) (line : Bytes) : ResponseDecoder :=
  match parseChunkSizeLine line with
  | (size, some error) => { d with remaining := size }.fail error
  | (size, none) =>
    { d with remaining := size, state := if size = 0 then .trailers else .chunkBody }

/-- `process_line`. -/
def processLine (d : ResponseDecoder) (line : Bytes) : ResponseDecoder :=
  match d.state with
  | .statusLine => d.statusLine line
  | .chunkSize => d.chunkSizeLine line
  | .trailers => d.trailerLine line
  | _ => if line.isEmpty then d.selectFraming else d.headerLine line

/-! ### Bytes -/

/-- A complete line: it is processed and `line_` is cleared, and the empty line after the headers is
remembered.  `process_line` has nothing to do with `line_`, which is cleared first here. -/
def endLine (d : ResponseDecoder) (line : Bytes) : ResponseDecoder :=
  let boundary := d.state = .headers && line.isEmpty
  let d := { d with line := [] }.processLine line
  if d.state ≠ .error && boundary then { d with headersComplete := true } else d

/-- The message of a line that is too long. -/
def tooLong : DecoderState → String
  | .statusLine => "Status line too long"
  | .chunkSize => "Chunk size line too long"
  | .trailers => "Trailer line too long"
  | _ => "Header line too long"

/-- The byte `ch` of a framing line. -/
def lineByte (d : ResponseDecoder) (ch : UInt8) : ResponseDecoder :=
  if d.line.getLast? = some cr && ch ≠ lf then d.fail "Invalid framing line ending"
  else if ch = lf then
    if d.line.getLast? ≠ some cr then d.fail "Invalid framing line ending"
    else d.endLine d.line.dropLast
  else if ch ≠ cr && d.line.length ≥ d.maxHeaderSize then d.failLimit (tooLong d.state)
  else { d with line := d.line ++ [ch] }

/-- The result of a call that finds the message ended, or its input used up. -/
def atEnd (d : ResponseDecoder) (used : ℕ) : DecodeResult :=
  match d.state with
  | .error => ⟨.error, used, []⟩
  | .complete => ⟨if d.handoff then .protocolHandoff else .messageComplete, used, []⟩
  | _ => ⟨.needMore, used, []⟩

/-- The state when a body has no bytes left. -/
def afterBody : DecoderState → DecoderState
  | .fixedBody => .complete
  | _ => .chunkCr

/-- `decode` at the bytes of a body. -/
def decodeBody (d : ResponseDecoder) (input : Bytes) (used : ℕ) : ResponseDecoder × DecodeResult :=
  if d.state = .closeBody then (d, ⟨.body, used + input.length, input⟩)
  else
    let count := min d.remaining input.length
    let d' : ResponseDecoder := { d with
      remaining := d.remaining - count
      state := if d.remaining - count = 0 then afterBody d.state else d.state }
    (d', ⟨.body, used + count, input.take count⟩)

/-- The loop of `decode`. -/
def decodeLoop (d : ResponseDecoder) : Bytes → ℕ → ResponseDecoder × DecodeResult
  | [], used => (d, d.atEnd used)
  | c :: input, used =>
    match d.state with
    | .error | .complete => (d, d.atEnd used)
    | .fixedBody | .closeBody | .chunkBody => d.decodeBody (c :: input) used
    | .chunkCr =>
      if c ≠ cr then (d.fail "Missing CRLF after chunk data", ⟨.error, used, []⟩)
      else decodeLoop { d with state := .chunkLf } input (used + 1)
    | .chunkLf =>
      if c ≠ lf then (d.fail "Missing CRLF after chunk data", ⟨.error, used, []⟩)
      else decodeLoop { d with state := .chunkSize } input (used + 1)
    | .statusLine | .headers | .chunkSize | .trailers =>
      let d' := d.lineByte c
      -- the empty line after the headers
      if d.state = .headers && d.line = [cr] && c = lf && d'.state ≠ .error then
        (d', ⟨.headersComplete, used + 1, []⟩)
      else decodeLoop d' input (used + 1)

/-- `decode`. -/
def decode (d : ResponseDecoder) (input : Bytes) : ResponseDecoder × DecodeResult :=
  d.decodeLoop input 0

/-- `finish_eof`. -/
def finishEof (d : ResponseDecoder) : ResponseDecoder × DecodeResult :=
  let d : ResponseDecoder := if d.state = .closeBody then { d with state := .complete } else d
  let d := if d.ended then d else d.fail "Connection closed before response complete"
  d.decode []

/-- `decode` is called on what is left of the input until it asks for more, or the message has
ended: the decoder, the last event, the bytes of the body and what is left.  Every event that is not
the last takes a byte or ends a body, so the bound is never reached. -/
def drainLoop : ℕ → ResponseDecoder → Bytes → Bytes →
    ResponseDecoder × ResponseEvent × Bytes × Bytes
  | 0, d, input, body => (d, .needMore, body, input)
  | bound + 1, d, input, body =>
    match d.decode input with
    | (d', ⟨.body, consumed, payload⟩) =>
      drainLoop bound d' (input.drop consumed) (body ++ payload)
    | (d', ⟨.headersComplete, consumed, _⟩) => drainLoop bound d' (input.drop consumed) body
    | (d', ⟨event, consumed, _⟩) => (d', event, body, input.drop consumed)

/-- All events of an input. -/
def drain (d : ResponseDecoder) (input : Bytes) :
    ResponseDecoder × ResponseEvent × Bytes × Bytes :=
  drainLoop (2 * input.length + 3) d input []

end ResponseDecoder

end Elio.Http
