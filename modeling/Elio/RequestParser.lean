/-
**The request parser.**

`request_parser` of `http/http_parser.hpp` appends what it is given to `buffer_` and then calls the
sub-parser of its state until the buffer is used up, a sub-parser asks for more, or the message has
ended.  A sub-parser that works on a line looks for `"\r\n"` in the buffer, and looks at nothing
else of the buffer: what it does with the line is a function of the line and of the rest of the
parser's members.  The model keeps the two apart.  `Progress` has all members but `buffer_`, and
what is done with a line is a function on it.

Both loops, that of `parse` and that of `parse_headers`, take a bound on their turns that is larger
than the number of bytes in the buffer.  Every turn but the last consumes a byte, so the bound is
never reached; `Elio/RequestParserRun.lean` proves it.

Main definitions:

* `RequestParser.parse`, `RequestParser.reset` — the interface.
-/

import Elio.ChunkedBody

set_option autoImplicit false

namespace Elio.Http

/-- `enum class parse_state`, as far as a request parser uses it. -/
inductive ParseState where
  | requestLine
  | headers
  | body
  | chunkSize
  | chunkData
  | chunkTrailer
  | complete
  | error
  deriving DecidableEq, Repr

/-- `enum class parse_result`. -/
inductive ParseResult where
  | needMore
  | complete
  | error
  deriving DecidableEq, Repr

/-- The members of `request_parser` other than `buffer_`. -/
structure Progress where
  state : ParseState
  method : Method
  path : Bytes
  query : Bytes
  version : Bytes
  headers : Headers
  body : Bytes
  contentLength : ℕ
  bodyReceived : ℕ
  chunked : Bool
  chunkSize : ℕ
  errorMessage : String
  maxHeaders : ℕ
  maxHeaderSize : ℕ
  headerCount : ℕ
  deriving DecidableEq, Repr

/-- `request_parser`. -/
structure RequestParser where
  progress : Progress
  buffer : Bytes
  deriving DecidableEq, Repr

namespace Progress

/-- The members as `reset` leaves them. -/
def fresh (maxHeaders maxHeaderSize : ℕ) : Progress where
  state := .requestLine
  method := .get
  path := []
  query := []
  version := []
  headers := .empty
  body := []
  contentLength := 0
  bodyReceived := 0
  chunked := false
  chunkSize := 0
  errorMessage := ""
  maxHeaders := maxHeaders
  maxHeaderSize := maxHeaderSize
  headerCount := 0

/-- `set_error`. -/
def setError (p : Progress) (message : String) : Progress :=
  { p with state := .error, errorMessage := message }

/-- The state is one in which `parse` does nothing more. -/
def ended (p : Progress) : Bool := p.state = .complete || p.state = .error

/-! ### What is done with a line -/

/-- The end of `parse_request_line`: the target has been accepted. -/
def requestTarget (p : Progress) (uri version : Bytes) : Progress :=
  let p := match uri.idxOf? 0x3f with
    | some query => { p with path := uri.take query, query := uri.drop (query + 1) }
    | none => { p with path := uri }
  let p := { p with version := version }
  if version.isEmpty || !isValidHttpVersion version then p.setError "Invalid HTTP version"
  else { p with state := .headers }

/-- `parse_request_line`, from the line on. -/
def requestLine (inetPton6 : Bytes → Bool) (p : Progress) (line : Bytes) : Progress :=
  match line.idxOf? space with
  | none => p.setError "Invalid request line: no method"
  | some space1 =>
    match stringToMethod (line.take space1) with
    | none => p.setError "Unknown HTTP method"
    | some method =>
      let p := { p with method := method }
      let rest := line.drop (space1 + 1)
      match rest.idxOf? space with
      | none => p.setError "Invalid request line: no version"
      | some space2 =>
        let uri := rest.take space2
        if !isValidRequestTarget uri then p.setError "Invalid request-target"
        else if method = .connect && !isValidConnectAuthority inetPton6 uri then
          p.setError "Invalid CONNECT authority"
        else if uri.any fun c => c = 0x00 || (0x01 ≤ c && c ≤ 0x1f) || c = 0x7f then
          p.setError "Invalid character in request-target"
        else p.requestTarget uri (rest.drop (space2 + 1))

/-- `parse_headers` at a line that is not empty and not too long. -/
def headerLine (p : Progress) (line : Bytes) : Progress :=
  match line.idxOf? colon with
  | none => p.setError "Invalid header line"
  | some colon =>
    let name := line.take colon
    let value := trimOws (line.drop (colon + 1))
    if !isValidHeaderName name then p.setError "Invalid header name"
    else if !isValidHeaderValue value then p.setError "Invalid header value"
    else if asciiIequals name (text "Content-Length") &&
        (p.headers.contains (text "Content-Length") &&
          trimOws (p.headers.get (text "Content-Length")) ≠ value) then
      p.setError "Conflicting Content-Length headers"
    else if p.headerCount ≥ p.maxHeaders then p.setError "Too many headers"
    else
      match p.headers.add name value with
      | .ok headers => { p with headerCount := p.headerCount + 1, headers := headers }
      -- `add` throws on nothing that has passed the checks above
      | .error _ => p

/-- `parse_headers` at the empty line: the framing of the body is chosen. -/
def endOfHeaders (p : Progress) : Progress :=
  let hasTe := p.headers.contains (text "Transfer-Encoding")
  let hasCl := p.headers.contains (text "Content-Length")
  if hasTe && hasCl then
    p.setError "Both Transfer-Encoding and Content-Length present (RFC 7230 §3.3.3)"
  else if p.version = text "HTTP/1.1" && (p.headers.getAll (text "Host")).length ≠ 1 then
    p.setError "HTTP/1.1 requests require exactly one Host header"
  else if p.method = .connect then
    if hasTe then p.setError "CONNECT request cannot use Transfer-Encoding"
    else if hasCl && p.headers.contentLength ≠ some 0 then
      p.setError "CONNECT request cannot have content"
    else { p with state := .complete }
  else if hasTe then
    if !p.headers.isChunked then
      p.setError "Unsupported Transfer-Encoding (chunked must be final)"
    else { p with chunked := true, state := .chunkSize }
  else if hasCl then
    match p.headers.contentLength with
    | none => p.setError "Invalid Content-Length"
    | some length =>
      { p with
        contentLength := length
        state := if length > 0 then .body else .complete }
  else { p with state := .complete }

/-- `parse_chunk_size` at a line that is not too long. -/
def chunkSizeLine (p : Progress) (line : Bytes) : Progress :=
  match parseChunkSizeLine line with
  | (size, some error) => { p with chunkSize := size }.setError error
  | (size, none) =>
    { p with chunkSize := size, state := if size = 0 then .chunkTrailer else .chunkData }

/-- `parse_chunk_trailer` at a line that is not empty and not too long. -/
def trailerLine (p : Progress) (line : Bytes) : Progress :=
  if p.headerCount ≥ p.maxHeaders then p.setError "Too many headers"
  else if !validateChunkTrailerLine line then p.setError "Invalid trailer header"
  else { p with headerCount := p.headerCount + 1 }

end Progress

namespace RequestParser

/-- A parser that has been given nothing. -/
def fresh (maxHeaders maxHeaderSize : ℕ) : RequestParser :=
  ⟨.fresh maxHeaders maxHeaderSize, []⟩

/-- `reset`: the limits and the input that is left stay. -/
def reset (p : RequestParser) : RequestParser :=
  ⟨.fresh p.progress.maxHeaders p.progress.maxHeaderSize, p.buffer⟩

/-- `set_error`. -/
def setError (p : RequestParser) (message : String) : RequestParser :=
  { p with progress := p.progress.setError message }

/-- The line has been handled: it leaves the buffer, unless it was refused. -/
def handled (p : RequestParser) (lineEnd : ℕ) (progress : Progress) : RequestParser :=
  if progress.state = .error then { p with progress := progress }
  else ⟨progress, p.buffer.drop (lineEnd + 2)⟩

/-! ### The sub-parsers -/

/-- `parse_request_line`. -/
def parseRequestLine (inetPton6 : Bytes → Bool) (p : RequestParser) : RequestParser × Bool :=
  match findCrlf p.buffer with
  | none => (p, false)
  | some lineEnd =>
    let p' := p.handled lineEnd (p.progress.requestLine inetPton6 (p.buffer.take lineEnd))
    (p', p'.progress.state ≠ .error)

/-- One turn of `parse_headers`, which returns the answer of the function, if it returns. -/
def headersTurn (p : RequestParser) : RequestParser × Option Bool :=
  match findCrlf p.buffer with
  | none =>
    if bufferedLineSize p.buffer > p.progress.maxHeaderSize then
      (p.setError "Header line too long", some false)
    else (p, some false)
  | some 0 =>
    let progress := p.progress.endOfHeaders
    (⟨progress, p.buffer.drop 2⟩, some (progress.state ≠ .error))
  | some lineEnd =>
    if lineEnd > p.progress.maxHeaderSize then (p.setError "Header line too long", some false)
    else
      let p' := p.handled lineEnd (p.progress.headerLine (p.buffer.take lineEnd))
      (p', if p'.progress.state = .error then some false else none)

/-- The loop of `parse_headers`. -/
def headersLoop : ℕ → RequestParser → RequestParser × Bool
  | 0, p => (p, false)
  | bound + 1, p =>
    match headersTurn p with
    | (p, none) => headersLoop bound p
    | (p, some answer) => (p, answer)

/-- `parse_headers`. -/
def parseHeaders (p : RequestParser) : RequestParser × Bool := headersLoop (p.buffer.length + 1) p

/-- `parse_body`. -/
def parseBody (p : RequestParser) : RequestParser × Bool :=
  let remaining := p.progress.contentLength - p.progress.bodyReceived
  let available := min remaining p.buffer.length
  let progress : Progress :=
    { p.progress with
      body := p.progress.body ++ p.buffer.take available
      bodyReceived := p.progress.bodyReceived + available }
  if progress.bodyReceived ≥ progress.contentLength then
    (⟨{ progress with state := .complete }, p.buffer.drop available⟩, true)
  else (⟨progress, p.buffer.drop available⟩, false)

/-- `parse_chunk_size`. -/
def parseChunkSize (p : RequestParser) : RequestParser × Bool :=
  match findCrlf p.buffer with
  | none =>
    if bufferedLineSize p.buffer > p.progress.maxHeaderSize then
      (p.setError "Chunk size line too long", true)
    else (p, false)
  | some lineEnd =>
    if lineEnd > p.progress.maxHeaderSize then (p.setError "Chunk size line too long", true)
    else (p.handled lineEnd (p.progress.chunkSizeLine (p.buffer.take lineEnd)), true)

/-- `parse_chunk_data`: a chunk is taken with its line end, as a whole. -/
def parseChunkData (p : RequestParser) : RequestParser × Bool :=
  let size := p.progress.chunkSize
  if p.buffer.length < size + 2 then (p, false)
  else if (p.buffer.drop size).take 2 ≠ crlf then
    (p.setError "Missing CRLF after chunk data", true)
  else
    (⟨{ p.progress with
        body := p.progress.body ++ p.buffer.take size
        state := .chunkSize }, p.buffer.drop (size + 2)⟩, true)

/-- `parse_chunk_trailer`. -/
def parseChunkTrailer (p : RequestParser) : RequestParser × Bool :=
  match findCrlf p.buffer with
  | none =>
    if bufferedLineSize p.buffer > p.progress.maxHeaderSize then
      (p.setError "Trailer line too long", true)
    else (p, false)
  | some 0 => (⟨{ p.progress with state := .complete }, p.buffer.drop 2⟩, true)
  | some lineEnd =>
    if lineEnd > p.progress.maxHeaderSize then (p.setError "Trailer line too long", true)
    else (p.handled lineEnd (p.progress.trailerLine (p.buffer.take lineEnd)), true)

/-! ### The loop of `parse` -/

/-- The sub-parser of the state. -/
def subParser (inetPton6 : Bytes → Bool) (p : RequestParser) : RequestParser × Bool :=
  match p.progress.state with
  | .requestLine => p.parseRequestLine inetPton6
  | .headers => p.parseHeaders
  | .body => p.parseBody
  | .chunkSize => p.parseChunkSize
  | .chunkData => p.parseChunkData
  | .chunkTrailer => p.parseChunkTrailer
  | .complete | .error => (p, true)

/-- What `parse` returns when its loop has ended. -/
def finalResult (p : RequestParser) : ParseResult :=
  match p.progress.state with
  | .error => .error
  | .complete => .complete
  | _ => .needMore

/-- What `parse` returns when the sub-parser of the state `before` has returned `false`. -/
def earlyResult (before : ParseState) (p : RequestParser) : ParseResult :=
  match before with
  | .requestLine | .headers => if p.progress.state = .error then .error else .needMore
  | _ => .needMore

/-- The loop of `parse`: the parser, the result, and the number of bytes consumed. -/
def parseLoop (inetPton6 : Bytes → Bool) :
    ℕ → RequestParser → ℕ → RequestParser × ParseResult × ℕ
  | 0, p, consumed => (p, p.finalResult, consumed)
  | bound + 1, p, consumed =>
    if p.buffer.isEmpty || p.progress.ended then (p, p.finalResult, consumed)
    else
      match p.subParser inetPton6 with
      | (p', false) =>
        (p', earlyResult p.progress.state p', consumed + (p.buffer.length - p'.buffer.length))
      | (p', true) =>
        parseLoop inetPton6 bound p' (consumed + (p.buffer.length - p'.buffer.length))

/-- `buffer_ += data`. -/
def append (p : RequestParser) (data : Bytes) : RequestParser :=
  { p with buffer := p.buffer ++ data }

/-- `parse`. -/
def parse (inetPton6 : Bytes → Bool) (p : RequestParser) (data : Bytes) :
    RequestParser × ParseResult × ℕ :=
  parseLoop inetPton6 ((p.append data).buffer.length + 1) (p.append data) 0

end RequestParser

end Elio.Http
