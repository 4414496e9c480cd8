/-
**The body of a request.**

From the line that ends the headers on, `request_parser` either takes a given number of bytes or
decodes the chunked coding.  This module says which bytes it takes when the message becomes
complete: those of the body as it stands on the wire, and no byte behind it.

The parser is a decoder of the chunked coding in the sense of `Elio/ChunkedBody.lean`: it completes
on exactly those inputs that begin with a chunked body, and it then has the content of that body.

Main definitions:

* `RequestParser.chunkDecoder` — the parser as a decoder of the chunked coding.

Main results:

* `RequestParser.body_of_complete` — a body of a given length;
* `RequestParser.chunks_of_complete` — **what a complete chunked message has consumed**.
-/

import Elio.RequestParserRun

set_option autoImplicit false

namespace Elio.Http

open List

namespace RequestParser

variable {inetPton6 : Bytes → Bool}

/-! ### Runs that end at once -/

variable {p : RequestParser}

theorem run_of_waits (h : p.waits = true) :
    (machine inetPton6).run p = p :=
  FeedMachine.run_of_none (advance_of_waits h)

theorem run_of_complete (h : p.progress.state = .complete) :
    (machine inetPton6).run p = p :=
  run_of_waits (by simp [waits, h])

theorem run_of_error (h : p.progress.state = .error) :
    (machine inetPton6).run p = p :=
  run_of_waits (waits_of_error h)

theorem ne_error_of_complete
    (h : ((machine inetPton6).run p).progress.state = .complete) : p.progress.state ≠ .error := by
  intro herr
  rw [run_of_error herr, herr] at h
  cases h

theorem turn_of_complete
    (h : ((machine inetPton6).run p).progress.state = .complete)
    (hst : p.progress.state ≠ .complete) :
    p.buffer ≠ [] ∧ p.waits = false ∧
      (machine inetPton6).run p = (machine inetPton6).run (p.turn inetPton6) := by
  cases hadv : p.advance inetPton6 with
  | none =>
    have hrun : (machine inetPton6).run p = p := FeedMachine.run_of_none hadv
    rw [hrun] at h
    exact absurd h hst
  | some p' =>
    obtain ⟨hbuf, hwaits, rfl⟩ := advance_eq_some hadv
    exact ⟨hbuf, hwaits, run_turn hbuf hwaits⟩

/-! ### Lines -/

variable {line rest : Bytes}

theorem take_line {s : Bytes} (h : s = line ++ crlf ++ rest) :
    s.take line.length = line := by
  rw [h, append_assoc, take_left]

theorem drop_line {s : Bytes} (h : s = line ++ crlf ++ rest) :
    s.drop (line.length + 2) = rest := by
  have hlen : line.length + 2 = (line ++ crlf).length := by simp [crlf]
  rw [h, hlen, drop_left]

theorem handled_line {progress : Progress}
    (hbuf : p.buffer = line ++ crlf ++ rest) (hok : progress.state ≠ .error) :
    p.handled line.length progress = ⟨progress, rest⟩ := by
  rw [handled, if_neg hok, drop_line hbuf]

theorem limitedLine_line
    (hfind : findCrlf p.buffer = some line.length) (hle : line.length ≤ p.progress.maxHeaderSize)
    (message : String) (atLine : ℕ → RequestParser → RequestParser) :
    p.limitedLine message atLine = atLine line.length p := by
  rw [limitedLine, hfind]
  exact if_neg (by omega)

/-- The line with which a limited state goes on, in a run that ends complete. -/
theorem line_of_complete (hlimited : p.limited)
    (h : ((machine inetPton6).run p).progress.state = .complete)
    {message : String} {atLine : ℕ → RequestParser → RequestParser}
    (hturn : p.turn inetPton6 = p.limitedLine message atLine) :
    ∃ line rest, findCrlf p.buffer = some line.length ∧ p.buffer = line ++ crlf ++ rest ∧
      line.length ≤ p.progress.maxHeaderSize ∧
      (machine inetPton6).run p = (machine inetPton6).run (atLine line.length p) := by
  have hst : p.progress.state ≠ .complete := by
    rcases hlimited with hst | hst | hst <;> rw [hst] <;> decide
  obtain ⟨-, hwaits, hrun⟩ := turn_of_complete h hst
  have herr : (p.limitedLine message atLine).progress.state ≠ .error := by
    rw [← hturn]
    exact ne_error_of_complete (hrun ▸ h)
  cases hfind : findCrlf p.buffer with
  | none =>
    have hlong := tooLong_of_limited hlimited hwaits hfind
    simp only [limitedLine, hfind, hlong, if_true] at herr
    exact absurd rfl herr
  | some n =>
    have hsplit := findCrlf_eq_some hfind
    have hlen : (p.buffer.take n).length = n := by
      rw [length_take]
      have := findCrlf_lt_length hfind
      omega
    by_cases hlong : n > p.progress.maxHeaderSize
    · simp only [limitedLine, hfind, hlong, if_true] at herr
      exact absurd rfl herr
    · refine ⟨p.buffer.take n, p.buffer.drop (n + 2), by rw [hlen], hsplit, by omega, ?_⟩
      rw [hrun, hturn, hlen, limitedLine, hfind]
      simp only [hlong, if_false]

theorem findCrlf_plain (h : Plain line) (rest : Bytes) :
    findCrlf (line ++ crlf ++ rest) = some line.length :=
  findCrlf_line (fun hmem => (h cr hmem).1 rfl) rest

/-- A turn on a line without line-end bytes that is not too long. -/
theorem run_line (hlimited : p.limited)
    (hbuf : p.buffer = line ++ crlf ++ rest) (hplain : Plain line)
    (hle : line.length ≤ p.progress.maxHeaderSize) {message : String}
    {atLine : ℕ → RequestParser → RequestParser}
    (hturn : p.turn inetPton6 = p.limitedLine message atLine) :
    (machine inetPton6).run p = (machine inetPton6).run (atLine line.length p) := by
  have hfind : findCrlf p.buffer = some line.length := hbuf ▸ findCrlf_plain hplain rest
  have hne : p.buffer ≠ [] := by
    intro hemp
    rw [hemp] at hfind
    cases hfind
  have hwaits : p.waits = false := by
    rw [waits_of_limited hlimited]
    simp [awaitsLine, hfind]
  rw [run_turn hne hwaits, hturn, limitedLine_line hfind hle]

/-! ### A body of a given length -/

/-- **A body of a given length consists of the bytes that follow the headers.** -/
theorem body_of_complete (hst : p.progress.state = .body)
    (h : ((machine inetPton6).run p).progress.state = .complete) :
    ∃ data, p.buffer = data ++ ((machine inetPton6).run p).buffer ∧
      data.length = p.progress.contentLength - p.progress.bodyReceived ∧
      ((machine inetPton6).run p).progress =
        { p.progress with
          body := p.progress.body ++ data
          bodyReceived := p.progress.bodyReceived + data.length
          state := .complete } := by
  obtain ⟨-, -, hrun⟩ := turn_of_complete h (by rw [hst]; decide)
  have hturn : p.turn inetPton6 = p.parseBody.1 := by rw [turn, hst]
  rw [hturn] at hrun
  by_cases hle : p.progress.contentLength - p.progress.bodyReceived ≤ p.buffer.length
  · have hmin : min (p.progress.contentLength - p.progress.bodyReceived) p.buffer.length =
        p.progress.contentLength - p.progress.bodyReceived := Nat.min_eq_left hle
    have hdone : p.progress.contentLength ≤
        p.progress.bodyReceived + (p.progress.contentLength - p.progress.bodyReceived) := by omega
    have hbody : p.parseBody.1 =
        ⟨{ p.progress with
            body := p.progress.body ++
              p.buffer.take (p.progress.contentLength - p.progress.bodyReceived)
            bodyReceived := p.progress.bodyReceived +
              (p.progress.contentLength - p.progress.bodyReceived)
            state := .complete },
          p.buffer.drop (p.progress.contentLength - p.progress.bodyReceived)⟩ := by
      simp only [parseBody, hmin, ge_iff_le, hdone, if_true]
    rw [hrun, run_of_complete (by rw [hbody]), hbody]
    refine ⟨_, (take_append_drop _ _).symm, length_take_of_le hle, ?_⟩
    rw [length_take_of_le hle]
  · -- the buffer ends within the body, and the parser waits
    obtain ⟨hsame, hemp, -⟩ := parseBody_append_of_lt (not_le.1 hle) []
    have hstop : p.parseBody.1.advance inetPton6 = none := by simp [advance, hemp]
    have hend : (machine inetPton6).run p.parseBody.1 = p.parseBody.1 :=
      FeedMachine.run_of_none hstop
    rw [hrun, hend, hsame, hst] at h
    cases h

/-! ### The trailer section -/

theorem trailerAt_line (hbuf : p.buffer = line ++ crlf ++ rest)
    (hne : line ≠ []) :
    trailerAt line.length p = p.handled line.length (p.progress.trailerLine line) := by
  rw [trailerAt, if_neg (by simpa using hne), take_line hbuf]

/-- The trailer line with which a run goes on that ends complete. -/
theorem trailer_of_complete (hst : p.progress.state = .chunkTrailer)
    (h : ((machine inetPton6).run p).progress.state = .complete) :
    ∃ line rest, p.buffer = line ++ crlf ++ rest ∧ (line ≠ [] →
      line.length ≤ p.progress.maxHeaderSize ∧ p.progress.headerCount < p.progress.maxHeaders ∧
      validateChunkTrailerLine line = true) := by
  obtain ⟨line, rest, -, hbuf, hle, hrun⟩ := line_of_complete (.inr (.inr hst)) h
    (turn_chunkTrailer hst)
  refine ⟨line, rest, hbuf, fun hne => ⟨hle, ?_⟩⟩
  have hok := ne_error_of_complete (hrun ▸ h)
  rw [trailerAt_line hbuf hne, Progress.trailerLine] at hok
  split_ifs at hok with hcnt hvalid
  · exact absurd rfl hok
  · exact absurd rfl hok
  · exact ⟨by omega, by simpa using hvalid⟩

theorem run_fieldLine (hst : p.progress.state = .chunkTrailer)
    (hbuf : p.buffer = line ++ crlf ++ rest) (hne : line ≠ [])
    (hle : line.length ≤ p.progress.maxHeaderSize)
    (hcnt : p.progress.headerCount < p.progress.maxHeaders)
    (hvalid : validateChunkTrailerLine line = true) :
    (machine inetPton6).run p = (machine inetPton6).run
      ⟨{ p.progress with headerCount := p.progress.headerCount + 1 }, rest⟩ := by
  have hprog : p.progress.trailerLine line =
      { p.progress with headerCount := p.progress.headerCount + 1 } := by
    rw [Progress.trailerLine, if_neg (by omega), hvalid]
    rfl
  rw [run_line (.inr (.inr hst)) hbuf (plain_of_validateChunkTrailerLine hvalid) hle
    (turn_chunkTrailer hst), trailerAt_line hbuf hne, handled_line hbuf, hprog]
  rw [hprog, hst]
  decide

theorem run_lastLine (hst : p.progress.state = .chunkTrailer)
    (hbuf : p.buffer = crlf ++ rest) :
    (machine inetPton6).run p = ⟨{ p.progress with state := .complete }, rest⟩ := by
  have hline : p.buffer = [] ++ crlf ++ rest := hbuf
  have hend : trailerAt 0 p = ⟨{ p.progress with state := .complete }, rest⟩ := by
    rw [trailerAt, hbuf]
    rfl
  rw [run_line (.inr (.inr hst)) hline Plain.nil (Nat.zero_le _)
    (turn_chunkTrailer hst), length_nil, hend, run_of_complete rfl]

/-! ### The chunks -/

/-- The chunk-size line with which a run goes on that ends complete. -/
theorem size_of_complete (hst : p.progress.state = .chunkSize)
    (h : ((machine inetPton6).run p).progress.state = .complete) :
    ∃ line rest size, p.buffer = line ++ crlf ++ rest ∧
      line.length ≤ p.progress.maxHeaderSize ∧ parseChunkSizeLine line = (size, none) := by
  obtain ⟨line, rest, -, hbuf, hle, hrun⟩ := line_of_complete (.inr (.inl hst)) h
    (turn_chunkSize hst)
  have hok := ne_error_of_complete (hrun ▸ h)
  rw [chunkSizeAt, take_line hbuf, Progress.chunkSizeLine] at hok
  rcases hline : parseChunkSizeLine line with ⟨size, - | error⟩
  · exact ⟨line, rest, size, hbuf, hle, hline⟩
  · rw [hline] at hok
    exact absurd rfl hok

theorem run_sizeLine (hst : p.progress.state = .chunkSize) {size : ℕ}
    (hbuf : p.buffer = line ++ crlf ++ rest) (hle : line.length ≤ p.progress.maxHeaderSize)
    (hsize : parseChunkSizeLine line = (size, none)) :
    (machine inetPton6).run p = (machine inetPton6).run
      ⟨{ p.progress with
          chunkSize := size
          state := if size = 0 then .chunkTrailer else .chunkData }, rest⟩ := by
  have hprog : p.progress.chunkSizeLine line = { p.progress with
      chunkSize := size
      state := if size = 0 then .chunkTrailer else .chunkData } := by
    rw [Progress.chunkSizeLine, hsize]
  rw [run_line (.inr (.inl hst)) hbuf (plain_of_parseChunkSizeLine hsize) hle
    (turn_chunkSize hst), chunkSizeAt, take_line hbuf, handled_line hbuf, hprog]
  rw [hprog]
  split_ifs <;> simp

/-- A chunk that has arrived with its line end. -/
theorem run_chunkData (hst : p.progress.state = .chunkData)
    {data : Bytes} (hsize : data.length = p.progress.chunkSize)
    (hbuf : p.buffer = data ++ crlf ++ rest) :
    (machine inetPton6).run p = (machine inetPton6).run
      ⟨{ p.progress with body := p.progress.body ++ data, state := .chunkSize }, rest⟩ := by
  have hlen : p.buffer.length = p.progress.chunkSize + 2 + rest.length := by
    rw [hbuf, ← hsize]
    simp only [length_append, crlf, length_cons, length_nil]
  have hwaits : p.waits = false := by
    simp only [waits, hst, decide_eq_false_iff_not]
    omega
  have hne : p.buffer ≠ [] := by
    intro hemp
    rw [hemp, length_nil] at hlen
    omega
  have hshort : ¬ p.buffer.length < p.progress.chunkSize + 2 := by omega
  have hend : (p.buffer.drop p.progress.chunkSize).take 2 = crlf := by
    rw [hbuf, ← hsize, append_assoc, drop_left]
    rfl
  have hturn : p.turn inetPton6 =
      ⟨{ p.progress with body := p.progress.body ++ data, state := .chunkSize }, rest⟩ := by
    simp only [turn, hst, parseChunkData, if_neg hshort, hend, ne_eq, not_true_eq_false, if_false]
    rw [← hsize, take_line hbuf, drop_line hbuf]
  rw [run_turn hne hwaits, hturn]

/-- The chunk with which a run goes on that ends complete. -/
theorem data_of_complete (hst : p.progress.state = .chunkData)
    (h : ((machine inetPton6).run p).progress.state = .complete) :
    ∃ data rest, data.length = p.progress.chunkSize ∧ p.buffer = data ++ crlf ++ rest := by
  obtain ⟨-, hwaits, hrun⟩ := turn_of_complete h (by rw [hst]; decide)
  have hlong : ¬ p.buffer.length < p.progress.chunkSize + 2 := by
    simpa [waits, hst] using hwaits
  refine ⟨p.buffer.take p.progress.chunkSize, p.buffer.drop (p.progress.chunkSize + 2), ?_, ?_⟩
  · exact length_take_of_le (by omega)
  · by_cases hend : (p.buffer.drop p.progress.chunkSize).take 2 = crlf
    · rw [← hend, append_assoc, ← drop_drop, take_append_drop,
        take_append_drop]
    · -- without the line end the chunk is refused
      have herr : (p.turn inetPton6).progress.state = .error := by
        simp only [turn, hst, parseChunkData, if_neg hlong, ne_eq, hend, not_false_eq_true,
          if_true]
        rfl
      exact absurd herr (ne_error_of_complete (hrun ▸ h))

/-- **The parser as a decoder of the chunked coding.** -/
def chunkDecoder (inetPton6 : Bytes → Bool) (q : Progress) : ChunkDecoder RequestParser q.maxHeaderSize q.maxHeaders where
  atSize last count body input := (machine inetPton6).run
    ⟨{ q with chunkSize := last, headerCount := count, body := body, state := .chunkSize }, input⟩
  atData size count body input := (machine inetPton6).run
    ⟨{ q with chunkSize := size, headerCount := count, body := body, state := .chunkData }, input⟩
  atTrailer count body input := (machine inetPton6).run
    ⟨{ q with chunkSize := 0, headerCount := count, body := body, state := .chunkTrailer }, input⟩
  ended count body rest :=
    ⟨{ q with chunkSize := 0, headerCount := count, body := body, state := .complete }, rest⟩
  complete p := p.progress.state = .complete
  sizeLine hle hsize := by
    rw [run_sizeLine rfl rfl hle hsize]
    split_ifs with hzero
    · rw [hzero]
    · rfl
  chunk _ _ _ _ _ := ⟨_, run_chunkData rfl rfl rfl⟩
  fieldLine hne hle hcount hvalid := run_fieldLine rfl rfl hne hle hcount hvalid
  emptyLine := run_lastLine rfl rfl
  of_size := size_of_complete rfl
  of_data := data_of_complete rfl
  of_trailer := trailer_of_complete rfl

theorem run_eq_atSize (hst : p.progress.state = .chunkSize) :
    (machine inetPton6).run p = (chunkDecoder inetPton6 p.progress).atSize p.progress.chunkSize
      p.progress.headerCount p.progress.body p.buffer := by
  change _ = (machine inetPton6).run ⟨{ p.progress with state := .chunkSize }, p.buffer⟩
  rw [← hst]

/-- **What a complete chunked message has consumed** is a chunked body. -/
theorem chunks_of_complete (hst : p.progress.state = .chunkSize)
    (h : ((machine inetPton6).run p).progress.state = .complete) :
    ∃ wire body sizes count, p.buffer = wire ++ ((machine inetPton6).run p).buffer ∧
      Chunks p.progress.maxHeaderSize p.progress.maxHeaders p.progress.headerCount wire body sizes ∧
      ((machine inetPton6).run p).progress =
        { p.progress with
          body := p.progress.body ++ body
          chunkSize := 0
          headerCount := count
          state := .complete } := by
  rw [run_eq_atSize hst] at h ⊢
  obtain ⟨wire, body, sizes, count, rest, hsplit, hwire, hrun⟩ :=
    (chunkDecoder inetPton6 p.progress).ended_of_complete h
  rw [hrun]
  exact ⟨wire, body, sizes, count, hsplit, hwire, rfl⟩

end RequestParser

end Elio.Http
