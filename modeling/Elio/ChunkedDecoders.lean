/-
**Two decoders of the chunked coding.**

`request_parser` looks for line ends in a buffer and takes a chunk as a whole; `response_decoder`
reads one byte after another and refuses a stray `'\r'` or `'\n'` where it stands.  On malformed
input they fail at different places and with different messages, and they do not have to agree
there.  They do agree on what is well formed: both complete on exactly those inputs that begin with
a chunked body in the sense of `Chunks`, whose lines have no line-end bytes.

Main definitions:

* `Decoding.chunkDecoder` — the response decoder as a decoder of the chunked coding.

Main results:

* `parse_chunked_iff`, `drain_chunked_iff` — what each of the two accepts;
* `chunked_decoders_agree` — **the two decoders agree**.
-/

import Elio.RequestBody
import Elio.ResponseDecoderRun

set_option autoImplicit false

namespace Elio.Http

open ResponseDecoder
open List

namespace Decoding

/-! ### The chunked coding -/

variable {d : ResponseDecoder}

theorem endLine_eq (hst : d.state ≠ .headers) (hemp : d.line = []) (line : Bytes) :
    d.endLine line = d.processLine line := by
  have hclear : { d with line := [] } = d := by rw [← hemp]
  simp only [endLine, hclear, hst, decide_false, Bool.false_and, Bool.and_false,
    Bool.false_eq_true, if_false]

theorem endLine_chunkSize (hst : d.state = .chunkSize)
    (hemp : d.line = []) (line : Bytes) : d.endLine line = d.chunkSizeLine line := by
  rw [endLine_eq (by rw [hst]; decide) hemp, processLine, hst]

theorem endLine_trailers (hst : d.state = .trailers)
    (hemp : d.line = []) (line : Bytes) : d.endLine line = d.trailerLine line := by
  rw [endLine_eq (by rw [hst]; decide) hemp, processLine, hst]

variable {body input : Bytes}

/-- The trailer line with which a run goes on that ends complete. -/
theorem trailer_of_complete (hst : d.state = .trailers) (hemp : d.line = [])
    (h : (machine.run ⟨d, input, body⟩).decoder.state = .complete) :
    ∃ line rest, input = line ++ crlf ++ rest ∧ (line ≠ [] → line.length ≤ d.maxHeaderSize ∧
      d.headerCount < d.maxHeaders ∧ validateChunkTrailerLine line = true) := by
  obtain ⟨line, rest, hin, -, hle, hrun⟩ :=
    first_line_of_complete (.inr (.inr (.inr hst))) hemp h
  rw [hrun, endLine_trailers hst hemp] at h
  refine ⟨line, rest, hin, fun hne => ⟨hle, ?_⟩⟩
  have hok := ne_error_of_complete h
  rw [trailerLine, if_neg (by simpa using hne)] at hok
  split_ifs at hok with hcnt hvalid
  · exact absurd rfl hok
  · exact absurd rfl hok
  · exact ⟨by omega, by simpa using hvalid⟩

theorem run_fieldLine (hst : d.state = .trailers) (hemp : d.line = []) {line : Bytes}
    (hne : line ≠ []) (hle : line.length ≤ d.maxHeaderSize) (hcnt : d.headerCount < d.maxHeaders)
    (hvalid : validateChunkTrailerLine line = true) (rest body : Bytes) :
    machine.run ⟨d, line ++ crlf ++ rest, body⟩ =
      machine.run ⟨{ d with headerCount := d.headerCount + 1 }, rest, body⟩ := by
  have hline : d.trailerLine line = { d with headerCount := d.headerCount + 1 } := by
    rw [trailerLine, if_neg (by simpa using hne), if_neg (by omega), hvalid]
    rfl
  rw [run_first_line (.inr (.inr (.inr hst))) hemp (plain_of_validateChunkTrailerLine hvalid)
    hle, endLine_trailers hst hemp, hline]

theorem run_lastLine (hst : d.state = .trailers) (hemp : d.line = []) (rest body : Bytes) :
    machine.run ⟨d, crlf ++ rest, body⟩ = ⟨{ d with state := .complete }, rest, body⟩ := by
  have hrun := run_first_line (.inr (.inr (.inr hst))) hemp Plain.nil (Nat.zero_le _) rest body
  rw [endLine_trailers hst hemp] at hrun
  exact hrun.trans (run_complete rfl)

theorem run_chunk (hst : d.state = .chunkBody) {data : Bytes}
    (hne : data ≠ []) (hdata : d.remaining = data.length) (rest body : Bytes) :
    machine.run ⟨d, data ++ crlf ++ rest, body⟩ =
      machine.run ⟨{ d with remaining := 0, state := .chunkSize }, rest, body ++ data⟩ := by
  obtain ⟨c, tail, hcons⟩ := exists_cons_of_ne_nil hne
  have hin : data ++ crlf ++ rest = c :: (tail ++ crlf ++ rest) := by rw [hcons]; rfl
  have hmin : min d.remaining (c :: (tail ++ crlf ++ rest)).length = data.length := by
    rw [← hin, length_append, length_append]
    omega
  rw [hin, run_body (.inr hst), hmin, ← hin, hdata, Nat.sub_self, hst,
    append_assoc, take_left, drop_left]
  change machine.run ⟨{ d with remaining := 0, state := .chunkCr }, cr :: lf :: rest, _⟩ = _
  rw [run_byte rfl]
  change machine.run ⟨{ d with remaining := 0, state := .chunkLf }, lf :: rest, _⟩ = _
  rw [run_byte rfl]
  rfl

/-- The chunk with which a run goes on that ends complete. -/
theorem chunk_of_complete (hst : d.state = .chunkBody)
    (h : (machine.run ⟨d, input, body⟩).decoder.state = .complete) :
    ∃ data rest, data.length = d.remaining ∧ input = data ++ crlf ++ rest := by
  cases input with
  | nil =>
    rw [run_nil, hst] at h
    cases h
  | cons c tail =>
    rw [run_body (.inr hst)] at h
    generalize hin : c :: tail = input at h ⊢
    by_cases hshort : input.length < d.remaining
    · -- the input ends within the chunk
      have hmin : min d.remaining input.length = input.length := by omega
      rw [hmin, drop_length, if_neg (by omega), hst] at h
      cases h
    · have hmin : min d.remaining input.length = d.remaining := by omega
      rw [hmin, Nat.sub_self, hst] at h
      change (machine.run ⟨{ d with remaining := 0, state := .chunkCr }, _, _⟩).decoder.state =
        .complete at h
      refine ⟨input.take d.remaining, input.drop (d.remaining + 2),
        length_take_of_le (by omega), ?_⟩
      have hsplit : input = input.take d.remaining ++ input.drop d.remaining :=
        (take_append_drop _ _).symm
      have hdrop : input.drop (d.remaining + 2) = (input.drop d.remaining).drop 2 := by
        rw [drop_drop]
      rw [hdrop]
      -- the two bytes behind the chunk
      cases hrest : input.drop d.remaining with
      | nil =>
        rw [hrest] at h
        cases h
      | cons c1 rest =>
        rw [hrest, run_byte rfl] at h
        by_cases hcr : c1 = cr
        · subst hcr
          change (machine.run ⟨{ d with remaining := 0, state := .chunkLf }, rest, _⟩).decoder.state
            = .complete at h
          cases rest with
          | nil =>
            cases h
          | cons c2 rest =>
            rw [run_byte rfl] at h
            by_cases hlf : c2 = lf
            · subst hlf
              rw [hrest] at hsplit
              nth_rewrite 1 [hsplit]
              simp [crlf]
            · have hbyte : ∀ b, byte { d with remaining := 0, state := .chunkLf } c2 rest b =
                  ⟨{ d with remaining := 0, state := .chunkLf }.fail
                    "Missing CRLF after chunk data", c2 :: rest, b⟩ :=
                fun b => if_pos hlf
              rw [hbyte] at h
              exact absurd rfl (ne_error_of_complete h)
        · have hbyte : ∀ b, byte { d with remaining := 0, state := .chunkCr } c1 rest b =
              ⟨{ d with remaining := 0, state := .chunkCr }.fail
                "Missing CRLF after chunk data", c1 :: rest, b⟩ :=
            fun b => if_pos hcr
          rw [hbyte] at h
          exact absurd rfl (ne_error_of_complete h)

/-- The chunk-size line with which a run goes on that ends complete. -/
theorem size_of_complete (hst : d.state = .chunkSize) (hemp : d.line = [])
    (h : (machine.run ⟨d, input, body⟩).decoder.state = .complete) :
    ∃ line rest size, input = line ++ crlf ++ rest ∧ line.length ≤ d.maxHeaderSize ∧
      parseChunkSizeLine line = (size, none) := by
  obtain ⟨line, rest, hin, -, hle, hrun⟩ :=
    first_line_of_complete (.inr (.inr (.inl hst))) hemp h
  rw [hrun, endLine_chunkSize hst hemp] at h
  have hok := ne_error_of_complete h
  rw [chunkSizeLine] at hok
  rcases hline : parseChunkSizeLine line with ⟨size, - | error⟩
  · exact ⟨line, rest, size, hin, hle, hline⟩
  · rw [hline] at hok
    exact absurd rfl hok

theorem run_sizeLine (hst : d.state = .chunkSize) (hemp : d.line = []) {line : Bytes} {size : ℕ}
    (hle : line.length ≤ d.maxHeaderSize) (hsize : parseChunkSizeLine line = (size, none))
    (rest body : Bytes) :
    machine.run ⟨d, line ++ crlf ++ rest, body⟩ = machine.run
      ⟨{ d with remaining := size, state := if size = 0 then .trailers else .chunkBody }, rest,
        body⟩ := by
  rw [run_first_line (.inr (.inr (.inl hst))) hemp (plain_of_parseChunkSizeLine hsize) hle,
    endLine_chunkSize hst hemp, chunkSizeLine, hsize]

/-- **The response decoder as a decoder of the chunked coding.** -/
def chunkDecoder (d : ResponseDecoder) : ChunkDecoder Decoding d.maxHeaderSize d.maxHeaders where
  atSize last count body input := machine.run
    ⟨{ d with line := [], remaining := last, headerCount := count, state := .chunkSize }, input,
      body⟩
  atData size count body input := machine.run
    ⟨{ d with line := [], remaining := size, headerCount := count, state := .chunkBody }, input,
      body⟩
  atTrailer count body input := machine.run
    ⟨{ d with line := [], remaining := 0, headerCount := count, state := .trailers }, input, body⟩
  ended count body rest :=
    ⟨{ d with line := [], remaining := 0, headerCount := count, state := .complete }, rest, body⟩
  complete s := s.decoder.state = .complete
  sizeLine hle hsize := by
    refine (run_sizeLine rfl rfl ?_ hsize ..).trans ?_
    · exact hle
    split_ifs with hzero
    · rw [hzero]
    · rfl
  chunk _ body rest _ hne := ⟨0, run_chunk rfl hne rfl rest body⟩
  fieldLine hne hle hcount hvalid := by
    refine run_fieldLine rfl rfl hne ?_ ?_ hvalid ..
    · exact hle
    · exact hcount
  emptyLine := run_lastLine rfl rfl ..
  of_size := size_of_complete rfl rfl
  of_data := chunk_of_complete rfl
  of_trailer := trailer_of_complete rfl rfl

theorem run_eq_atSize (hst : d.state = .chunkSize) (hemp : d.line = []) (input body : Bytes) :
    machine.run ⟨d, input, body⟩ = (chunkDecoder d).atSize d.remaining d.headerCount body input := by
  change _ = machine.run ⟨{ d with line := [], state := .chunkSize }, input, body⟩
  rw [← hst, ← hemp]

theorem run_of_chunks (hst : d.state = .chunkSize) (hemp : d.line = []) {wire content : Bytes}
    {sizes : List ℕ}
    (hwire : Chunks d.maxHeaderSize d.maxHeaders d.headerCount wire content sizes) (rest body : Bytes) :
    ∃ count, machine.run ⟨d, wire ++ rest, body⟩ =
      (chunkDecoder d).ended count (body ++ content) rest := by
  rw [run_eq_atSize hst hemp]
  exact (chunkDecoder d).run_of_chunks hwire _ body rest

end Decoding

/-! ### The two decoders -/

/-- What a request parser that has begun a chunked body makes of an input. -/
theorem parse_chunked_iff {inetPton6 : Bytes → Bool} {p : RequestParser}
    (hst : p.progress.state = .chunkSize) (hbody : p.progress.body = []) (hbuf : p.buffer = [])
    (s body t : Bytes) :
    ((p.parse inetPton6 s).1.progress.state = .complete ∧
        (p.parse inetPton6 s).1.progress.body = body ∧ (p.parse inetPton6 s).1.buffer = t) ↔
      ∃ wire sizes, s = wire ++ t ∧ Chunks p.progress.maxHeaderSize p.progress.maxHeaders
        p.progress.headerCount wire body sizes := by
  have hrun : (p.parse inetPton6 s).1 = (RequestParser.chunkDecoder inetPton6 p.progress).atSize
      p.progress.chunkSize p.progress.headerCount [] s := by
    have hrun := @RequestParser.run_eq_atSize inetPton6 (p.append s) hst
    rw [RequestParser.append_buffer, RequestParser.append_progress, hbody, hbuf] at hrun
    rw [RequestParser.parse_eq]
    exact hrun
  rw [hrun]
  constructor
  · rintro ⟨hcomp, rfl, rfl⟩
    obtain ⟨wire, content, sizes, count, rest, hsplit, hwire, hended⟩ :=
      (RequestParser.chunkDecoder inetPton6 p.progress).ended_of_complete hcomp
    rw [hended]
    exact ⟨wire, sizes, hsplit, hwire⟩
  · rintro ⟨wire, sizes, rfl, hwire⟩
    obtain ⟨count, hended⟩ :=
      (RequestParser.chunkDecoder inetPton6 p.progress).run_of_chunks hwire _ [] t
    rw [hended]
    exact ⟨rfl, rfl, rfl⟩

/-- What a response decoder that has begun a chunked body makes of an input. -/
theorem drain_chunked_iff {d : ResponseDecoder} (hst : d.state = .chunkSize) (hline : d.line = [])
    (s body t : Bytes) :
    ((d.drain s).1.state = .complete ∧ (d.drain s).2.2.1 = body ∧ (d.drain s).2.2.2 = t) ↔
      ∃ wire sizes, s = wire ++ t ∧
        Chunks d.maxHeaderSize d.maxHeaders d.headerCount wire body sizes := by
  rw [Decoding.drain_eq]
  constructor
  · rw [Decoding.run_eq_atSize hst hline]
    rintro ⟨hcomp, rfl, rfl⟩
    obtain ⟨wire, content, sizes, count, rest, hsplit, hwire, hended⟩ :=
      (Decoding.chunkDecoder d).ended_of_complete hcomp
    rw [hended]
    exact ⟨wire, sizes, hsplit, hwire⟩
  · rintro ⟨wire, sizes, rfl, hwire⟩
    obtain ⟨count, hended⟩ := Decoding.run_of_chunks hst hline hwire t []
    rw [hended]
    exact ⟨rfl, rfl, rfl⟩

/-- A request parser that refuses some bytes refuses them with more behind. -/
theorem parse_error_of_isPrefix {inetPton6 : Bytes → Bool} (p : RequestParser) {u s : Bytes}
    (hu : u <+: s) (h : (p.parse inetPton6 u).1.progress.state = .error) :
    (p.parse inetPton6 s).1.progress.state = .error := by
  obtain ⟨e, rfl⟩ := hu
  rw [RequestParser.parse_eq] at h ⊢
  have hfeed := FeedMachine.feed_feed (RequestParser.machine_joins inetPton6) p u e
  rw [← hfeed]
  have hrun : (RequestParser.machine inetPton6).feed ((RequestParser.machine inetPton6).feed p u) e =
      ((RequestParser.machine inetPton6).feed p u).append e :=
    RequestParser.run_of_error h
  rw [hrun]
  exact h

/-- A response decoder that refuses some bytes refuses them with more behind. -/
theorem drain_error_of_isPrefix (d : ResponseDecoder) {u s : Bytes} (hu : u <+: s)
    (h : (d.drain u).1.state = .error) : (d.drain s).1.state = .error := by
  obtain ⟨e, rfl⟩ := hu
  rw [Decoding.drain_eq] at h ⊢
  have hfeed : Decoding.machine.run (Decoding.append (Decoding.machine.run ⟨d, u, []⟩) e) =
      Decoding.machine.run ⟨d, u ++ e, []⟩ :=
    FeedMachine.run_append_run Decoding.machine_joins ⟨d, u, []⟩ e
  rw [← hfeed, Decoding.run_error (show (Decoding.append _ e).decoder.state = .error from h)]
  exact h

/-- **The two decoders of the chunked coding agree.**  A request parser and a response decoder that
are about to read a chunk size, with the same limits and the same number of fields counted, complete
on the same inputs, with the same body and with the same bytes left; and when one of them refuses a
beginning of the input, the other does not complete on the input. -/
theorem chunked_decoders_agree (inetPton6 : Bytes → Bool) (p : RequestParser) (d : ResponseDecoder)
    (hp : p.progress.state = .chunkSize) (hpbody : p.progress.body = []) (hpbuffer : p.buffer = [])
    (hd : d.state = .chunkSize) (hdline : d.line = [])
    (hsize : d.maxHeaderSize = p.progress.maxHeaderSize)
    (hmax : d.maxHeaders = p.progress.maxHeaders) (hcount : d.headerCount = p.progress.headerCount)
    (s : Bytes) :
    (∀ body t,
      ((p.parse inetPton6 s).1.progress.state = .complete ∧
          (p.parse inetPton6 s).1.progress.body = body ∧ (p.parse inetPton6 s).1.buffer = t) ↔
        ((d.drain s).1.state = .complete ∧ (d.drain s).2.2.1 = body ∧ (d.drain s).2.2.2 = t)) ∧
      (∀ u, u <+: s → (p.parse inetPton6 u).1.progress.state = .error →
        (d.drain s).1.state ≠ .complete) ∧
      (∀ u, u <+: s → (d.drain u).1.state = .error →
        (p.parse inetPton6 s).1.progress.state ≠ .complete) := by
  have hagree : ∀ body t,
      ((p.parse inetPton6 s).1.progress.state = .complete ∧
          (p.parse inetPton6 s).1.progress.body = body ∧ (p.parse inetPton6 s).1.buffer = t) ↔
        ((d.drain s).1.state = .complete ∧ (d.drain s).2.2.1 = body ∧ (d.drain s).2.2.2 = t) := by
    intro body t
    rw [parse_chunked_iff hp hpbody hpbuffer, drain_chunked_iff hd hdline, hsize, hmax,
      hcount]
  refine ⟨hagree, ?_, ?_⟩
  · intro u hu herror hcomplete
    have hparse := ((hagree _ _).2 ⟨hcomplete, rfl, rfl⟩).1
    rw [parse_error_of_isPrefix p hu herror] at hparse
    cases hparse
  · intro u hu herror hcomplete
    have hdrain := ((hagree _ _).1 ⟨hcomplete, rfl, rfl⟩).1
    rw [drain_error_of_isPrefix d hu herror] at hdrain
    cases hdrain

/-- A body of two chunks with a trailer field, and two bytes behind it. -/
theorem chunked_decoders_agree_two_chunks :
    let p : RequestParser :=
      ⟨{ Progress.fresh 8 64 with state := .chunkSize, headerCount := 2 }, []⟩
    let d : ResponseDecoder := { ResponseDecoder.fresh 8 64 none with
      state := .chunkSize, headerCount := 2 }
    let s := text "2;x=\"1\"\r\nhe\r\n3\r\nllo\r\n0\r\nA: b\r\n\r\nGE"
    (p.parse (fun _ => true) s).1.progress.state = .complete ∧
      (p.parse (fun _ => true) s).1.progress.body = text "hello" ∧
      (d.drain s).1.state = .complete ∧ (d.drain s).2.2.1 = text "hello" ∧
      (d.drain s).2.2.2 = text "GE" := by
  obtain ⟨hagree, -, -⟩ := chunked_decoders_agree (fun _ => true)
    ⟨{ Progress.fresh 8 64 with state := .chunkSize, headerCount := 2 }, []⟩
    { ResponseDecoder.fresh 8 64 none with state := .chunkSize, headerCount := 2 }
    rfl rfl rfl rfl rfl rfl rfl rfl
    (text "2;x=\"1\"\r\nhe\r\n3\r\nllo\r\n0\r\nA: b\r\n\r\nGE")
  have hparse := (hagree (text "hello") (text "GE")).2 (by decide +kernel)
  exact ⟨hparse.1, hparse.2.1, (hagree _ _).1 hparse⟩

end Elio.Http
