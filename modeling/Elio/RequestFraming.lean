/-
**The framing of a request.**

Two parties that read one byte stream differently can be played against each other.  This module
proves that a request which `request_parser` has completed leaves no room for that: the bytes it has
consumed are a request line, field lines, an empty line and a body, and where the body ends is
settled by the field lines in one way only.

What is proved is about the field lines as they stand in the input, not only about the header
collection, since `headers::add` drops a repeated `Content-Length` without a trace.

Main definitions:

* `fieldName`, `fieldValue`, `valuesOf` — the fields on the lines;
* `Collected` — what the header collection knows of the lines;
* `IsLine`, `Framing` — **the framing of a request**.

Main results:

* `Collected.addField` — the collection keeps up with the lines;
* `RequestParser.framing_of_run` — what a complete run has consumed;
* `RequestParser.complete_request_framing` — **every completed request has one framing**, and the
  bytes behind it are what is left in the buffer.
-/

import Elio.RequestBody

set_option autoImplicit false

namespace Elio.Http

open List

/-! ### Field lines -/

/-- The text before the first colon. -/
def fieldName (line : Bytes) : Bytes := line.take (line.idxOf colon)

/-- The text behind the first colon, trimmed. -/
def fieldValue (line : Bytes) : Bytes := trimOws (line.drop (line.idxOf colon + 1))

/-- The values of the field lines with a name. -/
def valuesOf (name : Bytes) (lines : List Bytes) : List Bytes :=
  (lines.filter fun line => asciiIequals (fieldName line) name).map fieldValue

/-- Lines with their line ends. -/
def onWire (lines : List Bytes) : Bytes := (lines.map (· ++ crlf)).flatten

/-- The first line end of the line is the one that ends it. -/
def IsLine (line : Bytes) : Prop := findCrlf (line ++ crlf) = some line.length

@[simp] theorem onWire_cons (line : Bytes) (lines : List Bytes) :
    onWire (line :: lines) = line ++ crlf ++ onWire lines := rfl

theorem valuesOf_append_singleton (name : Bytes) (lines : List Bytes) (line : Bytes) :
    valuesOf name (lines ++ [line]) =
      valuesOf name lines ++ if asciiIequals (fieldName line) name then [fieldValue line] else [] := by
  rw [valuesOf, filter_append, map_append, ← valuesOf]
  cases hname : asciiIequals (fieldName line) name <;> simp [hname]

theorem trimOws_fieldValue (line : Bytes) : trimOws (fieldValue line) = fieldValue line :=
  trimOws_trimOws _

variable {line : Bytes}

theorem isLine_of_findCrlf {s rest : Bytes} (hfind : findCrlf s = some line.length)
    (hs : s = line ++ crlf ++ rest) : IsLine line := by
  rw [hs] at hfind
  cases hline : findCrlf (line ++ crlf) with
  | none =>
    have := length_le_of_findCrlf_append hline hfind
    simp only [length_append, crlf, length_cons, length_nil] at this
    omega
  | some n =>
    have := findCrlf_append_of_some hline rest
    rw [hfind] at this
    rw [IsLine, hline, ← this]

/-! ### What the collection knows -/

/-- The collection that has been given the field lines. -/
structure Collected (h : Headers) (lines : List Bytes) : Prop where
  synced : h.Synced
  contains : ∀ name, h.contains name = true ↔ valuesOf name lines ≠ []
  /-- Of the lengths, only the first is kept. -/
  values : ∀ name, asciiIequals name (text "Content-Length") = false →
    h.getAll name = valuesOf name lines
  length : ∀ value ∈ valuesOf (text "Content-Length") lines,
    trimOws (h.get (text "Content-Length")) = value

theorem Collected.empty : Collected .empty [] where
  synced := Headers.synced_empty
  contains name := by simp [valuesOf, Headers.contains, Headers.empty, lookupField]
  values name _ := rfl
  length value h := by cases h

variable {lines : List Bytes}

theorem Collected.addField {h : Headers} (hlines : Collected h lines)
    (hlen : asciiIequals (fieldName line) (text "Content-Length") = true →
    h.contains (text "Content-Length") = true →
    trimOws (h.get (text "Content-Length")) = fieldValue line) :
    Collected (h.addField (fieldName line) (fieldValue line)) (lines ++ [line]) where
  synced := hlines.synced.addField _ _
  contains name := by
    rw [Headers.contains_addField, valuesOf_append_singleton, Bool.or_eq_true, hlines.contains]
    cases hname : asciiIequals (fieldName line) name <;> simp
  values name hname := by
    rw [valuesOf_append_singleton]
    cases hline : asciiIequals (fieldName line) name with
    | false => rw [Headers.getAll_addField_of_ne hline, hlines.values name hname]; simp
    | true =>
      rw [Headers.getAll_addField_of_eq hlines.synced hline hname, hlines.values name hname]
      rfl
  length value hval := by
    rw [valuesOf_append_singleton, mem_append] at hval
    cases hline : asciiIequals (fieldName line) (text "Content-Length") with
    | false =>
      rw [Headers.get_addField_of_ne hline]
      simp only [hline, Bool.false_eq_true, if_false, not_mem_nil, or_false] at hval
      exact hlines.length value hval
    | true =>
      simp only [hline, if_true, mem_singleton] at hval
      cases hpres : h.contains (text "Content-Length") with
      | true =>
        rw [Headers.addField_contentLength_of_present hline hpres]
        rcases hval with hval | rfl
        · exact hlines.length value hval
        · exact hlen hline hpres
      | false =>
        -- the first length of the message
        have hnone : ¬ valuesOf (text "Content-Length") lines ≠ [] := by
          rw [← hlines.contains, hpres]
          decide
        rw [not_not] at hnone
        rw [Headers.get_addField_of_absent hline hpres, trimOws_fieldValue]
        rcases hval with hval | rfl
        · rw [hnone] at hval
          cases hval
        · rfl

/-! ### The framing -/

/-- **The framing of a complete request** with the given field lines and the given bytes behind the
empty line. -/
structure Framing (p : Progress) (lines : List Bytes) (wire : Bytes) : Prop where
  /-- At most one of the two fields that settle the length is there. -/
  not_both : valuesOf (text "Transfer-Encoding") lines = [] ∨
    valuesOf (text "Content-Length") lines = []
  /-- All lengths are one string of digits, whose value fits `size_t`. -/
  lengths : ∃ digits : Bytes, (∀ value ∈ valuesOf (text "Content-Length") lines, value = digits) ∧
    digits.all isDigit = true ∧ digits ≠ [] ∧ decimalValue digits ≤ sizeMax
  host : p.version = text "HTTP/1.1" → (valuesOf (text "Host") lines).length = 1
  connect : p.method = .connect → valuesOf (text "Transfer-Encoding") lines = [] ∧
    (∀ value ∈ valuesOf (text "Content-Length") lines, decimalValue value = 0) ∧
    p.body = [] ∧ wire = []
  /-- A declared length is the length of the body. -/
  sized : p.method ≠ .connect → ∀ value ∈ valuesOf (text "Content-Length") lines,
    p.body.length = decimalValue value ∧ wire = p.body
  /-- A transfer coding ends in `chunked`, and the body is as long as the chunks together. -/
  chunked : p.method ≠ .connect → valuesOf (text "Transfer-Encoding") lines ≠ [] →
    p.headers.isChunked = true ∧
      ∃ sizes, Chunks p.maxHeaderSize p.maxHeaders lines.length wire p.body sizes ∧
        p.body.length = sizes.sum
  bare : p.method ≠ .connect → valuesOf (text "Transfer-Encoding") lines = [] →
    valuesOf (text "Content-Length") lines = [] → p.body = [] ∧ wire = []

/-! ### What is done with the lines -/

variable {p : Progress}

theorem headerLine_of_ne_error (h : (p.headerLine line).state ≠ .error) :
    (asciiIequals (fieldName line) (text "Content-Length") = true →
        p.headers.contains (text "Content-Length") = true →
        trimOws (p.headers.get (text "Content-Length")) = fieldValue line) ∧
      p.headerLine line =
        { p with
          headerCount := p.headerCount + 1
          headers := p.headers.addField (fieldName line) (fieldValue line) } := by
  rw [Progress.headerLine] at h ⊢
  cases hcolon : line.idxOf? colon with
  | none =>
    rw [hcolon] at h
    exact absurd rfl h
  | some n =>
    have hn : line.idxOf colon = n := by rw [idxOf_eq_getD_idxOf?, hcolon, Option.getD_some]
    have hname : line.take n = fieldName line := by rw [fieldName, hn]
    have hval : trimOws (line.drop (n + 1)) = fieldValue line := by rw [fieldValue, hn]
    simp only [hcolon, hname, hval] at h ⊢
    split_ifs at h ⊢ with hvalidName hvalidValue hconf hcnt
    any_goals exact absurd rfl h
    have hsame : asciiIequals (fieldName line) (text "Content-Length") = true →
        p.headers.contains (text "Content-Length") = true →
        trimOws (p.headers.get (text "Content-Length")) = fieldValue line := by
      intro hline hpres
      simpa [hline, hpres] using hconf
    refine ⟨hsame, ?_⟩
    rw [Headers.add_eq (by simpa using hvalidName) (by simpa using hvalidValue)]
    intro hline existing hexisting
    rw [lookupField_congr hline] at hexisting
    have hpres : p.headers.contains (text "Content-Length") = true := by
      rw [Headers.contains, hexisting]
      rfl
    have hget : p.headers.get (text "Content-Length") = existing := by
      rw [Headers.get, hexisting]
      rfl
    rw [trimOws_fieldValue, ← hget]
    exact hsame hline hpres

/-- **How the end of the headers chooses the framing.** -/
theorem endOfHeaders_of_ne_error (h : p.endOfHeaders.state ≠ .error) :
    (p.headers.contains (text "Transfer-Encoding") = false ∨
        p.headers.contains (text "Content-Length") = false) ∧
      (p.version = text "HTTP/1.1" → (p.headers.getAll (text "Host")).length = 1) ∧
      ((p.method = .connect ∧ p.headers.contains (text "Transfer-Encoding") = false ∧
          (p.headers.contains (text "Content-Length") = true →
            p.headers.contentLength = some 0) ∧
          p.endOfHeaders = { p with state := .complete }) ∨
        (p.method ≠ .connect ∧ p.headers.contains (text "Transfer-Encoding") = true ∧
          p.headers.isChunked = true ∧
          p.endOfHeaders = { p with chunked := true, state := .chunkSize }) ∨
        (p.method ≠ .connect ∧ p.headers.contains (text "Transfer-Encoding") = false ∧
          p.headers.contains (text "Content-Length") = true ∧
          ∃ length, p.headers.contentLength = some length ∧
            p.endOfHeaders =
              { p with
                contentLength := length
                state := if length > 0 then .body else .complete }) ∨
        (p.method ≠ .connect ∧ p.headers.contains (text "Transfer-Encoding") = false ∧
          p.headers.contains (text "Content-Length") = false ∧
          p.endOfHeaders = { p with state := .complete })) := by
  rw [Progress.endOfHeaders] at h ⊢
  generalize p.headers.contains (text "Transfer-Encoding") = hasTe at h ⊢
  generalize p.headers.contains (text "Content-Length") = hasCl at h ⊢
  by_cases hboth : (hasTe && hasCl) = true
  · rw [if_pos hboth] at h
    exact absurd rfl h
  rw [if_neg hboth] at h ⊢
  refine ⟨by cases hasTe <;> simp_all, ?_⟩
  by_cases hhost : (p.version = text "HTTP/1.1" &&
      (p.headers.getAll (text "Host")).length ≠ 1 : Bool) = true
  · rw [if_pos hhost] at h
    exact absurd rfl h
  rw [if_neg hhost] at h ⊢
  refine ⟨fun hver => by simpa [hver] using hhost, ?_⟩
  by_cases hconn : p.method = .connect
  · rw [if_pos hconn] at h ⊢
    refine .inl ⟨hconn, ?_⟩
    cases hasTe with
    | true => exact absurd rfl h
    | false =>
      simp only [Bool.false_eq_true, if_false] at h ⊢
      by_cases hlen : (hasCl && p.headers.contentLength ≠ some 0 : Bool) = true
      · rw [if_pos hlen] at h
        exact absurd rfl h
      · rw [if_neg hlen]
        exact ⟨trivial, fun hpres => by simpa [hpres] using hlen, rfl⟩
  · rw [if_neg hconn] at h ⊢
    refine .inr ?_
    cases hasTe with
    | true =>
      simp only [if_true] at h ⊢
      cases hchunked : p.headers.isChunked with
      | false =>
        simp only [hchunked, Bool.not_false, if_true] at h
        exact absurd rfl h
      | true => exact .inl ⟨hconn, trivial, rfl, rfl⟩
    | false =>
      simp only [Bool.false_eq_true, if_false] at h ⊢
      cases hasCl with
      | true =>
        simp only [if_true] at h ⊢
        cases hlen : p.headers.contentLength with
        | none =>
          simp only [hlen] at h
          exact absurd rfl h
        | some length => exact .inr (.inl ⟨hconn, trivial, trivial, length, rfl, rfl⟩)
      | false => exact .inr (.inr ⟨hconn, trivial, rfl, rfl⟩)

/-- What the request line leaves, when it is accepted. -/
theorem requestLine_of_ne_error {inetPton6 : Bytes → Bool}
    (h : (p.requestLine inetPton6 line).state ≠ .error) :
    (p.requestLine inetPton6 line).state = .headers ∧
      (p.requestLine inetPton6 line).headers = p.headers ∧
      (p.requestLine inetPton6 line).body = p.body ∧
      (p.requestLine inetPton6 line).bodyReceived = p.bodyReceived ∧
      (p.requestLine inetPton6 line).headerCount = p.headerCount ∧
      (p.requestLine inetPton6 line).maxHeaders = p.maxHeaders ∧
      (p.requestLine inetPton6 line).maxHeaderSize = p.maxHeaderSize := by
  rw [Progress.requestLine] at h ⊢
  rcases hspace1 : line.idxOf? space with - | space1
  · simp only [hspace1] at h
    exact absurd rfl h
  simp only [hspace1] at h ⊢
  rcases hmeth : stringToMethod (line.take space1) with - | method
  · simp only [hmeth] at h
    exact absurd rfl h
  simp only [hmeth] at h ⊢
  rcases hspace2 : (line.drop (space1 + 1)).idxOf? space with - | space2
  · simp only [hspace2] at h
    exact absurd rfl h
  simp only [hspace2, Progress.requestTarget] at h ⊢
  split_ifs at h ⊢
  any_goals exact absurd rfl h
  cases idxOf? 0x3f ((line.drop (space1 + 1)).take space2) <;>
    exact ⟨rfl, rfl, rfl, rfl, rfl, rfl, rfl⟩

namespace RequestParser

variable {inetPton6 : Bytes → Bool}

/-! ### What a complete run has consumed -/

/-- **The field lines that a complete message has consumed.** -/
theorem headers_of_complete {p : RequestParser} (hst : p.progress.state = .headers)
    {before : List Bytes} (hpre : Collected p.progress.headers before)
    (h : ((machine inetPton6).run p).progress.state = .complete) :
    ∃ (lines : List Bytes) (rest : Bytes) (headers : Headers),
      p.buffer = onWire lines ++ crlf ++ rest ∧ (∀ line ∈ lines, IsLine line ∧ line ≠ []) ∧
      Collected headers (before ++ lines) ∧
      (machine inetPton6).run p = (machine inetPton6).run
        ⟨{ p.progress with
            headers := headers
            headerCount := p.progress.headerCount + lines.length }.endOfHeaders, rest⟩ := by
  -- every field line makes the buffer shorter
  induction hn : p.buffer.length using Nat.strong_induction_on generalizing p before with
  | _ n ih =>
    obtain ⟨line, rest, hfind, hbuf, -, hrun⟩ := line_of_complete (.inl hst) h
      (turn_headers hst)
    rw [hrun] at h ⊢
    by_cases hne : line = []
    · subst hne
      have hend : headersAt 0 p = ⟨p.progress.endOfHeaders, rest⟩ := by
        rw [headersAt, hbuf]
        rfl
      refine ⟨[], rest, p.progress.headers, hbuf, forall_mem_nil _, ?_, ?_⟩
      · rwa [append_nil]
      · rw [length_nil, hend]
        rfl
    · have hzero : ¬ line.length = 0 := by simpa using hne
      have hat : headersAt line.length p =
          p.handled line.length (p.progress.headerLine line) := by
        rw [headersAt, if_neg hzero, take_line hbuf]
      have hok : (p.progress.headerLine line).state ≠ .error := by
        have := ne_error_of_complete h
        rwa [hat, handled_state] at this
      obtain ⟨hlen, hprog⟩ := headerLine_of_ne_error hok
      rw [hat, handled_line hbuf hok, hprog] at h ⊢
      have hshort : rest.length < n := by
        rw [← hn, hbuf]
        simp only [length_append, crlf, length_cons]
        omega
      obtain ⟨lines, rest', headers, hsplit, hlines, hheaders, hrest⟩ := ih rest.length hshort
        (p := ⟨{ p.progress with
          headerCount := p.progress.headerCount + 1
          headers := p.progress.headers.addField (fieldName line) (fieldValue line) }, rest⟩)
        hst (hpre.addField hlen) h rfl
      refine ⟨line :: lines, rest', headers, ?_, ?_, ?_, ?_⟩
      · rw [hbuf, onWire_cons, append_assoc _ _ crlf, append_assoc _ _ rest']
        exact congrArg _ hsplit
      · intro l hl
        rcases mem_cons.1 hl with rfl | hl
        · exact ⟨isLine_of_findCrlf hfind hbuf, hne⟩
        · exact hlines l hl
      · rwa [append_assoc] at hheaders
      · rw [hrest, length_cons, Nat.add_assoc, Nat.add_comm 1]

/-- The lengths on the lines are the digits of the length the collection declares. -/
theorem value_of_contentLength {headers : Headers} (hlines : Collected headers lines) {n : ℕ}
    (hn : headers.contentLength = some n) :
    ∀ value ∈ valuesOf (text "Content-Length") lines,
      value = trimOws (headers.get (text "Content-Length")) ∧ decimalValue value = n := by
  intro value hval
  have hsame := hlines.length value hval
  exact ⟨hsame.symm, hsame ▸ (Headers.digits_of_contentLength hn).2.2.1⟩

/-- The digits of the lengths on the lines, when the collection declares a length or has none. -/
theorem digits_of_lines {headers : Headers} (hlines : Collected headers lines)
    (h : valuesOf (text "Content-Length") lines = [] ∨ ∃ n, headers.contentLength = some n) :
    ∃ digits : Bytes, (∀ value ∈ valuesOf (text "Content-Length") lines, value = digits) ∧
      digits.all isDigit = true ∧ digits ≠ [] ∧ decimalValue digits ≤ sizeMax := by
  rcases h with h | ⟨n, hn⟩
  · refine ⟨[0x30], ?_, by decide, by decide, by decide⟩
    rw [h]
    intro value hval
    cases hval
  · obtain ⟨hne, hall, hval, hle⟩ := Headers.digits_of_contentLength hn
    exact ⟨_, fun value hv => (value_of_contentLength hlines hn value hv).1, hall, hne, hval ▸ hle⟩

/-- The body with a declared length that a complete message has consumed. -/
theorem body_of_length {q : Progress} {length : ℕ} {rest : Bytes} (hbody : q.body = [])
    (hreceived : q.bodyReceived = 0) :
    let p : RequestParser := ⟨{ q with
      contentLength := length
      state := if length > 0 then .body else .complete }, rest⟩
    ((machine inetPton6).run p).progress.state = .complete →
    ∃ data, rest = data ++ ((machine inetPton6).run p).buffer ∧ data.length = length ∧
      ((machine inetPton6).run p).progress = { q with
        contentLength := length
        body := data
        bodyReceived := data.length
        state := .complete } := by
  intro p h
  by_cases hzero : length > 0
  · simp only [p, if_pos hzero] at h ⊢
    obtain ⟨data, hsplit, hdata, hprog⟩ := body_of_complete rfl h
    rw [hreceived] at hdata
    refine ⟨data, hsplit, hdata, ?_⟩
    rw [hprog, hbody, hreceived, nil_append, Nat.zero_add]
  · simp only [p, if_neg hzero, run_of_complete]
    refine ⟨[], rfl, ?_, ?_⟩
    · rw [length_nil]
      omega
    · rw [hbody, length_nil, ← hreceived]

/-- **The body that a complete message has consumed**, and the framing of the message. -/
theorem framing_of_endOfHeaders {rest : Bytes} (hlines : Collected p.headers lines)
    (hcnt : p.headerCount = lines.length) (hbody : p.body = []) (hreceived : p.bodyReceived = 0)
    (h : ((machine inetPton6).run ⟨p.endOfHeaders, rest⟩).progress.state = .complete) :
    ∃ wire, rest = wire ++ ((machine inetPton6).run ⟨p.endOfHeaders, rest⟩).buffer ∧
      Framing ((machine inetPton6).run ⟨p.endOfHeaders, rest⟩).progress lines wire := by
  obtain ⟨hboth, hhost, hcases⟩ :=
    endOfHeaders_of_ne_error (ne_error_of_complete h)
  -- the collection and the lines agree on which fields are there
  have habs : ∀ name, p.headers.contains name = false ↔ valuesOf name lines = [] := by
    intro name
    rw [← Bool.not_eq_true, hlines.contains, not_not]
  have hboth' : valuesOf (text "Transfer-Encoding") lines = [] ∨
      valuesOf (text "Content-Length") lines = [] := by
    rwa [habs, habs] at hboth
  have hhost' : p.version = text "HTTP/1.1" → (valuesOf (text "Host") lines).length = 1 := by
    intro hver
    rw [← hlines.values _ (by decide)]
    exact hhost hver
  rcases hcases with ⟨hconn, hte, hlen, hend⟩ | ⟨hconn, hte, hchunked, hend⟩ |
    ⟨hconn, hte, hcl, length, hlen, hend⟩ | ⟨hconn, hte, hcl, hend⟩
  · -- `CONNECT`: nothing follows the headers
    rw [hend, run_of_complete rfl]
    rw [habs] at hte
    have hzero : valuesOf (text "Content-Length") lines = [] ∨
        p.headers.contentLength = some 0 := by
      rw [← habs]
      cases hpres : p.headers.contains (text "Content-Length") with
      | false => exact .inl rfl
      | true => exact .inr (hlen hpres)
    refine ⟨[], rfl, ?_⟩
    exact
      { not_both := hboth'
        lengths := digits_of_lines hlines (hzero.imp_right fun h => ⟨0, h⟩)
        host := hhost'
        connect := fun _ => by
          refine ⟨hte, ?_, hbody, rfl⟩
          intro value hval
          rcases hzero with hzero | hzero
          · rw [hzero] at hval
            cases hval
          · exact (value_of_contentLength hlines hzero value hval).2
        sized := fun hne => absurd hconn hne
        chunked := fun hne => absurd hconn hne
        bare := fun hne => absurd hconn hne }
  · -- the chunked coding
    rw [hend] at h ⊢
    have hte' : valuesOf (text "Transfer-Encoding") lines ≠ [] := (hlines.contains _).1 hte
    have hcl : valuesOf (text "Content-Length") lines = [] := hboth'.resolve_left hte'
    obtain ⟨wire, body, sizes, count, hsplit, hwire, hprog⟩ := chunks_of_complete rfl h
    refine ⟨wire, hsplit, ?_⟩
    rw [hprog]
    exact
      { not_both := hboth'
        lengths := digits_of_lines hlines (.inl hcl)
        host := hhost'
        connect := fun hcon => absurd hcon hconn
        sized := fun _ value hval => by
          rw [hcl] at hval
          cases hval
        chunked := fun _ _ => by
          rw [hbody]
          rw [hcnt] at hwire
          exact ⟨hchunked, sizes, hwire, hwire.sum_sizes⟩
        bare := fun _ hnone => absurd hnone hte' }
  · -- a declared length
    rw [habs] at hte
    have hpres : valuesOf (text "Content-Length") lines ≠ [] := (hlines.contains _).1 hcl
    have hvals := value_of_contentLength hlines hlen
    rw [hend] at h ⊢
    obtain ⟨data, hsplit, hdata, hprog⟩ := body_of_length hbody hreceived h
    refine ⟨data, hsplit, ?_⟩
    rw [hprog]
    exact
      { not_both := hboth'
        lengths := digits_of_lines hlines (.inr ⟨length, hlen⟩)
        host := hhost'
        connect := fun hcon => absurd hcon hconn
        sized := fun _ value hval => ⟨hdata.trans (hvals value hval).2.symm, rfl⟩
        chunked := fun _ hne => absurd hte hne
        bare := fun _ _ hnone => absurd hnone hpres }
  · -- neither of the two
    rw [hend, run_of_complete rfl]
    rw [habs] at hte hcl
    refine ⟨[], rfl, ?_⟩
    exact
      { not_both := hboth'
        lengths := digits_of_lines hlines (.inl hcl)
        host := hhost'
        connect := fun hcon => absurd hcon hconn
        sized := fun _ value hval => by
          rw [hcl] at hval
          cases hval
        chunked := fun _ hne => absurd hte hne
        bare := fun _ _ _ => ⟨hbody, rfl⟩ }

/-- **What a run from a fresh parser has consumed when it ends complete**: a request line, field
lines and a body. -/
theorem framing_of_run {maxHeaders maxHeaderSize : ℕ} {input : Bytes}
    (h : ((machine inetPton6).feed (fresh maxHeaders maxHeaderSize) input).progress.state =
      .complete) :
    ∃ (line : Bytes) (lines : List Bytes) (wire : Bytes),
      input = line ++ crlf ++ onWire lines ++ crlf ++ wire ++
        ((machine inetPton6).feed (fresh maxHeaders maxHeaderSize) input).buffer ∧
      IsLine line ∧ (∀ line ∈ lines, IsLine line ∧ line ≠ []) ∧
      Framing ((machine inetPton6).feed (fresh maxHeaders maxHeaderSize) input).progress lines
        wire := by
  have hfeed : (machine inetPton6).feed (fresh maxHeaders maxHeaderSize) input =
      (machine inetPton6).run ⟨.fresh maxHeaders maxHeaderSize, input⟩ := rfl
  rw [hfeed] at h ⊢
  obtain ⟨-, hwaits, hrun⟩ := turn_of_complete h nofun
  cases hfind : findCrlf input with
  | none => simp [waits, Progress.fresh, hfind] at hwaits
  | some n =>
    have hin := findCrlf_eq_some hfind
    have hlen : (input.take n).length = n := by
      rw [length_take]
      have := findCrlf_lt_length hfind
      omega
    generalize hline : input.take n = line at hin hlen
    generalize hrest : input.drop (n + 2) = rest at hin
    have hturn : turn inetPton6 ⟨.fresh maxHeaders maxHeaderSize, input⟩ =
        handled ⟨.fresh maxHeaders maxHeaderSize, input⟩ line.length
          ((Progress.fresh maxHeaders maxHeaderSize).requestLine inetPton6 line) := by
      rw [turn]
      simp only [Progress.fresh, parseRequestLine, hfind, hline, hlen]
    have hok : ((Progress.fresh maxHeaders maxHeaderSize).requestLine inetPton6 line).state ≠
        .error := by
      have := ne_error_of_complete (hrun ▸ h)
      rwa [hturn, handled_state] at this
    rw [hturn, handled_line hin hok] at hrun
    rw [hrun] at h ⊢
    obtain ⟨hst, hheaders, hbody, hreceived, hcnt, -, -⟩ := requestLine_of_ne_error hok
    generalize (Progress.fresh maxHeaders maxHeaderSize).requestLine inetPton6 line = head at *
    obtain ⟨lines, rest', headers, hsplit, hlines, hcoll, hrun'⟩ :=
      headers_of_complete hst
        (show Collected head.headers [] by rw [hheaders]; exact Collected.empty) h
    rw [hrun'] at h ⊢
    obtain ⟨wire, hwire, hframe⟩ := framing_of_endOfHeaders
      (p := { head with headers := headers, headerCount := head.headerCount + lines.length })
      hcoll (by rw [hcnt]; exact Nat.zero_add _) hbody hreceived h
    refine ⟨line, lines, wire, ?_, ?_, hlines, hframe⟩
    · dsimp only at hsplit
      rw [hin, hsplit]
      nth_rewrite 1 [hwire]
      simp only [append_assoc]
    · refine isLine_of_findCrlf ?_ hin
      rw [hfind, hlen]

variable (inetPton6) in
/-- **Every request that the parser completes has one framing.**  Whatever the input and the pieces
it came in, a completed request consists of a request line, of field lines and of a body; the field
lines settle the length of the body in one way (`Framing`); and the bytes left in the buffer are
those that follow the message. -/
theorem complete_request_framing (maxHeaders maxHeaderSize : ℕ) (pieces : List Bytes)
    (h : (parsePieces inetPton6 (fresh maxHeaders maxHeaderSize) pieces).1.progress.state =
      .complete) :
    ∃ (line : Bytes) (lines : List Bytes) (wire : Bytes),
      pieces.flatten = line ++ crlf ++ onWire lines ++ crlf ++ wire ++
        (parsePieces inetPton6 (fresh maxHeaders maxHeaderSize) pieces).1.buffer ∧
      IsLine line ∧ (∀ line ∈ lines, IsLine line ∧ line ≠ []) ∧
      Framing (parsePieces inetPton6 (fresh maxHeaders maxHeaderSize) pieces).1.progress lines
        wire := by
  cases pieces with
  | nil => cases h
  | cons piece pieces =>
    rw [parsePieces_eq, parse_eq] at h ⊢
    exact framing_of_run h

variable (inetPton6) in
/-- A request with a chunked body and two bytes behind it, in three pieces. -/
theorem complete_request_framing_chunked :
    let pieces := [text "POST / HTTP/1.1\r\nHost: a\r\nTransfer-Enc",
      text "oding: chunked\r\n\r\n2\r\nok\r", text "\n0\r\n\r\nGE"]
    let p := (parsePieces (fun _ => true) (fresh 8 64) pieces).1
    p.progress.state = .complete ∧
      ∃ (line : Bytes) (lines : List Bytes) (wire : Bytes),
        pieces.flatten = line ++ crlf ++ onWire lines ++ crlf ++ wire ++ p.buffer ∧
        IsLine line ∧ (∀ line ∈ lines, IsLine line ∧ line ≠ []) ∧ Framing p.progress lines wire := by
  have hcomplete : (parsePieces (fun _ => true) (fresh 8 64)
      [text "POST / HTTP/1.1\r\nHost: a\r\nTransfer-Enc",
        text "oding: chunked\r\n\r\n2\r\nok\r", text "\n0\r\n\r\nGE"]).1.progress.state =
      .complete := by
    decide +kernel
  exact ⟨hcomplete, complete_request_framing _ 8 64 _ hcomplete⟩

end RequestParser

end Elio.Http
