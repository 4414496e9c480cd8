/-
**The chunked transfer coding.**

`http/http_parser.hpp` decodes a chunked body twice, in `request_parser` and in `response_decoder`.
Both use the functions of this module for a chunk-size line and for a trailer line, and nothing else
is shared.  What a chunked body is is stated here without reference to either: a list of chunks, the
last of size zero, and the trailer fields.

A line that either validator accepts has no `'\r'` and no `'\n'` in it, so it makes no difference
whether a decoder looks for the two bytes together or for each of them.

A decoder that does the right thing with each line and with each chunk completes on exactly those
inputs that begin with a chunked body, and it then has the content of that body.

Main definitions:

* `Trailers`, `Chunks` — a trailer section and a chunked body as they stand on the wire, with the
  limits a decoder applies;
* `ChunkDecoder` — what a decoder does with the lines and the chunks.

Main results:

* `plain_of_parseChunkSizeLine`, `plain_of_validateChunkTrailerLine` — **an accepted line has no
  line-end bytes**;
* `Chunks.sum_sizes` — the body of a chunked message is as long as its chunks together;
* `ChunkDecoder.ended_of_complete`, `ChunkDecoder.run_of_chunks` — **a decoder completes on chunked
  bodies, and on nothing else**.
-/

import Elio.HttpHeaders

set_option autoImplicit false

namespace Elio.Http

open List

/-- `kMaxChunkSize`. -/
def maxChunkSize : ℕ := 2 ^ 30

/-! ### Chunk extensions -/

/-- `is_quoted_chunk_ext_char`. -/
def isQuotedChunkExtChar (c : UInt8) : Bool :=
  c = 0x09 || c = 0x20 || (0x21 ≤ c && c ≤ 0x7e) || 0x80 ≤ c

/-- `parse_chunk_ext_quoted_string`, from the byte after the opening quote: what follows the closing
quote. -/
def parseChunkExtQuotedString : Bytes → Option Bytes
  | [] => none
  | c :: rest =>
    if c = 0x22 then some rest
    else if c = 0x5c then
      match rest with
      | [] => none
      | escaped :: rest =>
        if isQuotedChunkExtChar escaped then parseChunkExtQuotedString rest else none
    else if isQuotedChunkExtChar c then parseChunkExtQuotedString rest
    else none

/-- The loop of `validate_chunk_extensions`; `value` is what is left from the current position on.
-/
def validateExtensionsFrom : ℕ → Bytes → Bool
  | 0, _ => false
  | fuel + 1, value =>
    match value.dropWhile isOws with
    | [] => true
    | semicolon :: rest =>
      let rest := rest.dropWhile isOws
      if semicolon ≠ 0x3b || (rest.takeWhile isTchar).isEmpty then false
      else
        match (rest.dropWhile isTchar).dropWhile isOws with
        | [] => true
        | c :: rest =>
          if c = 0x3d then
            match rest.dropWhile isOws with
            | [] => false
            | first :: rest =>
              if first = 0x22 then
                match parseChunkExtQuotedString rest with
                | none => false
                | some rest => validateExtensionsFrom fuel rest
              else if ((first :: rest).takeWhile isTchar).isEmpty then false
              else validateExtensionsFrom fuel ((first :: rest).dropWhile isTchar)
          else validateExtensionsFrom fuel (c :: rest)

/-- `validate_chunk_extensions`.  Every turn of the loop consumes at least one byte. -/
def validateChunkExtensions (value : Bytes) : Bool :=
  validateExtensionsFrom (value.length + 1) value

/-! ### Lines -/

/-- The digit loop of `parse_chunk_size_line`, with its guard against overflow: the number, and
whether the guard was passed throughout. -/
def chunkSizeDigits : ℕ → Bytes → ℕ × Bool
  | size, [] => (size, true)
  | size, c :: rest =>
    let d := hexDigitValue c
    if size > (sizeMax - d) / 16 then (size, false) else chunkSizeDigits (size * 16 + d) rest

/-- `parse_chunk_size_line`: the size as the call leaves it, and the error, if there is one. -/
def parseChunkSizeLine (line : Bytes) : ℕ × Option String :=
  let digits := line.takeWhile isHexDigit
  match chunkSizeDigits 0 digits with
  | (size, false) => (size, some "Chunk size overflow")
  | (size, true) =>
    if digits.isEmpty then (size, some "Empty chunk size")
    else if size > maxChunkSize then (size, some "Chunk size exceeds maximum")
    else
      let rest := trimOws (line.dropWhile isHexDigit)
      if !rest.isEmpty && !validateChunkExtensions rest then
        (size, some "Invalid chunk extension")
      else (size, none)

/-- `validate_chunk_trailer_line`. -/
def validateChunkTrailerLine (line : Bytes) : Bool :=
  match line.idxOf? colon with
  | none => false
  | some colon =>
    isValidHeaderName (line.take colon) && isValidHeaderValue (trimOws (line.drop (colon + 1)))

/-- `buffered_line_size`: a `'\r'` at the end may be the first byte of the line end. -/
def bufferedLineSize (buffer : Bytes) : ℕ :=
  if buffer.getLast? = some cr then buffer.length - 1 else buffer.length

/-! ### The coding on the wire -/

/-- A text without line-end bytes. -/
def Plain (s : Bytes) : Prop := ∀ c ∈ s, c ≠ cr ∧ c ≠ lf

/-- The trailer section after the last chunk, for a decoder that has counted `count` fields. -/
inductive Trailers (maxHeaderSize maxHeaders : ℕ) : ℕ → Bytes → Prop
  | done {count : ℕ} : Trailers maxHeaderSize maxHeaders count crlf
  | field {count : ℕ} {line wire : Bytes} : line ≠ [] → line.length ≤ maxHeaderSize →
      count < maxHeaders → validateChunkTrailerLine line = true →
      Trailers maxHeaderSize maxHeaders (count + 1) wire →
      Trailers maxHeaderSize maxHeaders count (line ++ crlf ++ wire)

/-- **A chunked body**: its bytes on the wire, its content, and the sizes its chunks declare. -/
inductive Chunks (maxHeaderSize maxHeaders count : ℕ) : Bytes → Bytes → List ℕ → Prop
  | last {line wire : Bytes} : line.length ≤ maxHeaderSize → parseChunkSizeLine line = (0, none) →
      Trailers maxHeaderSize maxHeaders count wire →
      Chunks maxHeaderSize maxHeaders count (line ++ crlf ++ wire) [] []
  | chunk {line data wire body : Bytes} {sizes : List ℕ} : line.length ≤ maxHeaderSize →
      parseChunkSizeLine line = (data.length, none) → data ≠ [] →
      Chunks maxHeaderSize maxHeaders count wire body sizes →
      Chunks maxHeaderSize maxHeaders count (line ++ crlf ++ (data ++ crlf ++ wire)) (data ++ body)
        (data.length :: sizes)

theorem Chunks.sum_sizes {maxHeaderSize maxHeaders count : ℕ} {wire body : Bytes}
    {sizes : List ℕ} (h : Chunks maxHeaderSize maxHeaders count wire body sizes) :
    body.length = sizes.sum := by
  induction h with
  | last _ _ _ => rfl
  | chunk _ _ _ _ ih => rw [length_append, ih, sum_cons]

/-! ### Accepted lines have no line-end bytes -/

instance (s : Bytes) : Decidable (Plain s) :=
  decidable_of_iff (s.all fun c => c ≠ cr && c ≠ lf) (by simp [Plain])

theorem Plain.nil : Plain [] := by
  intro c hc
  cases hc

variable {s : Bytes}

theorem Plain.append {t : Bytes} (hs : Plain s) (ht : Plain t) : Plain (s ++ t) := by
  intro c hc
  rcases mem_append.1 hc with hc | hc
  · exact hs c hc
  · exact ht c hc

theorem Plain.cons {c : UInt8} (hc : c ≠ cr ∧ c ≠ lf) (hs : Plain s) : Plain (c :: s) := by
  intro d hd
  rcases mem_cons.1 hd with rfl | hd
  · exact hc
  · exact hs d hd

/-- A text whose bytes all belong to a class without line-end bytes. -/
theorem Plain.of_all {p : UInt8 → Bool} (hp : ∀ c, p c = true → c ≠ cr ∧ c ≠ lf)
    (h : s.all p = true) : Plain s := fun c hc => hp c (all_eq_true.1 h c hc)

/-- The leading bytes of such a class. -/
theorem Plain.of_dropWhile {p : UInt8 → Bool} (hp : ∀ c, p c = true → c ≠ cr ∧ c ≠ lf)
    (h : Plain (s.dropWhile p)) : Plain s := by
  rw [← takeWhile_append_dropWhile (l := s)]
  refine Plain.append ?_ h
  intro c hc
  exact hp c (mem_takeWhile_imp hc)

theorem ne_of_isOws (c : UInt8) (h : isOws c = true) : c ≠ cr ∧ c ≠ lf := by
  constructor <;> rintro rfl <;> exact absurd h (by decide)

theorem ne_of_isTchar (c : UInt8) (h : isTchar c = true) : c ≠ cr ∧ c ≠ lf := by
  constructor <;> rintro rfl <;> exact absurd h (by decide)

theorem ne_of_isHexDigit (c : UInt8) (h : isHexDigit c = true) : c ≠ cr ∧ c ≠ lf := by
  constructor <;> rintro rfl <;> exact absurd h (by decide)

theorem ne_of_isFieldByte (c : UInt8) (h : isFieldByte c = true) : c ≠ cr ∧ c ≠ lf := by
  constructor <;> rintro rfl <;> exact absurd h (by decide)

theorem ne_of_isQuotedChunkExtChar (c : UInt8) (h : isQuotedChunkExtChar c = true) :
    c ≠ cr ∧ c ≠ lf := by
  constructor <;> rintro rfl <;> exact absurd h (by decide)

/-- Trimming takes no line-end bytes away. -/
theorem Plain.of_trimOws (h : Plain (trimOws s)) : Plain s := by
  refine Plain.of_dropWhile ne_of_isOws ?_
  intro c hc
  -- the bytes cut off at the end are spaces and tabs
  have hsplit := rdropWhile_append_rtakeWhile (p := isOws) (l := s.dropWhile isOws)
  rw [← hsplit] at hc
  rcases mem_append.1 hc with hc | hc
  · exact h c hc
  · exact ne_of_isOws c (mem_rtakeWhile_imp hc)

theorem plain_of_parseChunkExtQuotedString {rest : Bytes}
    (h : parseChunkExtQuotedString s = some rest) (hrest : Plain rest) : Plain s := by
  fun_induction parseChunkExtQuotedString s with
  | case1 => cases h
  | case2 rest' =>
    cases h
    exact hrest.cons (by decide)
  | case3 => cases h
  | case4 _ _ hescaped _ ih =>
    exact ((ih h).cons (ne_of_isQuotedChunkExtChar _ hescaped)).cons (by decide)
  | case5 => cases h
  | case6 c _ _ _ hc ih => exact (ih h).cons (ne_of_isQuotedChunkExtChar c hc)
  | case7 => cases h

theorem plain_of_validateExtensionsFrom {fuel : ℕ} {value : Bytes}
    (h : validateExtensionsFrom fuel value = true) : Plain value := by
  induction fuel generalizing value with
  | zero => cases h
  | succ fuel ih =>
    refine Plain.of_dropWhile ne_of_isOws ?_
    rw [validateExtensionsFrom] at h
    cases hval : value.dropWhile isOws with
    | nil => exact Plain.nil
    | cons semicolon rest =>
      simp only [hval] at h
      split_ifs at h with hname
      have hsemicolon : semicolon = 0x3b := by
        simp only [Bool.or_eq_true, decide_eq_true_eq, not_or, not_not] at hname
        exact hname.1
      subst hsemicolon
      refine Plain.cons (by decide) (.of_dropWhile ne_of_isOws ?_)
      refine .of_dropWhile ne_of_isTchar (.of_dropWhile ne_of_isOws ?_)
      -- what follows the name of the extension
      cases hrest : ((rest.dropWhile isOws).dropWhile isTchar).dropWhile isOws with
      | nil => exact Plain.nil
      | cons c rest =>
        simp only [hrest] at h
        split_ifs at h with heq
        · subst heq
          refine Plain.cons (by decide) (.of_dropWhile ne_of_isOws ?_)
          cases hfst : rest.dropWhile isOws with
          | nil => exact Plain.nil
          | cons first tail =>
            simp only [hfst] at h
            split_ifs at h with hquote htoken
            · subst hquote
              refine Plain.cons (by decide) ?_
              cases hstring : parseChunkExtQuotedString tail with
              | none => simp [hstring] at h
              | some tail' =>
                simp only [hstring] at h
                exact plain_of_parseChunkExtQuotedString hstring (ih h)
            · exact .of_dropWhile ne_of_isTchar (ih h)
        · exact ih h

/-- **An accepted chunk-size line has no line-end bytes.** -/
theorem plain_of_parseChunkSizeLine {line : Bytes} {size : ℕ}
    (h : parseChunkSizeLine line = (size, none)) : Plain line := by
  refine .of_dropWhile ne_of_isHexDigit (.of_trimOws ?_)
  rw [parseChunkSizeLine] at h
  rcases hdigits : chunkSizeDigits 0 (line.takeWhile isHexDigit) with ⟨n, ok⟩
  cases ok with
  | false => simp [hdigits] at h
  | true =>
    simp only [hdigits] at h
    split_ifs at h with hemp hmax hext
    · simp at h
    · simp at h
    · simp at h
    · cases hrest : trimOws (line.dropWhile isHexDigit) with
      | nil => exact Plain.nil
      | cons c rest =>
        rw [hrest] at hext
        have hvalid : validateChunkExtensions (c :: rest) = true := by simpa using hext
        exact plain_of_validateExtensionsFrom hvalid

/-- **An accepted trailer line has no line-end bytes.** -/
theorem plain_of_validateChunkTrailerLine {line : Bytes}
    (h : validateChunkTrailerLine line = true) : Plain line := by
  rw [validateChunkTrailerLine] at h
  cases hcolon : line.idxOf? colon with
  | none => simp [hcolon] at h
  | some n =>
    simp only [hcolon, Bool.and_eq_true] at h
    obtain ⟨hname, hval⟩ := h
    have hn : n < line.length ∧ (line)[n]? = some colon := by
      obtain ⟨hlt, hget, -⟩ := idxOf?_eq_some_iff.1 hcolon
      exact ⟨hlt, by rw [getElem?_eq_getElem hlt, hget]⟩
    have hsplit : line = line.take n ++ colon :: line.drop (n + 1) := by
      rw [getElem?_eq_getElem hn.1, Option.some.injEq] at hn
      rw [← hn.2, getElem_cons_drop, take_append_drop]
    rw [hsplit]
    refine Plain.append ?_ (Plain.cons (by decide) (.of_trimOws ?_))
    · rw [isValidHeaderName, isValidToken, Bool.and_eq_true] at hname
      exact .of_all ne_of_isTchar hname.2
    · exact .of_all ne_of_isFieldByte hval

/-! ### Decoders -/

/-- **A decoder of the chunked coding**: what it comes to from each of its locations.  A location
has the size that was read last, the number of fields counted, the content so far and the input. -/
structure ChunkDecoder (ρ : Type*) (maxHeaderSize maxHeaders : ℕ) where
  atSize : ℕ → ℕ → Bytes → Bytes → ρ
  atData : ℕ → ℕ → Bytes → Bytes → ρ
  atTrailer : ℕ → Bytes → Bytes → ρ
  ended : ℕ → Bytes → Bytes → ρ
  complete : ρ → Prop
  sizeLine {last count size : ℕ} {body line rest : Bytes} : line.length ≤ maxHeaderSize →
    parseChunkSizeLine line = (size, none) → atSize last count body (line ++ crlf ++ rest) =
      if size = 0 then atTrailer count body rest else atData size count body rest
  chunk (count : ℕ) (body rest : Bytes) {data : Bytes} : data ≠ [] → ∃ last,
    atData data.length count body (data ++ crlf ++ rest) = atSize last count (body ++ data) rest
  fieldLine {count : ℕ} {body line rest : Bytes} : line ≠ [] → line.length ≤ maxHeaderSize →
    count < maxHeaders → validateChunkTrailerLine line = true →
    atTrailer count body (line ++ crlf ++ rest) = atTrailer (count + 1) body rest
  emptyLine {count : ℕ} {body rest : Bytes} :
    atTrailer count body (crlf ++ rest) = ended count body rest
  of_size {last count : ℕ} {body input : Bytes} : complete (atSize last count body input) →
    ∃ line rest size, input = line ++ crlf ++ rest ∧ line.length ≤ maxHeaderSize ∧
      parseChunkSizeLine line = (size, none)
  of_data {size count : ℕ} {body input : Bytes} : complete (atData size count body input) →
    ∃ data rest, data.length = size ∧ input = data ++ crlf ++ rest
  of_trailer {count : ℕ} {body input : Bytes} : complete (atTrailer count body input) →
    ∃ line rest, input = line ++ crlf ++ rest ∧ (line ≠ [] → line.length ≤ maxHeaderSize ∧
      count < maxHeaders ∧ validateChunkTrailerLine line = true)

namespace ChunkDecoder

variable {ρ : Type*} {maxHeaderSize maxHeaders last count : ℕ} {body input wire content : Bytes}
  {sizes : List ℕ} (D : ChunkDecoder ρ maxHeaderSize maxHeaders)

theorem length_lt_line (line rest : Bytes) : rest.length < (line ++ crlf ++ rest).length := by
  simp only [length_append, crlf, length_cons]
  omega

/-- The trailer section that a complete message has consumed. -/
theorem trailers_of_complete (h : D.complete (D.atTrailer count body input)) :
    ∃ wire rest, input = wire ++ rest ∧ Trailers maxHeaderSize maxHeaders count wire := by
  -- every field line makes the input shorter
  induction hn : input.length using Nat.strong_induction_on generalizing count input with
  | _ n ih =>
    obtain ⟨line, rest, rfl, hline⟩ := D.of_trailer h
    by_cases hne : line = []
    · subst hne
      exact ⟨crlf, rest, rfl, .done⟩
    · obtain ⟨hle, hcnt, hvalid⟩ := hline hne
      rw [D.fieldLine hne hle hcnt hvalid] at h
      obtain ⟨wire, rest', rfl, hwire⟩ := ih rest.length (hn ▸ length_lt_line line rest) h rfl
      exact ⟨line ++ crlf ++ wire, rest', (append_assoc ..).symm,
        .field hne hle hcnt hvalid hwire⟩

theorem run_of_trailers (h : Trailers maxHeaderSize maxHeaders count wire) (body rest : Bytes) :
    ∃ count', D.atTrailer count body (wire ++ rest) = D.ended count' body rest := by
  induction h with
  | done => exact ⟨_, D.emptyLine⟩
  | field hne hle hcnt hvalid _ ih =>
    rw [append_assoc, D.fieldLine hne hle hcnt hvalid]
    exact ih

/-- **A chunked body is decoded**, and the bytes behind it are left. -/
theorem run_of_chunks (h : Chunks maxHeaderSize maxHeaders count wire content sizes) (last : ℕ)
    (body rest : Bytes) :
    ∃ count', D.atSize last count body (wire ++ rest) = D.ended count' (body ++ content) rest := by
  induction h generalizing last body with
  | last hle hsize hwire =>
    rw [append_assoc, D.sizeLine hle hsize, append_nil]
    exact D.run_of_trailers hwire body rest
  | @chunk line data wire content sizes hle hsize hne _ ih =>
    obtain ⟨last', hdata⟩ := D.chunk count body (wire ++ rest) hne
    have hzero : ¬ data.length = 0 := by simpa using hne
    rw [append_assoc, append_assoc _ wire, D.sizeLine hle hsize, if_neg hzero, hdata,
      ← append_assoc body]
    exact ih last' (body ++ data)

theorem chunks_of_complete (h : D.complete (D.atSize last count body input)) :
    ∃ wire content sizes rest, input = wire ++ rest ∧
      Chunks maxHeaderSize maxHeaders count wire content sizes := by
  -- every chunk makes the input shorter
  induction hn : input.length using Nat.strong_induction_on generalizing last body input with
  | _ n ih =>
    obtain ⟨line, rest, size, rfl, hle, hsize⟩ := D.of_size h
    rw [D.sizeLine hle hsize] at h
    by_cases hzero : size = 0
    · -- the last chunk
      subst hzero
      obtain ⟨wire, rest', rfl, hwire⟩ := D.trailers_of_complete h
      exact ⟨line ++ crlf ++ wire, [], [], rest', (append_assoc ..).symm,
        .last hle hsize hwire⟩
    · rw [if_neg hzero] at h
      obtain ⟨data, rest', rfl, rfl⟩ := D.of_data h
      have hne : data ≠ [] := by simpa using hzero
      obtain ⟨last', hdata⟩ := D.chunk count body rest' hne
      rw [hdata] at h
      have hshort : rest'.length < n := by
        rw [← hn]
        exact (length_lt_line data rest').trans (length_lt_line line _)
      obtain ⟨wire, content, sizes, rest'', rfl, hwire⟩ := ih rest'.length hshort h rfl
      refine ⟨line ++ crlf ++ (data ++ crlf ++ wire), data ++ content, data.length :: sizes, rest'',
        ?_, .chunk hle hsize hne hwire⟩
      simp only [append_assoc]

/-- **What a complete chunked message has consumed, and its content.** -/
theorem ended_of_complete (h : D.complete (D.atSize last count body input)) :
    ∃ wire content sizes count' rest, input = wire ++ rest ∧
      Chunks maxHeaderSize maxHeaders count wire content sizes ∧
      D.atSize last count body input = D.ended count' (body ++ content) rest := by
  obtain ⟨wire, content, sizes, rest, rfl, hwire⟩ := D.chunks_of_complete h
  obtain ⟨count', hrun⟩ := D.run_of_chunks hwire last body rest
  exact ⟨wire, content, sizes, count', rest, rfl, hwire, hrun⟩

end ChunkDecoder

end Elio.Http
