/-
**Feeding the request parser in pieces.**

The two loops of `request_parser::parse` together take one turn after another: a turn handles one
line, one chunk, or what there is of the body.  As a machine that is fed input
(`Elio/FeedMachine.lean`) the parser waits when the buffer has no complete line or chunk, and a turn
that it takes on the bytes it has is the turn it would take on those bytes and more.

The one turn for which this is not so is that of a body with a given length, which takes as many
bytes as there are; there, two turns on two pieces do what one turn does on both.  And a line
without its end may be refused as too long before the end has arrived.  It is then refused with the
same message when the end is there.

Main definitions:

* `RequestParser.turn`, `RequestParser.machine` — the machine;
* `RequestParser.parsePieces` — calls of `parse`, one for each piece.

Main results:

* `RequestParser.machine_joins` — **a turn is the same with more input behind it**;
* `RequestParser.parse_eq` — `parse` is a run of the machine;
* `RequestParser.parse_independent_of_split` — **the pieces of a byte string have the effect of the
  byte string**: on the parser, on the number of bytes consumed and on the last result.
-/

import Elio.FeedMachine
import Elio.RequestParser

set_option autoImplicit false

namespace Elio.Http

open List

namespace RequestParser

variable (inetPton6 : Bytes → Bool)

/-! ### The machine -/

/-- One turn of the two loops. -/
def turn (p : RequestParser) : RequestParser :=
  match p.progress.state with
  | .requestLine => (p.parseRequestLine inetPton6).1
  | .headers => p.headersTurn.1
  | .body => p.parseBody.1
  | .chunkSize => p.parseChunkSize.1
  | .chunkData => p.parseChunkData.1
  | .chunkTrailer => p.parseChunkTrailer.1
  | .complete | .error => p

/-- The parser can do nothing with the bytes in its buffer. -/
def waits (p : RequestParser) : Bool :=
  match p.progress.state with
  | .requestLine => findCrlf p.buffer = none
  | .headers | .chunkSize | .chunkTrailer =>
    findCrlf p.buffer = none ∧ bufferedLineSize p.buffer ≤ p.progress.maxHeaderSize
  | .body => false
  | .chunkData => p.buffer.length < p.progress.chunkSize + 2
  | .complete | .error => true

/-- A turn, if the parser can take one. -/
def advance (p : RequestParser) : Option RequestParser :=
  if p.buffer.isEmpty || p.waits then none else some (p.turn inetPton6)

/-- The bytes in the buffer, and one for the message that has not ended. -/
def weight (p : RequestParser) : ℕ := p.buffer.length + if p.progress.ended then 0 else 1

/-! ### Small facts -/

@[simp] theorem append_buffer (p : RequestParser) (d : Bytes) :
    (p.append d).buffer = p.buffer ++ d := rfl

@[simp] theorem append_progress (p : RequestParser) (d : Bytes) :
    (p.append d).progress = p.progress := rfl

theorem append_append (p : RequestParser) (d e : Bytes) :
    (p.append d).append e = p.append (d ++ e) := by
  simp [append]

@[simp] theorem setError_append (p : RequestParser) (d : Bytes) (message : String) :
    (p.append d).setError message = (p.setError message).append d := rfl

@[simp] theorem setError_state (p : Progress) (message : String) :
    (p.setError message).state = .error := rfl

variable {inetPton6}

theorem advance_eq_some {p p' : RequestParser} (h : p.advance inetPton6 = some p') :
    p.buffer ≠ [] ∧ p.waits = false ∧ p' = p.turn inetPton6 := by
  rw [advance] at h
  split_ifs at h with hwait
  simp only [Bool.or_eq_true, List.isEmpty_iff, not_or, Bool.not_eq_true] at hwait
  exact ⟨hwait.1, hwait.2, (Option.some.inj h).symm⟩

variable {p : RequestParser}

theorem ended_of_waits (hwaits : p.waits = false) : p.progress.ended = false := by
  cases hst : p.progress.state <;> simp_all [Progress.ended, waits]

theorem advance_of (hbuf : p.buffer ≠ []) (hwaits : p.waits = false) :
    p.advance inetPton6 = some (p.turn inetPton6) := by
  simp [advance, hbuf, hwaits]

/-- A line that has been handled has left the buffer, or the message has ended. -/
theorem weight_handled_lt (hended : p.progress.ended = false) {n : ℕ}
    (hn : n + 2 ≤ p.buffer.length) (progress : Progress) :
    (p.handled n progress).weight < p.weight := by
  rw [handled]
  split_ifs with herr
  · simp [weight, Progress.ended, herr] at hended ⊢
    simp [hended]
  · simp only [weight, length_drop, hended]
    split_ifs <;> omega

theorem weight_setError_lt (hended : p.progress.ended = false)
    (message : String) : (p.setError message).weight < p.weight := by
  have herr : (p.setError message).progress.ended = true := rfl
  simp only [weight, herr, hended]
  exact Nat.lt_succ_self _

/-! ### Lines with a limit

`parse_headers`, `parse_chunk_size` and `parse_chunk_trailer` treat the length of a line alike. -/

/-- A line is too long, with or without its end; or it is handed on; or the parser waits. -/
def limitedLine (message : String) (atLine : ℕ → RequestParser → RequestParser)
    (p : RequestParser) : RequestParser :=
  match findCrlf p.buffer with
  | none => if bufferedLineSize p.buffer > p.progress.maxHeaderSize then p.setError message else p
  | some lineEnd =>
    if lineEnd > p.progress.maxHeaderSize then p.setError message else atLine lineEnd p

/-- What `parse_headers` does with a line. -/
def headersAt (lineEnd : ℕ) (p : RequestParser) : RequestParser :=
  if lineEnd = 0 then ⟨p.progress.endOfHeaders, p.buffer.drop 2⟩
  else p.handled lineEnd (p.progress.headerLine (p.buffer.take lineEnd))

/-- What `parse_chunk_size` does with a line. -/
def chunkSizeAt (lineEnd : ℕ) (p : RequestParser) : RequestParser :=
  p.handled lineEnd (p.progress.chunkSizeLine (p.buffer.take lineEnd))

/-- What `parse_chunk_trailer` does with a line. -/
def trailerAt (lineEnd : ℕ) (p : RequestParser) : RequestParser :=
  if lineEnd = 0 then ⟨{ p.progress with state := .complete }, p.buffer.drop 2⟩
  else p.handled lineEnd (p.progress.trailerLine (p.buffer.take lineEnd))

/-- No line is there, and what is there is not too long for one. -/
def awaitsLine (p : RequestParser) : Bool :=
  findCrlf p.buffer = none ∧ bufferedLineSize p.buffer ≤ p.progress.maxHeaderSize

theorem headersTurn_eq (p : RequestParser) :
    p.headersTurn.1 = p.limitedLine "Header line too long" headersAt := by
  rw [headersTurn, limitedLine]
  rcases findCrlf p.buffer with - | - | n
  · split_ifs <;> rfl
  · rfl
  · simp only
    split_ifs <;> rfl

theorem parseChunkSize_eq (p : RequestParser) :
    p.parseChunkSize =
      (p.limitedLine "Chunk size line too long" chunkSizeAt, !p.awaitsLine) := by
  rw [parseChunkSize, limitedLine, awaitsLine]
  cases findCrlf p.buffer <;> simp only <;> split_ifs <;> simp_all [chunkSizeAt]

theorem parseChunkTrailer_eq (p : RequestParser) :
    p.parseChunkTrailer = (p.limitedLine "Trailer line too long" trailerAt, !p.awaitsLine) := by
  rw [parseChunkTrailer, limitedLine, awaitsLine]
  rcases findCrlf p.buffer with - | - | n
  · split_ifs <;> simp_all
  · rfl
  · simp only
    split_ifs <;> simp [trailerAt]

theorem turn_chunkSize (hst : p.progress.state = .chunkSize) :
    p.turn inetPton6 = p.limitedLine "Chunk size line too long" chunkSizeAt := by
  rw [turn, hst]
  exact congrArg Prod.fst (parseChunkSize_eq p)

theorem turn_chunkTrailer (hst : p.progress.state = .chunkTrailer) :
    p.turn inetPton6 = p.limitedLine "Trailer line too long" trailerAt := by
  rw [turn, hst]
  exact congrArg Prod.fst (parseChunkTrailer_eq p)

theorem turn_headers (hst : p.progress.state = .headers) :
    p.turn inetPton6 = p.limitedLine "Header line too long" headersAt := by
  rw [turn, hst]
  exact headersTurn_eq p

/-- The states whose lines have a limit. -/
def limited (p : RequestParser) : Prop :=
  p.progress.state = .headers ∨ p.progress.state = .chunkSize ∨ p.progress.state = .chunkTrailer

theorem waits_of_limited (h : p.limited) : p.waits = p.awaitsLine := by
  rcases h with h | h | h <;> rw [waits, h, awaitsLine]

theorem waiting_of_limited (h : p.limited) (hwaits : p.waits = true) :
    findCrlf p.buffer = none ∧ ¬ bufferedLineSize p.buffer > p.progress.maxHeaderSize := by
  simpa [waits_of_limited h, awaitsLine] using hwaits

theorem tooLong_of_limited (h : p.limited) (hwaits : p.waits = false)
    (hnone : findCrlf p.buffer = none) : bufferedLineSize p.buffer > p.progress.maxHeaderSize := by
  simpa [waits_of_limited h, awaitsLine, hnone] using hwaits

theorem limitedLine_of_waits (h : p.limited) (hwaits : p.waits = true) {message : String}
    {atLine : ℕ → RequestParser → RequestParser} : p.limitedLine message atLine = p := by
  obtain ⟨hnone, hshort⟩ := waiting_of_limited h hwaits
  rw [limitedLine, hnone]
  exact if_neg hshort

/-- A limited line lowers the weight when handing it on does. -/
theorem weight_limitedLine_lt (hended : p.progress.ended = false)
    (hlimited : p.limited) (hwaits : p.waits = false) (message : String)
    {atLine : ℕ → RequestParser → RequestParser}
    (hline : ∀ n, n + 2 ≤ p.buffer.length → (atLine n p).weight < p.weight) :
    (p.limitedLine message atLine).weight < p.weight := by
  rw [limitedLine]
  cases hfind : findCrlf p.buffer with
  | none =>
    simp only [tooLong_of_limited hlimited hwaits hfind, if_true]
    exact weight_setError_lt hended message
  | some n =>
    simp only
    split_ifs
    · exact weight_setError_lt hended message
    · exact hline n (findCrlf_lt_length hfind)

theorem weight_parseBody_lt (hended : p.progress.ended = false)
    (hlen : 0 < p.buffer.length) : p.parseBody.1.weight < p.weight := by
  have hweight : p.weight = p.buffer.length + 1 := by simp [weight, hended]
  rw [parseBody, hweight]
  generalize havail : min (p.progress.contentLength - p.progress.bodyReceived) p.buffer.length = k
  simp only
  split_ifs with hdone
  · have hcomp : ∀ progress : Progress, progress.state = .complete →
        weight ⟨progress, p.buffer.drop k⟩ = p.buffer.length - k := by
      intro progress hst
      simp [weight, Progress.ended, hst]
    rw [hcomp _ rfl]
    omega
  · -- the body is not complete, so every byte there was has been taken
    have hall : k = p.buffer.length := by omega
    simp only [weight, length_drop, hall]
    split_ifs <;> omega

/-- **Every turn lowers the weight.** -/
theorem weight_turn_lt (hbuf : p.buffer ≠ []) (hwaits : p.waits = false) :
    (p.turn inetPton6).weight < p.weight := by
  have hlen : 0 < p.buffer.length := length_pos_iff.2 hbuf
  have hended := ended_of_waits hwaits
  -- the empty line of `parse_headers` and `parse_chunk_trailer`
  have hemp : ∀ (progress : Progress), 0 + 2 ≤ p.buffer.length →
      weight ⟨progress, p.buffer.drop 2⟩ < p.weight := by
    intro progress hle
    simp only [weight, length_drop, hended]
    split_ifs <;> omega
  cases hst : p.progress.state with
  | requestLine =>
    cases hline : findCrlf p.buffer with
    | none => simp [waits, hst, hline] at hwaits
    | some n =>
      simp only [turn, hst, parseRequestLine, hline]
      exact weight_handled_lt hended (findCrlf_lt_length hline) _
  | headers =>
    rw [turn_headers hst]
    refine weight_limitedLine_lt hended (.inl hst) hwaits _ fun n hn => ?_
    rw [headersAt]
    split_ifs with hzero
    · exact hemp _ (by omega)
    · exact weight_handled_lt hended hn _
  | body =>
    simp only [turn, hst]
    exact weight_parseBody_lt hended hlen
  | chunkSize =>
    rw [turn_chunkSize hst]
    exact weight_limitedLine_lt hended (.inr (.inl hst)) hwaits _ fun n hn =>
      weight_handled_lt hended hn _
  | chunkData =>
    have hsize : ¬ p.buffer.length < p.progress.chunkSize + 2 := by
      simpa [waits, hst] using hwaits
    simp only [turn, hst, parseChunkData, if_neg hsize]
    split_ifs
    · exact weight_setError_lt hended _
    · simp only [weight, length_drop, hended]
      split_ifs <;> omega
  | chunkTrailer =>
    rw [turn_chunkTrailer hst]
    refine weight_limitedLine_lt hended (.inr (.inr hst)) hwaits _ fun n hn => ?_
    rw [trailerAt]
    split_ifs with hzero
    · exact hemp _ (by omega)
    · exact weight_handled_lt hended hn _
  | complete | error => simp [waits, hst] at hwaits

/-- **The parser as a machine that is fed bytes.** -/
def machine (inetPton6 : Bytes → Bool) : FeedMachine RequestParser UInt8 where
  advance := advance inetPton6
  append := append
  weight := weight
  advance_weight := by
    intro p p' h
    obtain ⟨hbuffer, hwaits, rfl⟩ := advance_eq_some h
    exact weight_turn_lt hbuffer hwaits
  append_nil p := by simp [append]
  append_append := append_append

/-- What every turn preserves, a run preserves. -/
theorem runFor_induction {P : RequestParser → Prop}
    (hturn : ∀ q, q.buffer ≠ [] → q.waits = false → P q → P (q.turn inetPton6)) (h : P p) (n : ℕ) :
    P ((machine inetPton6).runFor n p) := by
  refine FeedMachine.runFor_induction (fun q q' hq hadv => ?_) h n
  obtain ⟨hbuf, hwaits, rfl⟩ := advance_eq_some hadv
  exact hturn q hbuf hwaits hq

/-! ### A turn with more input behind it -/

/-- A line that is too long without its end is too long with it, wherever the end turns out to be.
-/
theorem tooLong_append {s : Bytes} {max : ℕ} (hnone : findCrlf s = none)
    (hlong : bufferedLineSize s > max) (d : Bytes) :
    (findCrlf (s ++ d) = none ∧ bufferedLineSize (s ++ d) > max) ∨
      ∃ n, findCrlf (s ++ d) = some (n + 1) ∧ n + 1 > max := by
  cases hline : findCrlf (s ++ d) with
  | none =>
    refine .inl ⟨rfl, ?_⟩
    cases d with
    | nil => simpa using hlong
    | cons c d =>
      -- at least one more byte makes up for a line end that may have begun
      have hsize : bufferedLineSize s ≤ s.length := by
        rw [bufferedLineSize]
        split_ifs <;> omega
      have hmore : s.length ≤ bufferedLineSize (s ++ c :: d) := by
        rw [bufferedLineSize]
        simp only [length_append, length_cons]
        split_ifs <;> omega
      omega
  | some n =>
    have hn : bufferedLineSize s ≤ n := by
      rw [bufferedLineSize]
      rcases length_le_of_findCrlf_append hnone hline with hle | ⟨hlen, hlast⟩
      · split_ifs <;> omega
      · rw [if_pos hlast]
        omega
    obtain ⟨m, rfl⟩ : ∃ m, n = m + 1 := ⟨n - 1, by omega⟩
    exact .inr ⟨m, rfl, by omega⟩

theorem handled_append {n : ℕ} (hn : n + 2 ≤ p.buffer.length) (d : Bytes)
    (progress : Progress) :
    (p.append d).handled n progress = (p.handled n progress).append d := by
  rw [handled, handled]
  split_ifs
  · rfl
  · simp [append, drop_append_of_le_length hn]

/-- A limited line is the same with more input behind it when handing it on is. -/
theorem limitedLine_append (hlimited : p.limited) (hwaits : p.waits = false)
    (message : String) {atLine : ℕ → RequestParser → RequestParser} (d : Bytes)
    (hline : ∀ n, n + 2 ≤ p.buffer.length → atLine n (p.append d) = (atLine n p).append d) :
    (p.append d).waits = false ∧
      (p.append d).limitedLine message atLine = (p.limitedLine message atLine).append d := by
  have hlimited' : (p.append d).limited := hlimited
  rw [waits_of_limited hlimited', awaitsLine, limitedLine, limitedLine, append_buffer, append_progress]
  cases hfind : findCrlf p.buffer with
  | none =>
    have hlong := tooLong_of_limited hlimited hwaits hfind
    rcases tooLong_append hfind hlong d with ⟨hmore, hlong'⟩ | ⟨n, hmore, hlong'⟩
    · refine ⟨by simpa [hmore] using hlong', ?_⟩
      simp only [hmore, hlong, hlong', if_true, setError_append]
    · refine ⟨by simp [hmore], ?_⟩
      simp only [hmore, hlong, hlong', if_true, setError_append]
  | some n =>
    have hmore := findCrlf_append_of_some hfind d
    refine ⟨by simp [hmore], ?_⟩
    simp only [hmore, setError_append, hline n (findCrlf_lt_length hfind)]
    split_ifs <;> rfl

theorem take_append_line {n : ℕ} (hn : n + 2 ≤ p.buffer.length) (d : Bytes) :
    (p.buffer ++ d).take n = p.buffer.take n :=
  take_append_of_le_length (by omega)

/-- **A turn other than that of the body is the same with more input behind it.** -/
theorem turn_append (hwaits : p.waits = false)
    (hbody : p.progress.state ≠ .body) (d : Bytes) :
    (p.append d).waits = false ∧ (p.append d).turn inetPton6 = (p.turn inetPton6).append d := by
  -- the empty line of `parse_headers` and `parse_chunk_trailer`
  have hemp : ∀ (progress : Progress), 0 + 2 ≤ p.buffer.length →
      (⟨progress, (p.buffer ++ d).drop 2⟩ : RequestParser) =
        append ⟨progress, p.buffer.drop 2⟩ d := by
    intro progress hle
    rw [append, drop_append_of_le_length hle]
  cases hst : p.progress.state with
  | requestLine =>
    cases hline : findCrlf p.buffer with
    | none => simp [waits, hst, hline] at hwaits
    | some n =>
      have hlt := findCrlf_lt_length hline
      have hmore := findCrlf_append_of_some hline d
      refine ⟨by simp [waits, hst, hmore], ?_⟩
      simp only [turn, append_progress, hst, parseRequestLine, append_buffer, hline, hmore,
        take_append_line hlt, handled_append hlt]
  | headers =>
    rw [turn_headers hst, turn_headers (p := p.append d) hst]
    refine limitedLine_append (.inl hst) hwaits _ d fun n hn => ?_
    rw [headersAt, headersAt, append_buffer, take_append_line hn,
      handled_append hn]
    split_ifs with hzero
    · exact hemp _ (by omega)
    · rfl
  | body => exact absurd hst hbody
  | chunkSize =>
    rw [turn_chunkSize hst, turn_chunkSize (p := p.append d) hst]
    refine limitedLine_append (.inr (.inl hst)) hwaits _ d fun n hn => ?_
    rw [chunkSizeAt, chunkSizeAt, append_buffer, append_progress, take_append_line hn,
      handled_append hn]
  | chunkData =>
    have hsize : p.progress.chunkSize + 2 ≤ p.buffer.length := by
      simpa [waits, hst] using hwaits
    have hshort : ¬ p.buffer.length < p.progress.chunkSize + 2 := by omega
    have hshort' : ¬ (p.buffer ++ d).length < p.progress.chunkSize + 2 := by
      rw [length_append]
      omega
    have hend : ((p.buffer ++ d).drop p.progress.chunkSize).take 2 =
        (p.buffer.drop p.progress.chunkSize).take 2 := by
      rw [drop_append_of_le_length (by omega), take_append_of_le_length]
      rw [length_drop]
      omega
    refine ⟨by simpa [waits, hst] using by omega, ?_⟩
    simp only [turn, append_progress, hst, parseChunkData, append_buffer, if_neg hshort,
      if_neg hshort', hend, setError_append, drop_append_of_le_length hsize,
      take_append_line hsize]
    split_ifs <;> rfl
  | chunkTrailer =>
    rw [turn_chunkTrailer hst, turn_chunkTrailer (p := p.append d) hst]
    refine limitedLine_append (.inr (.inr hst)) hwaits _ d fun n hn => ?_
    rw [trailerAt, trailerAt, append_buffer, take_append_line hn,
      handled_append hn]
    split_ifs with hzero
    · exact hemp _ (by omega)
    · rfl
  | complete | error => simp [waits, hst] at hwaits

theorem parseBody_append_of_le
    (hle : p.progress.contentLength - p.progress.bodyReceived ≤ p.buffer.length) (d : Bytes) :
    (p.append d).parseBody.1 = p.parseBody.1.append d := by
  have hdone : p.progress.contentLength ≤
      p.progress.bodyReceived + (p.progress.contentLength - p.progress.bodyReceived) := by omega
  have hmin : min (p.progress.contentLength - p.progress.bodyReceived) p.buffer.length =
      p.progress.contentLength - p.progress.bodyReceived := Nat.min_eq_left hle
  have hmin' : min (p.progress.contentLength - p.progress.bodyReceived) (p.buffer ++ d).length =
      p.progress.contentLength - p.progress.bodyReceived := by
    rw [length_append]
    omega
  simp only [parseBody, append_buffer, append_progress, hmin, hmin', ge_iff_le, hdone, if_true]
  simp only [append, drop_append_of_le_length hle, take_append_of_le_length hle]

/-- A body that goes on behind the buffer: what is there is taken first, and the rest then. -/
theorem parseBody_append_of_lt
    (hlt : p.buffer.length < p.progress.contentLength - p.progress.bodyReceived) (d : Bytes) :
    p.parseBody.1.progress.state = p.progress.state ∧ p.parseBody.1.buffer = [] ∧
      (p.append d).parseBody.1 = (p.parseBody.1.append d).parseBody.1 := by
  have hmin : min (p.progress.contentLength - p.progress.bodyReceived) p.buffer.length =
      p.buffer.length := by omega
  have hmore : ¬ p.progress.contentLength ≤ p.progress.bodyReceived + p.buffer.length := by omega
  have hfst : p.parseBody.1 =
      ⟨{ p.progress with
          body := p.progress.body ++ p.buffer
          bodyReceived := p.progress.bodyReceived + p.buffer.length }, []⟩ := by
    simp only [parseBody, hmin, ge_iff_le, hmore, if_false, take_length, drop_length]
  refine ⟨by rw [hfst], by rw [hfst], ?_⟩
  -- the bytes taken together are those of the buffer and some of the new ones
  have hsum : min (p.progress.contentLength - p.progress.bodyReceived) (p.buffer ++ d).length =
      p.buffer.length +
        min (p.progress.contentLength - (p.progress.bodyReceived + p.buffer.length)) d.length := by
    rw [length_append]
    omega
  rw [hfst]
  simp only [parseBody, append_buffer, append_progress, hsum, nil_append, ge_iff_le,
    Nat.add_assoc, take_length_add_append, drop_length_add_append, append_assoc]

theorem run_turn (hbuf : p.buffer ≠ []) (hwaits : p.waits = false) :
    (machine inetPton6).run p = (machine inetPton6).run (p.turn inetPton6) :=
  FeedMachine.run_of_some (advance_of hbuf hwaits)

variable (inetPton6) in
/-- **A turn leads where the turn leads that has more input behind it.** -/
theorem machine_joins : (machine inetPton6).Joins := by
  intro p p' d h
  obtain ⟨hbuf, hwaits, rfl⟩ := advance_eq_some h
  change (machine inetPton6).run (p.append d) =
    (machine inetPton6).run ((p.turn inetPton6).append d)
  have hbuffer' : (p.append d).buffer ≠ [] := by simp [hbuf]
  by_cases hbody : p.progress.state = .body
  · have hturn : ∀ q : RequestParser, q.progress.state = .body →
        q.waits = false ∧ q.turn inetPton6 = q.parseBody.1 := by
      intro q hq
      exact ⟨by simp [waits, hq], by simp [turn, hq]⟩
    rw [run_turn hbuffer' (hturn (p.append d) hbody).1, (hturn p hbody).2,
      (hturn (p.append d) hbody).2]
    by_cases hle : p.progress.contentLength - p.progress.bodyReceived ≤ p.buffer.length
    · rw [parseBody_append_of_le hle]
    · obtain ⟨hst, hemp, hboth⟩ := parseBody_append_of_lt (not_le.1 hle) d
      cases d with
      | nil =>
        have hnil : ∀ q : RequestParser, q.append [] = q := (machine inetPton6).append_nil
        rw [hnil, hnil]
      | cons c d =>
        have hbuffer'' : (p.parseBody.1.append (c :: d)).buffer ≠ [] := by simp [hemp]
        have hbody' : (p.parseBody.1.append (c :: d)).progress.state = .body := by
          rw [append_progress, hst, hbody]
        rw [run_turn hbuffer'' (hturn _ hbody').1, (hturn _ hbody').2, ← hboth]
  · obtain ⟨hwaits', hturn⟩ := turn_append hwaits hbody d
    rw [run_turn hbuffer' hwaits', hturn]

/-! ### `parse` is a run -/

theorem buffer_turn_le (hbuf : p.buffer ≠ []) (hwaits : p.waits = false) :
    (p.turn inetPton6).buffer.length ≤ p.buffer.length := by
  have hlt := @weight_turn_lt inetPton6 _ hbuf hwaits
  have hended := ended_of_waits hwaits
  rw [weight, weight, hended] at hlt
  simp only [Bool.false_eq_true, if_false] at hlt
  omega

variable (inetPton6) in
theorem buffer_run_le (p : RequestParser) :
    ((machine inetPton6).run p).buffer.length ≤ p.buffer.length := by
  refine runFor_induction (P := fun q => q.buffer.length ≤ p.buffer.length) ?_ le_rfl _
  exact fun q hbuf hwaits hq => (buffer_turn_le hbuf hwaits).trans hq

/-- What a sub-parser has done when it returns. -/
structure Returned (inetPton6 : Bytes → Bool) (p : RequestParser) (r : RequestParser × Bool) : Prop where
  run : (machine inetPton6).run p = (machine inetPton6).run r.1
  le : r.1.buffer.length ≤ p.buffer.length
  /-- It has asked for more, or failed. -/
  stop : r.2 = false →
    r.1.advance inetPton6 = none ∧ earlyResult p.progress.state r.1 = r.1.finalResult
  /-- It has used something up, or ended the message. -/
  go : r.2 = true → r.1.weight < p.weight

theorem advance_of_waits (h : p.waits = true) :
    p.advance inetPton6 = none := by
  simp [advance, h]

theorem waits_of_error (h : p.progress.state = .error) : p.waits = true := by
  simp [waits, h]

theorem Returned.of_turn (hbuf : p.buffer ≠ []) (hwaits : p.waits = false)
    {answer : Bool}
    (hstop : answer = false → (p.turn inetPton6).advance inetPton6 = none ∧
      earlyResult p.progress.state (p.turn inetPton6) = (p.turn inetPton6).finalResult) :
    Returned inetPton6 p (p.turn inetPton6, answer) where
  run := run_turn hbuf hwaits
  le := buffer_turn_le hbuf hwaits
  stop := hstop
  go _ := weight_turn_lt hbuf hwaits

theorem Returned.of_waits (hwaits : p.waits = true)
    (hended : p.progress.ended = false) : Returned inetPton6 p (p, false) where
  run := rfl
  le := le_rfl
  stop _ := by
    refine ⟨advance_of_waits hwaits, ?_⟩
    cases hst : p.progress.state <;>
      simp_all [earlyResult, finalResult, Progress.ended]
  go h := by cases h

/-- A sub-parser that returns `false` only when it waits. -/
theorem Returned.of_sub {r : RequestParser × Bool} (hbuf : p.buffer ≠ [])
    (hended : p.progress.ended = false) (hturn : p.turn inetPton6 = r.1)
    (hstop : p.waits = true → r.1 = p) (hgo : r.2 = !p.waits) : Returned inetPton6 p r := by
  rw [← Prod.mk.eta (p := r), hgo]
  cases hwaits : p.waits with
  | true =>
    rw [hstop hwaits]
    exact Returned.of_waits hwaits hended
  | false =>
    rw [← hturn]
    exact Returned.of_turn hbuf hwaits nofun

/-- An error of the sub-parser for the request line or for the headers. -/
theorem stop_of_error {p q : RequestParser}
    (hst : p.progress.state = .requestLine ∨ p.progress.state = .headers)
    (herr : q.progress.state = .error) :
    q.advance inetPton6 = none ∧ earlyResult p.progress.state q = q.finalResult := by
  refine ⟨advance_of_waits (waits_of_error herr), ?_⟩
  rcases hst with hst | hst <;> simp [hst, earlyResult, finalResult, herr]

theorem handled_state (p : RequestParser) (n : ℕ) (progress : Progress) :
    (p.handled n progress).progress = progress := by
  rw [handled]
  split_ifs <;> rfl

theorem headerLine_state (p : Progress) (line : Bytes) :
    (p.headerLine line).state = .error ∨ (p.headerLine line).state = p.state := by
  rw [Progress.headerLine]
  cases line.idxOf? colon with
  | none => exact .inl rfl
  | some n =>
    simp only
    split_ifs
    · exact .inl rfl
    · exact .inl rfl
    · exact .inl rfl
    · exact .inl rfl
    · cases p.headers.add (line.take n) (trimOws (line.drop (n + 1))) <;> exact .inr rfl

/-- A turn of `parse_headers` that is not the last leaves a shorter buffer, and one that returns
`false` an error. -/
theorem headersTurn_answer (hst : p.progress.state = .headers) (hwaits : p.waits = false)
    {q : RequestParser} {answer : Option Bool} (h : p.headersTurn = (q, answer)) :
    (answer = none → q.progress.state = .headers ∧ q.buffer.length < p.buffer.length) ∧
      (answer = some false → q.progress.state = .error) := by
  rw [headersTurn] at h
  rcases hfind : findCrlf p.buffer with - | - | n
  · have hlong := tooLong_of_limited (.inl hst) hwaits hfind
    simp only [hfind, hlong, if_true] at h
    obtain ⟨rfl, rfl⟩ := Prod.mk.inj h
    exact ⟨nofun, fun _ => rfl⟩
  · simp only [hfind] at h
    obtain ⟨rfl, rfl⟩ := Prod.mk.inj h
    exact ⟨nofun, fun herr => by simpa using herr⟩
  · simp only [hfind] at h
    split_ifs at h with hlong herr <;> obtain ⟨rfl, rfl⟩ := Prod.mk.inj h
    · exact ⟨nofun, fun _ => rfl⟩
    · exact ⟨nofun, fun _ => herr⟩
    · refine ⟨fun _ => ?_, nofun⟩
      rw [handled_state] at herr ⊢
      rw [handled, if_neg herr]
      refine ⟨((headerLine_state _ _).resolve_left herr).trans hst, ?_⟩
      have := findCrlf_lt_length hfind
      simp only [length_drop]
      omega

/-- The loop of `parse_headers` takes turns until it returns. -/
theorem headersLoop_returned {bound : ℕ} (hbound : p.buffer.length < bound)
    (hst : p.progress.state = .headers) :
    Returned inetPton6 p (headersLoop bound p) := by
  induction bound generalizing p with
  | zero => omega
  | succ bound ih =>
    have hended : p.progress.ended = false := by simp [Progress.ended, hst]
    by_cases hwaits : p.waits = true
    · -- no line, and none that is too long
      have hnone := waiting_of_limited (.inl hst) hwaits
      rw [headersLoop, headersTurn, hnone.1]
      simp only [hnone.2, if_false]
      exact Returned.of_waits hwaits hended
    · rw [Bool.not_eq_true] at hwaits
      have hbuf : p.buffer ≠ [] := by
        intro hemp
        simp [waits, hst, hemp, findCrlf, bufferedLineSize] at hwaits
      rw [headersLoop]
      rcases hres : p.headersTurn with ⟨q, answer⟩
      have hq : p.turn inetPton6 = q := by simp [turn, hst, hres]
      obtain ⟨hmore, hfalse⟩ := headersTurn_answer hst hwaits hres
      cases answer with
      | none =>
        -- a header line was accepted, and the loop goes on with the next
        have hlt := @weight_turn_lt inetPton6 _ hbuf hwaits
        obtain ⟨hqstate, hqlen⟩ := hmore rfl
        have hrest := ih (by omega) hqstate
        rw [hq] at hlt
        exact
          { run := by rw [← hrest.run, ← hq]; exact run_turn hbuf hwaits
            le := hrest.le.trans hqlen.le
            stop := fun h => by
              rw [hst, ← hqstate]
              exact hrest.stop h
            go := fun h => (hrest.go h).trans hlt }
      | some answer =>
        rw [← hq]
        refine Returned.of_turn hbuf hwaits fun hanswer => ?_
        exact stop_of_error (.inr hst) (hq ▸ hfalse (by rw [hanswer]))

/-- **What the sub-parser of a state does is what some turns do**, and it returns `false` only where
the machine can take no turn. -/
theorem subParser_returned (hbuf : p.buffer ≠ [])
    (hended : p.progress.ended = false) : Returned inetPton6 p (p.subParser inetPton6) := by
  rw [subParser]
  cases hst : p.progress.state with
  | requestLine =>
    cases hline : findCrlf p.buffer with
    | none =>
      simp only [parseRequestLine, hline]
      exact Returned.of_waits (by simp [waits, hst, hline]) hended
    | some n =>
      have hturn : p.turn inetPton6 = (p.parseRequestLine inetPton6).1 := by simp [turn, hst]
      simp only [parseRequestLine, hline] at hturn ⊢
      rw [← hturn]
      refine Returned.of_turn hbuf (by simp [waits, hst, hline]) fun hfalse => ?_
      exact stop_of_error (.inl hst) (by simpa using hfalse)
  | headers => exact headersLoop_returned (Nat.lt_succ_self _) hst
  | body =>
    have hturn : p.turn inetPton6 = p.parseBody.1 := by simp [turn, hst]
    rw [← Prod.mk.eta (p := p.parseBody), ← hturn]
    refine Returned.of_turn hbuf (by simp [waits, hst]) fun hfalse => ?_
    -- the body is not complete, so the buffer has been used up
    have hshort : p.buffer.length < p.progress.contentLength - p.progress.bodyReceived := by
      by_contra hle
      have hmin : min (p.progress.contentLength - p.progress.bodyReceived) p.buffer.length =
          p.progress.contentLength - p.progress.bodyReceived := by omega
      have hdone : p.progress.contentLength ≤ p.progress.bodyReceived +
          (p.progress.contentLength - p.progress.bodyReceived) := by omega
      simp [parseBody, hmin, hdone] at hfalse
    obtain ⟨hsame, hemp, -⟩ := parseBody_append_of_lt hshort []
    rw [hturn]
    exact ⟨by simp [advance, hemp], by simp [earlyResult, finalResult, hsame, hst]⟩
  | chunkSize =>
    refine Returned.of_sub hbuf hended (by simp [turn, hst]) (fun hwaits => ?_) ?_
    · rw [parseChunkSize_eq, limitedLine_of_waits (.inr (.inl hst)) hwaits]
    · rw [parseChunkSize_eq, waits_of_limited (.inr (.inl hst))]
  | chunkData =>
    refine Returned.of_sub hbuf hended (by simp [turn, hst]) (fun hwaits => ?_) ?_
    · have hshort : p.buffer.length < p.progress.chunkSize + 2 := by
        simpa [waits, hst] using hwaits
      simp only [parseChunkData, hshort, if_true]
    · simp only [parseChunkData, waits, hst]
      split_ifs <;> simp_all
  | chunkTrailer =>
    refine Returned.of_sub hbuf hended (by simp [turn, hst]) (fun hwaits => ?_) ?_
    · rw [parseChunkTrailer_eq, limitedLine_of_waits (.inr (.inr hst)) hwaits]
    · rw [parseChunkTrailer_eq, waits_of_limited (.inr (.inr hst))]
  | complete | error => simp [Progress.ended, hst] at hended

/-- **The loop of `parse` is a run of the machine.** -/
theorem parseLoop_eq {bound : ℕ} (hbound : p.weight ≤ bound) (consumed : ℕ) :
    parseLoop inetPton6 bound p consumed =
      ((machine inetPton6).run p, ((machine inetPton6).run p).finalResult,
        consumed + (p.buffer.length - ((machine inetPton6).run p).buffer.length)) := by
  induction bound generalizing p consumed with
  | zero =>
    -- nothing in the buffer, and the message has ended
    have hbuf : p.buffer = [] := by
      rw [weight] at hbound
      exact length_eq_zero_iff.1 (by omega)
    have hstop : p.advance inetPton6 = none := by simp [advance, hbuf]
    rw [FeedMachine.run_of_none hstop, Nat.sub_self]
    rfl
  | succ bound ih =>
    rw [parseLoop]
    by_cases hstop : p.buffer.isEmpty || p.progress.ended
    · rw [if_pos hstop]
      have hnone : p.advance inetPton6 = none := by
        by_contra hsome
        obtain ⟨p', hp'⟩ := Option.ne_none_iff_exists'.1 hsome
        obtain ⟨hbuf, hwaits, -⟩ := advance_eq_some hp'
        simp [hbuf, ended_of_waits hwaits] at hstop
      rw [FeedMachine.run_of_none hnone, Nat.sub_self]
      rfl
    · rw [if_neg hstop]
      simp only [Bool.or_eq_true, List.isEmpty_iff, not_or, Bool.not_eq_true] at hstop
      have hsub := @subParser_returned inetPton6 _ hstop.1 hstop.2
      rcases hres : p.subParser inetPton6 with ⟨q, - | -⟩
      · rw [hres] at hsub
        obtain ⟨hnone, hearly⟩ := hsub.stop rfl
        have hrun : (machine inetPton6).run p = q :=
          hsub.run.trans (FeedMachine.run_of_none hnone)
        rw [hrun]
        simp only [hearly]
      · rw [hres] at hsub
        have hlt : q.weight < p.weight := hsub.go rfl
        have hle : q.buffer.length ≤ p.buffer.length := hsub.le
        have hrun : (machine inetPton6).run p = (machine inetPton6).run q := hsub.run
        have hrest := buffer_run_le inetPton6 q
        simp only
        rw [ih (by omega), hrun, Nat.add_assoc]
        congr 3
        omega

/-- **`parse` is one feed of the machine**: the parser it leaves, the result, and the bytes
consumed. -/
theorem parse_eq (p : RequestParser) (data : Bytes) :
    p.parse inetPton6 data =
      ((machine inetPton6).feed p data, ((machine inetPton6).feed p data).finalResult,
        (p.buffer ++ data).length - ((machine inetPton6).feed p data).buffer.length) := by
  have hbound : (p.append data).weight ≤ (p.append data).buffer.length + 1 := by
    rw [weight]
    split_ifs <;> omega
  rw [parse, parseLoop_eq hbound, Nat.zero_add]
  rfl

/-! ### Calls one after another -/

variable (inetPton6) in
/-- `parse` is called for each of the pieces: the parser after the calls, the result of the last of
them, and the number of bytes consumed by all. -/
def parsePieces (p : RequestParser) : List Bytes → RequestParser × Option ParseResult × ℕ
  | [] => (p, none, 0)
  | piece :: pieces =>
    let (q, result, consumed) := p.parse inetPton6 piece
    let (r, last, more) := parsePieces q pieces
    (r, last.or (some result), consumed + more)

/-- The calls together are one call of `parse` for all the bytes. -/
theorem parsePieces_eq (p : RequestParser) (piece : Bytes) (pieces : List Bytes) :
    p.parsePieces inetPton6 (piece :: pieces) =
      ((p.parse inetPton6 (piece :: pieces).flatten).1,
        some (p.parse inetPton6 (piece :: pieces).flatten).2.1,
        (p.parse inetPton6 (piece :: pieces).flatten).2.2) := by
  induction pieces generalizing p piece with
  | nil => simp [parsePieces]
  | cons next rest ih =>
    have hfeed := FeedMachine.feed_feed (machine_joins inetPton6) p piece (next :: rest).flatten
    have hflat : (piece :: next :: rest).flatten = piece ++ (next :: rest).flatten := rfl
    -- what the first call leaves in the buffer is consumed later, or left at the end
    have hfst : ((machine inetPton6).feed p piece).buffer.length ≤
        p.buffer.length + piece.length := by
      have := buffer_run_le inetPton6 (p.append piece)
      rwa [append_buffer, length_append] at this
    have hsnd : ((machine inetPton6).feed p (piece ++ (next :: rest).flatten)).buffer.length ≤
        ((machine inetPton6).feed p piece).buffer.length + (next :: rest).flatten.length := by
      have := buffer_run_le inetPton6
        (((machine inetPton6).feed p piece).append (next :: rest).flatten)
      rw [append_buffer, length_append] at this
      rw [← hfeed]
      exact this
    rw [parsePieces, parse_eq p piece]
    simp only
    rw [ih, parse_eq, hflat, parse_eq, hfeed]
    simp only [Option.some_or, Prod.mk.injEq, true_and, length_append]
    omega

variable (inetPton6) in
/-- **A byte string may arrive in any pieces**: from a fresh parser, the calls of `parse` for the
pieces of a byte string leave the parser that one call for the whole of it leaves, with every member
and with what is left in the buffer; the last of them returns what that call returns; and they
consume together what it consumes. -/
theorem parse_independent_of_split (maxHeaders maxHeaderSize : ℕ) (piece : Bytes)
    (pieces : List Bytes) :
    parsePieces inetPton6 (fresh maxHeaders maxHeaderSize) (piece :: pieces) =
      (((fresh maxHeaders maxHeaderSize).parse inetPton6 (piece :: pieces).flatten).1,
        some ((fresh maxHeaders maxHeaderSize).parse inetPton6 (piece :: pieces).flatten).2.1,
        ((fresh maxHeaders maxHeaderSize).parse inetPton6 (piece :: pieces).flatten).2.2) :=
  parsePieces_eq _ piece pieces

end RequestParser

end Elio.Http
