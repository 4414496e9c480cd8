/-
**The size of a request.**

`handle_requests` of `http/http_server.hpp` answers a request that is larger than `max_request_size`
with 413 and ends the connection.  It counts the bytes that the parser has consumed for the request,
and, as long as the request is not complete, those that the parser has not consumed yet.  The model
here is the loop of `RequestPipeline` with this count, the limit on the requests of a connection,
and the responses to what is refused.

What becomes of a request that is dispatched (`route_request`, and `dispatch_reply` with its
`sent.success() && sent.reusable`) is given as a function of its number; that the server runs and no
timer expires is taken for granted.

Main definitions:

* `Session.Holds` — a parser that there is at some time in the loop;
* `expectedEvents` — what should become of the requests of a connection.

Main results:

* `RequestParser.declared_le` — a request is not smaller than it declares;
* `Session.held_le` — what the parser holds, at any time;
* `request_size_limit_exact` — **the limit on the size of a request is exact**.
-/

import Elio.RequestPipeline

set_option autoImplicit false

namespace Elio.Http

open RequestParser
open List

/-! ### What a parser holds -/

namespace Progress

/-- `declared_content_length`. -/
def declaredContentLength (p : Progress) : Option ℕ :=
  if p.chunked then none
  else
    match p.state with
    | .body | .complete => some p.contentLength
    | _ => none

/-- The declared length is known when the headers are complete, and the body is there when the
request is complete. -/
structure Measured (p : Progress) : Prop where
  received : p.bodyReceived ≤ p.body.length
  undeclared : p.state ≠ .body → p.state ≠ .complete → p.state ≠ .error → p.contentLength = 0
  covered : p.state = .complete → p.contentLength ≤ p.bodyReceived

/-- Lines do not count for the body. -/
theorem Measured.of_counts {p q : Progress} (hcounts : q.counts = p.counts)
    (hzero : p.contentLength = 0) (hreceived : p.bodyReceived ≤ p.body.length) : q.Measured := by
  obtain ⟨hbody, hrest⟩ := Prod.mk.inj hcounts
  obtain ⟨hbytes, hlen⟩ := Prod.mk.inj hrest
  have hnone : q.contentLength = 0 := hlen.trans hzero
  exact
    { received := by rw [hbytes, hbody]; exact hreceived
      undeclared := fun _ _ _ => hnone
      covered := fun _ => by rw [hnone]; exact Nat.zero_le _ }

theorem Measured.endOfHeaders {p : Progress} (hzero : p.contentLength = 0)
    (hreceived : p.bodyReceived ≤ p.body.length) : p.endOfHeaders.Measured := by
  have hplain : ∀ q : Progress, q.counts = p.counts → q.Measured := fun q hq =>
    .of_counts hq hzero hreceived
  rw [Progress.endOfHeaders]
  split_ifs
  all_goals try exact hplain _ rfl
  cases p.headers.contentLength with
  | none => exact hplain _ rfl
  | some length =>
    exact
      { received := hreceived
        undeclared := fun h1 h2 _ => by
          dsimp only at h1 h2
          split_ifs at h1 h2
          · exact absurd rfl h1
          · exact absurd rfl h2
        covered := fun h => by
          dsimp only at h
          split_ifs at h with hpos
          exact (Nat.not_lt.1 hpos).trans (Nat.zero_le _) }

theorem body_endOfHeaders (p : Progress) : p.endOfHeaders.body = p.body := by
  rw [Progress.endOfHeaders]
  cases p.headers.contentLength <;> split_ifs <;> rfl

end Progress

namespace RequestParser

variable {inetPton6 : Bytes → Bool}

/-- The bytes that a parser holds: `bytes_buffered`. -/
def held (p : RequestParser) : ℕ := p.progress.body.length + p.buffer.length

/-- What a turn does to the bytes: they do not become more, and the counts stay right. -/
structure Counted (p p' : RequestParser) : Prop where
  held : p'.held ≤ p.held
  measured : p.progress.Measured → p'.progress.Measured

variable {p : RequestParser}

theorem Counted.of_line {n : ℕ} {progress : Progress}
    (hst : p.progress.state ≠ .body ∧ p.progress.state ≠ .complete ∧ p.progress.state ≠ .error)
    (hcounts : progress.counts = p.progress.counts) : Counted p (p.handled n progress) where
  held := by
    have hlen : progress.body.length = p.progress.body.length :=
      congrArg length (Prod.mk.inj hcounts).1
    rw [RequestParser.held, handled_state, hlen, handled]
    refine Nat.add_le_add_left ?_ _
    split_ifs
    · exact le_rfl
    · exact (length_drop).trans_le (Nat.sub_le _ _)
  measured h := by
    rw [handled_state]
    exact .of_counts hcounts (h.undeclared hst.1 hst.2.1 hst.2.2) h.received

theorem Counted.setError (p : RequestParser) (message : String) :
    Counted p (p.setError message) where
  held := le_rfl
  measured h := ⟨h.received, fun _ _ herr => absurd rfl herr, nofun⟩

theorem Counted.refl (p : RequestParser) : Counted p p := ⟨le_rfl, fun h => h⟩

theorem Counted.parseBody (hst : p.progress.state = .body) : Counted p p.parseBody.1 := by
  rw [RequestParser.parseBody]
  generalize hn : min (p.progress.contentLength - p.progress.bodyReceived) p.buffer.length = n
  have hlen : (p.progress.body ++ p.buffer.take n).length = p.progress.body.length + n := by
    rw [length_append, length_take_of_le (hn ▸ Nat.min_le_right _ _)]
  have hheld : (p.progress.body ++ p.buffer.take n).length + (p.buffer.drop n).length ≤ p.held := by
    rw [hlen, length_drop, RequestParser.held]
    omega
  have hreceived (h : p.progress.Measured) := hlen ▸ Nat.add_le_add_right h.received n
  split_ifs with hdone
  · exact ⟨hheld, fun h => ⟨hreceived h, fun _ hnot => absurd rfl hnot, fun _ => hdone⟩⟩
  · refine ⟨hheld, fun h => ⟨hreceived h, fun hbody => absurd hst hbody, ?_⟩⟩
    rw [hst]
    simp

theorem Counted.parseChunkData (hst : p.progress.state = .chunkData) :
    Counted p p.parseChunkData.1 := by
  rw [RequestParser.parseChunkData]
  split_ifs with hshort hend
  · exact .refl p
  · exact .setError p _
  · have hlen : (p.progress.body ++ p.buffer.take p.progress.chunkSize).length =
        p.progress.body.length + p.progress.chunkSize := by
      rw [length_append, length_take_of_le (by omega)]
    refine ⟨?_, fun h => ⟨?_, fun _ _ _ => ?_, by simp⟩⟩
    · dsimp only [RequestParser.held]
      rw [length_drop]
      omega
    · rw [hlen]
      exact h.received.trans (Nat.le_add_right _ _)
    · exact h.undeclared (by rw [hst]; simp) (by rw [hst]; simp) (by rw [hst]; simp)

/-- **A turn of the parser does not add to the bytes it holds.** -/
theorem counted_turn (p : RequestParser) : Counted p (p.turn inetPton6) := by
  have hmoved := @moved_turn inetPton6 p
  generalize p.turn inetPton6 = p' at hmoved ⊢
  cases hmoved with
  | idle => exact .refl p
  | failed message => exact .setError p message
  | line n hst hkept => exact .of_line hst (Prod.mk.inj hkept).2
  | headers hst =>
    refine ⟨?_, fun h => .endOfHeaders (h.undeclared ?_ ?_ ?_) h.received⟩
    · rw [RequestParser.held, Progress.body_endOfHeaders, length_drop]
      exact Nat.add_le_add_left (Nat.sub_le _ _) _
    all_goals rw [hst]; nofun
  | trailers hst =>
    refine ⟨?_, fun h => .of_counts rfl (h.undeclared ?_ ?_ ?_) h.received⟩
    · rw [RequestParser.held, length_drop]
      exact Nat.add_le_add_left (Nat.sub_le _ _) _
    all_goals rw [hst]; nofun
  | body hst => exact .parseBody hst
  | chunk hst => exact .parseChunkData hst

theorem held_turn_le (p : RequestParser) : (p.turn inetPton6).held ≤ p.held :=
  (counted_turn p).held

theorem held_runFor_le (n : ℕ) (p : RequestParser) :
    ((machine inetPton6).runFor n p).held ≤ p.held :=
  runFor_induction (P := fun q => q.held ≤ p.held)
    (fun q _ _ hq => (held_turn_le q).trans hq) le_rfl n

variable (inetPton6) in
theorem held_feed_le (maxHeaders maxHeaderSize : ℕ) (d : Bytes) :
    ((machine inetPton6).feed (fresh maxHeaders maxHeaderSize) d).held ≤ d.length :=
  (held_runFor_le _ ((fresh maxHeaders maxHeaderSize).append d)).trans (Nat.zero_add _).le

theorem measured_run (h : p.progress.Measured) : ((machine inetPton6).run p).progress.Measured :=
  runFor_induction (P := fun q => q.progress.Measured)
    (fun q _ _ hq => (counted_turn q).measured hq) h _

theorem measured_fresh (maxHeaders maxHeaderSize : ℕ) :
    (Progress.fresh maxHeaders maxHeaderSize).Measured :=
  ⟨le_rfl, fun _ _ _ => rfl, nofun⟩

theorem contentLength_run_body (hst : p.progress.state = .body) :
    ((machine inetPton6).run p).progress.contentLength = p.progress.contentLength := by
  have hkeep : (((machine inetPton6).run p).progress.state = .body ∨
      ((machine inetPton6).run p).progress.state = .complete) ∧
      ((machine inetPton6).run p).progress.contentLength = p.progress.contentLength := by
    refine runFor_induction
      (P := fun q => (q.progress.state = .body ∨ q.progress.state = .complete) ∧
        q.progress.contentLength = p.progress.contentLength) ?_ ⟨.inl hst, rfl⟩ _
    rintro q - hwaits ⟨hbody | hcomp, hq⟩
    · simp only [RequestParser.turn, hbody, parseBody]
      split_ifs
      · exact ⟨.inr rfl, hq⟩
      · exact ⟨.inl rfl, hq⟩
    · simp [waits, hcomp] at hwaits
  exact hkeep.2

variable (inetPton6) in
/-- The rest of a message leads a parser to where the message leads it. -/
theorem feed_rest (maxHeaders maxHeaderSize : ℕ) {u r m : Bytes} (heq : u ++ r = m) :
    (machine inetPton6).run
        (((machine inetPton6).feed (fresh maxHeaders maxHeaderSize) u).append r) =
      (machine inetPton6).feed (fresh maxHeaders maxHeaderSize) m := by
  rw [← heq]
  exact FeedMachine.feed_feed (machine_joins inetPton6) _ u r

/-- **A request is not complete, and not refused, before all of it is there.** -/
theorem state_of_part {maxHeaders maxHeaderSize : ℕ} {u r m : Bytes}
    (hm : IsMessage inetPton6 maxHeaders maxHeaderSize m) (heq : u ++ r = m) :
    ((machine inetPton6).feed (fresh maxHeaders maxHeaderSize) u).progress.state ≠ .error ∧
      (r ≠ [] →
        ((machine inetPton6).feed (fresh maxHeaders maxHeaderSize) u).progress.state ≠
          .complete) := by
  have hrest := feed_rest inetPton6 maxHeaders maxHeaderSize heq
  obtain ⟨hcomp, hemp⟩ := hm.feed
  generalize (machine inetPton6).feed (fresh maxHeaders maxHeaderSize) u = p at hrest
  refine ⟨fun herr => ?_, fun hr hdone => ?_⟩
  · rw [run_of_error (p := p.append r) herr] at hrest
    rw [← hrest, append_progress, herr] at hcomp
    cases hcomp
  · rw [run_of_complete (p := p.append r) hdone] at hrest
    rw [← hrest] at hemp
    exact hr (append_eq_nil_iff.1 hemp).2

/-- **A request is not smaller than it declares.** -/
theorem declared_le {maxHeaders maxHeaderSize : ℕ} {u r m : Bytes}
    (hm : IsMessage inetPton6 maxHeaders maxHeaderSize m) (heq : u ++ r = m) {n : ℕ}
    (hn : n ∈ ((machine inetPton6).feed (fresh maxHeaders maxHeaderSize)
      u).progress.declaredContentLength) : n ≤ m.length := by
  have hrest := feed_rest inetPton6 maxHeaders maxHeaderSize heq
  -- what the message leads to is measured
  have hmeasured : ((machine inetPton6).feed (fresh maxHeaders maxHeaderSize) m).progress.Measured :=
    measured_run (measured_fresh maxHeaders maxHeaderSize)
  have hheld := held_feed_le inetPton6 maxHeaders maxHeaderSize m
  have hwhole : ((machine inetPton6).feed (fresh maxHeaders maxHeaderSize) m).progress.contentLength ≤
      m.length := by
    refine (hmeasured.covered hm.feed.1).trans (hmeasured.received.trans ?_)
    exact (Nat.le_add_right _ _).trans hheld
  rw [Progress.declaredContentLength] at hn
  generalize (machine inetPton6).feed (fresh maxHeaders maxHeaderSize) u = p at hn hrest
  split_ifs at hn with hchunked
  · cases hn
  cases hst : p.progress.state with
  | body =>
    rw [hst] at hn
    cases hn
    have hsame := @contentLength_run_body inetPton6 (p.append r) hst
    rw [hrest, append_progress] at hsame
    rwa [← hsame]
  | complete =>
    rw [hst] at hn
    cases hn
    rw [run_of_complete (p := p.append r) hst] at hrest
    rw [← hrest] at hwhole
    exact hwhole
  | requestLine | headers | chunkSize | chunkData | chunkTrailer | error =>
    rw [hst] at hn
    cases hn

end RequestParser

/-! ### The loop -/

/-- `server_config`, as far as it limits the requests of a connection. -/
structure ServerLimits where
  maxRequestSize : ℕ
  readBufferSize : ℕ
  maxHeaders : ℕ
  maxHeaderSize : ℕ
  maxKeepAliveRequests : ℕ
  deriving DecidableEq, Repr

/-- What the loop does with a request. -/
inductive ServerEvent where
  /-- `route_request`. -/
  | dispatched (request : Progress)
  /-- `send_error_response`, with the status and the body, and the end of the connection. -/
  | refused (status : ℕ) (body : String)
  deriving DecidableEq, Repr

/-- What `send_payload_too_large` sends. -/
def payloadTooLarge : ServerEvent := .refused 413 "Payload Too Large"

/-- The variables of `handle_requests`. -/
structure Session where
  parser : RequestParser
  parseBuffered : Bool
  currentRequestSize : ℕ
  requestCount : ℕ
  /-- The function has returned. -/
  closed : Bool
  events : List ServerEvent
  deriving DecidableEq, Repr

namespace Session

variable (inetPton6 : Bytes → Bool) (limits : ServerLimits) (reusable : ℕ → Bool)

/-- The outer loop comes to its condition, and begins with the next request if there may be one. -/
def begin (requestCount : ℕ) (events : List ServerEvent) (parser : RequestParser) : Session :=
  if requestCount < limits.maxKeepAliveRequests then
    ⟨parser.reset, parser.reset.buffer.length > 0, 0, requestCount, false, events⟩
  else ⟨parser, false, 0, requestCount, true, events⟩

/-- The function returns with a response. -/
def refuse (s : Session) (parser : RequestParser) (event : ServerEvent) : Session :=
  { s with parser := parser, parseBuffered := false, closed := true, events := s.events ++ [event] }

/-- One turn of the inner loop.  When the request is complete it is dispatched, and the outer loop
goes on if its connection can be used again. -/
def turn (s : Session) (input : Bytes) : Session :=
  let (parser, result, consumed) := s.parser.parse inetPton6 input
  let size := s.currentRequestSize + consumed
  let complete : Bool := parser.progress.state = .complete
  let effective := if complete then size else size + parser.buffer.length
  if parser.progress.declaredContentLength.any (· > limits.maxRequestSize) then
    s.refuse parser payloadTooLarge
  else if effective > limits.maxRequestSize ||
      parser.progress.body.length > limits.maxRequestSize then
    s.refuse parser payloadTooLarge
  else if result = .error then s.refuse parser (.refused 400 parser.progress.errorMessage)
  else if complete then
    let events := s.events ++ [.dispatched parser.progress]
    if reusable s.requestCount then begin limits (s.requestCount + 1) events parser
    else { s with parser := parser, parseBuffered := false, closed := true, events := events }
  else { s with parser := parser, parseBuffered := false, currentRequestSize := size }

/-- The turns of the inner loop that need no read. -/
def bufferedTurns : ℕ → Session → Session
  | 0, s => s
  | bound + 1, s =>
    if s.parseBuffered then bufferedTurns bound (s.turn inetPton6 limits reusable []) else s

/-- A read has returned `piece`, and the loop goes on until it reads again.  Every turn without a
read consumes a byte, so the bound is never reached. -/
def read (s : Session) (piece : Bytes) : Session :=
  if s.closed then s
  else bufferedTurns inetPton6 limits reusable
    ((s.turn inetPton6 limits reusable piece).parser.buffer.length + 1)
    (s.turn inetPton6 limits reusable piece)

/-- The parsers that there are from a turn with some input up to the next read: those between the
turns of the parser's own loops, and those of the turns that need no read. -/
inductive Holds : Session → Bytes → RequestParser → Prop
  | parsing (s : Session) (input : Bytes) (n : ℕ) :
      Holds s input ((machine inetPton6).runFor n (s.parser.append input))
  | later {s : Session} {input : Bytes} {p : RequestParser} :
      (s.turn inetPton6 limits reusable input).parseBuffered = true →
      Holds (s.turn inetPton6 limits reusable input) [] p → Holds s input p

end Session

/-- `handle_requests`, with the reads returning the pieces. -/
def serveSession (inetPton6 : Bytes → Bool) (limits : ServerLimits) (reusable : ℕ → Bool)
    (pieces : List Bytes) : Session :=
  pieces.foldl (Session.read inetPton6 limits reusable)
    (.begin limits 0 [] (fresh limits.maxHeaders limits.maxHeaderSize))

/-! ### What a turn can do -/

namespace Session

section Turns

variable {inetPton6 : Bytes → Bool} {limits : ServerLimits} {reusable : ℕ → Bool}

/-- What is counted for the current request after a turn that leaves the parser `q`. -/
def sizeAfter (s : Session) (input : Bytes) (q : RequestParser) : ℕ :=
  s.currentRequestSize + ((s.parser.buffer ++ input).length - q.buffer.length)

/-- The session after a turn that leaves the parser `q`, by what the parser has come to. -/
inductive Turned (limits : ServerLimits) (reusable : ℕ → Bool) (s : Session) (input : Bytes)
    (q : RequestParser) : Session → Prop
  | tooLarge : (∃ n ∈ q.progress.declaredContentLength, limits.maxRequestSize < n) ∨
        limits.maxRequestSize < s.sizeAfter input q +
          (if q.progress.state = .complete then 0 else q.buffer.length) ∨
        limits.maxRequestSize < q.progress.body.length →
      Turned limits reusable s input q (s.refuse q payloadTooLarge)
  | malformed : q.progress.state = .error →
      Turned limits reusable s input q (s.refuse q (.refused 400 q.progress.errorMessage))
  | kept : q.progress.state = .complete → s.sizeAfter input q ≤ limits.maxRequestSize →
      reusable s.requestCount = true → Turned limits reusable s input q
        (begin limits (s.requestCount + 1) (s.events ++ [.dispatched q.progress]) q)
  | last : q.progress.state = .complete → s.sizeAfter input q ≤ limits.maxRequestSize →
      reusable s.requestCount = false → Turned limits reusable s input q
        { s with
          parser := q
          parseBuffered := false
          closed := true
          events := s.events ++ [.dispatched q.progress] }
  | waits : q.progress.state ≠ .complete → q.progress.state ≠ .error →
      s.sizeAfter input q + q.buffer.length ≤ limits.maxRequestSize →
      Turned limits reusable s input q
        { s with parser := q, parseBuffered := false, currentRequestSize := s.sizeAfter input q }

variable (inetPton6 limits reusable) in
/-- **What a turn can do.** -/
theorem turned (s : Session) (input : Bytes) :
    Turned limits reusable s input ((machine inetPton6).feed s.parser input)
      (s.turn inetPton6 limits reusable input) := by
  have herr : ((machine inetPton6).feed s.parser input).finalResult = .error ↔
      ((machine inetPton6).feed s.parser input).progress.state = .error := by
    have h := parse_result_error inetPton6 (p := s.parser) (d := input)
    rwa [parse_eq] at h
  have hsmall : ∀ {n limit : ℕ} {b : Bool}, ¬ (decide (n > limit) || b) = true → n ≤ limit := by
    intro n limit b h
    by_contra hlarge
    exact h (by rw [decide_eq_true (Nat.not_le.1 hlarge), Bool.true_or])
  rw [turn, parse_eq]
  generalize (machine inetPton6).feed s.parser input = q at herr
  dsimp only
  by_cases hdeclared : q.progress.declaredContentLength.any (· > limits.maxRequestSize) = true
  · rw [if_pos hdeclared]
    refine .tooLarge (.inl ?_)
    obtain ⟨n, hn, hlarge⟩ := (Option.any_eq_true _ _).1 hdeclared
    exact ⟨n, hn, of_decide_eq_true hlarge⟩
  by_cases hcomp : q.progress.state = .complete
  · have hnot : ¬ q.finalResult = .error := by
      rw [herr, hcomp]
      nofun
    simp only [hcomp, decide_true, if_true, if_neg hnot]
    split_ifs with hlarge hkeep
    · refine .tooLarge (.inr ?_)
      rw [if_pos hcomp]
      simpa [sizeAfter] using hlarge
    · exact .kept hcomp (hsmall hlarge) hkeep
    · exact .last hcomp (hsmall hlarge) (by simpa using hkeep)
  · simp only [hcomp, decide_false, Bool.false_eq_true, if_false]
    split_ifs with hlarge hbad
    · refine .tooLarge (.inr ?_)
      rw [if_neg hcomp]
      simpa [sizeAfter] using hlarge
    · exact .malformed (herr.1 hbad)
    · exact .waits hcomp (fun h => hbad (herr.2 h)) (hsmall hlarge)

/-! ### What a parser holds, at any time -/

theorem held_begin_le (count : ℕ) (events : List ServerEvent) (p : RequestParser) :
    (begin limits count events p).parser.held ≤ p.held := by
  rw [begin]
  split_ifs
  · exact Nat.add_le_add_right (Nat.zero_le _) _
  · exact le_rfl

/-- A turn does not add to what the parser holds, beyond its input. -/
theorem held_turn_le (s : Session) (input : Bytes) :
    (s.turn inetPton6 limits reusable input).parser.held ≤ (s.parser.append input).held := by
  have hfeed : ((machine inetPton6).feed s.parser input).held ≤ (s.parser.append input).held :=
    held_runFor_le _ _
  have hturned := turned inetPton6 limits reusable s input
  generalize s.turn inetPton6 limits reusable input = s' at hturned ⊢
  cases hturned with
  | tooLarge | malformed | last | waits => exact hfeed
  | kept => exact (held_begin_le _ _ _).trans hfeed

variable {s : Session}

/-- **What the parser holds up to the next read** is not more than it held with its input. -/
theorem Holds.held_le {input : Bytes} {p : RequestParser}
    (h : Holds inetPton6 limits reusable s input p) : p.held ≤ (s.parser.append input).held := by
  induction h with
  | parsing s input n => exact held_runFor_le n _
  | @later s input p _ _ ih =>
    refine ih.trans ?_
    have hsame : (s.turn inetPton6 limits reusable input).parser.append [] =
        (s.turn inetPton6 limits reusable input).parser :=
      (machine inetPton6).append_nil _
    rw [hsame]
    exact held_turn_le s input

/-- A session that goes on has consumed what it has of the body; when it reads, what it has of the
request is within the limit; and otherwise it is at the beginning of a request. -/
structure Within (limits : ServerLimits) (s : Session) : Prop where
  body : s.closed = false → s.parser.progress.body.length ≤ s.currentRequestSize
  size : s.closed = false → s.parseBuffered = false →
    s.currentRequestSize + s.parser.buffer.length ≤ limits.maxRequestSize
  buffered : s.parseBuffered = true → s.closed = false ∧ s.parser.progress.state = .requestLine

theorem within_begin (count : ℕ) (events : List ServerEvent) (p : RequestParser) :
    (begin limits count events p).Within limits := by
  rw [begin]
  split_ifs
  · refine ⟨fun _ => le_rfl, fun _ hbuffered => ?_, fun _ => ⟨rfl, rfl⟩⟩
    have hemp : ¬ p.reset.buffer.length > 0 := of_decide_eq_false hbuffered
    dsimp only
    omega
  · exact ⟨nofun, nofun, nofun⟩

variable (inetPton6 reusable) in
theorem within_turn (hopen : s.closed = false) (h : s.Within limits) (input : Bytes) :
    (s.turn inetPton6 limits reusable input).Within limits := by
  have hheld : ((machine inetPton6).feed s.parser input).held ≤ (s.parser.append input).held :=
    held_runFor_le _ _
  have hturned := turned inetPton6 limits reusable s input
  generalize s.turn inetPton6 limits reusable input = s' at hturned ⊢
  cases hturned with
  | tooLarge | malformed | last => exact ⟨nofun, nofun, nofun⟩
  | kept => exact within_begin _ _ _
  | waits _ _ hsize =>
    refine ⟨fun _ => ?_, fun _ _ => hsize, nofun⟩
    have hbody := h.body hopen
    dsimp only [sizeAfter]
    rw [RequestParser.held, RequestParser.held, append_progress, append_buffer] at hheld
    omega

/-- A turn without a read takes bytes from the buffer, if another one follows. -/
theorem buffer_turn_lt (hst : s.parser.progress.state = .requestLine)
    (h : (s.turn inetPton6 limits reusable []).parseBuffered = true) :
    (s.turn inetPton6 limits reusable []).parser.buffer.length < s.parser.buffer.length := by
  have hfeed : (machine inetPton6).feed s.parser [] = (machine inetPton6).run s.parser := by
    rw [FeedMachine.feed, (machine inetPton6).append_nil]
  have hturned := turned inetPton6 limits reusable s []
  rw [hfeed] at hturned
  generalize s.turn inetPton6 limits reusable [] = s' at hturned h ⊢
  cases hturned with
  | tooLarge | malformed | last | waits => cases h
  | kept hcomp =>
    have hlt := buffer_lt_of_complete hst hcomp
    rw [begin] at h ⊢
    split_ifs at h ⊢
    exact hlt

theorem bufferedTurns_of_not (h : s.parseBuffered = false) (bound : ℕ) :
    s.bufferedTurns inetPton6 limits reusable bound = s := by
  cases bound with
  | zero => rfl
  | succ bound => rw [bufferedTurns, if_neg (by rw [h]; nofun)]

theorem within_bufferedTurns {bound : ℕ} (h : s.Within limits)
    (hbound : s.parser.buffer.length < bound) :
    (s.bufferedTurns inetPton6 limits reusable bound).Within limits ∧
      (s.bufferedTurns inetPton6 limits reusable bound).parseBuffered = false := by
  induction bound generalizing s with
  | zero => omega
  | succ bound ih =>
    rw [bufferedTurns]
    by_cases hbuffered : s.parseBuffered = true
    · rw [if_pos hbuffered]
      obtain ⟨hopen, hst⟩ := h.buffered hbuffered
      have hwithin := within_turn inetPton6 reusable hopen h []
      by_cases hmore : (s.turn inetPton6 limits reusable []).parseBuffered = true
      · have hlt := buffer_turn_lt hst hmore
        exact ih hwithin (by omega)
      · have hstop := Bool.eq_false_iff.2 hmore
        rw [bufferedTurns_of_not hstop]
        exact ⟨hwithin, hstop⟩
    · rw [if_neg hbuffered]
      exact ⟨h, by simpa using hbuffered⟩

theorem within_read (h : s.Within limits) (hread : s.parseBuffered = false) (piece : Bytes) :
    (s.read inetPton6 limits reusable piece).Within limits ∧
      (s.read inetPton6 limits reusable piece).parseBuffered = false := by
  rw [read]
  by_cases hclosed : s.closed = true
  · rw [if_pos hclosed]
    exact ⟨h, hread⟩
  · rw [if_neg hclosed]
    exact within_bufferedTurns
      (within_turn inetPton6 reusable (by simpa using hclosed) h piece) (Nat.lt_succ_self _)

end Turns

end Session

section Serve

variable {inetPton6 : Bytes → Bool} {limits : ServerLimits} {reusable : ℕ → Bool}

variable (inetPton6 limits reusable) in
theorem within_serveSession (pieces : List Bytes) :
    (serveSession inetPton6 limits reusable pieces).Within limits ∧
      (serveSession inetPton6 limits reusable pieces).parseBuffered = false := by
  induction pieces using reverseRecOn with
  | nil =>
    refine ⟨Session.within_begin _ _ _, ?_⟩
    rw [serveSession, Session.begin]
    split_ifs <;> rfl
  | append_singleton pieces piece ih =>
    rw [serveSession, foldl_append]
    exact Session.within_read ih.1 ih.2 piece

/-- **What the parser holds at any time** is not more than the limit and one read. -/
theorem Session.held_le {pieces : List Bytes} {piece : Bytes} {p : RequestParser}
    (hopen : (serveSession inetPton6 limits reusable pieces).closed = false)
    (h : Session.Holds inetPton6 limits reusable
      (serveSession inetPton6 limits reusable pieces) piece p) :
    p.held ≤ limits.maxRequestSize + piece.length := by
  obtain ⟨hwithin, hread⟩ := within_serveSession inetPton6 limits reusable pieces
  have hbody := hwithin.body hopen
  have hsize := hwithin.size hopen hread
  refine h.held_le.trans ?_
  rw [RequestParser.held, append_progress, append_buffer, length_append]
  omega

end Serve

/-! ### What should become of the requests -/

section Expected

variable (inetPton6 : Bytes → Bool) (limits : ServerLimits) (reusable : ℕ → Bool)

/-- What a parser makes of a message that arrives alone. -/
def requestOf (m : Bytes) : Progress :=
  ((fresh limits.maxHeaders limits.maxHeaderSize).parse inetPton6 m).1.progress

/-- What should become of the messages of a connection, of which `count` have been there before:
they are dispatched, one after another, up to the first that is too large, or the last that the
connection is used for. -/
def expectedEvents : ℕ → List Bytes → List ServerEvent
  | _, [] => []
  | count, m :: messages =>
    if limits.maxKeepAliveRequests ≤ count then []
    else if limits.maxRequestSize < m.length then [payloadTooLarge]
    else
      .dispatched (requestOf inetPton6 limits m) ::
        if reusable count then expectedEvents (count + 1) messages else []

/-- The connection should have ended. -/
def expectedClosed : ℕ → List Bytes → Bool
  | count, [] => limits.maxKeepAliveRequests ≤ count
  | count, m :: messages =>
    limits.maxKeepAliveRequests ≤ count || limits.maxRequestSize < m.length || !reusable count ||
      expectedClosed (count + 1) messages

variable {inetPton6 limits reusable}

/-- The session reads, and has got `v` of the next request. -/
structure Waiting (inetPton6 : Bytes → Bool) (limits : ServerLimits) (s : Session) (count : ℕ)
    (events : List ServerEvent) (v : Bytes) : Prop where
  parser : s.parser =
    (machine inetPton6).feed (fresh limits.maxHeaders limits.maxHeaderSize) v
  size : s.currentRequestSize + s.parser.buffer.length = v.length
  count_eq : s.requestCount = count
  events_eq : s.events = events
  opened : s.closed = false
  buffered : s.parseBuffered = false
  below : count < limits.maxKeepAliveRequests

/-- The session has come to where it should be, with `u` of the messages. -/
inductive Follows (inetPton6 : Bytes → Bool) (limits : ServerLimits) (reusable : ℕ → Bool)
    (s : Session) : ℕ → List ServerEvent → List Bytes → Bytes → Prop
  | waiting {count : ℕ} {events : List ServerEvent} {messages : List Bytes} {v : Bytes} :
      Waiting inetPton6 limits s count events v → (messages = [] → v = []) →
      (∀ m rest, messages = m :: rest → v <+: m ∧ v ≠ m) →
      Follows inetPton6 limits reusable s count events messages v
  | next {count : ℕ} {events : List ServerEvent} {m : Bytes} {messages : List Bytes} {u : Bytes} :
      count < limits.maxKeepAliveRequests → m.length ≤ limits.maxRequestSize →
      reusable count = true →
      Follows inetPton6 limits reusable s (count + 1)
        (events ++ [.dispatched (requestOf inetPton6 limits m)]) messages u →
      Follows inetPton6 limits reusable s count events (m :: messages) (m ++ u)
  | ended {count : ℕ} {events : List ServerEvent} {messages : List Bytes} {u : Bytes} :
      s.closed = true →
      s.events = events ++ expectedEvents inetPton6 limits reusable count messages →
      expectedClosed limits reusable count messages = true →
      Follows inetPton6 limits reusable s count events messages u

variable {s : Session} {count : ℕ} {events : List ServerEvent} {messages : List Bytes}

variable {u m input : Bytes}

/-- A session that has got all messages has done what it should. -/
theorem Follows.all (h : Follows inetPton6 limits reusable s count events messages u)
    (hall : u = messages.flatten) :
    s.events = events ++ expectedEvents inetPton6 limits reusable count messages ∧
      s.closed = expectedClosed limits reusable count messages := by
  induction h with
  | @waiting count events messages v hwaiting hnil hcons =>
    cases messages with
    | nil =>
      refine ⟨by rw [hwaiting.events_eq, expectedEvents, append_nil], ?_⟩
      rw [hwaiting.opened]
      exact (decide_eq_false (Nat.not_le_of_lt hwaiting.below)).symm
    | cons m rest =>
      -- a part of the first message is not all of the messages
      obtain ⟨hstarts, hne⟩ := hcons m rest rfl
      rw [flatten_cons] at hall
      have hlen := hstarts.length_le
      rw [hall, length_append] at hlen
      have hemp : rest.flatten = [] := length_eq_zero_iff.1 (by omega)
      rw [hemp, append_nil] at hall
      exact absurd hall hne
  | @next count events m messages u hbelow hsmall hkeep _ ih =>
    obtain ⟨hevs, hclosed⟩ := ih (append_cancel_left hall)
    rw [hevs, hclosed, expectedEvents, expectedClosed, if_neg (Nat.not_le_of_lt hbelow),
      if_neg (Nat.not_lt_of_le hsmall), hkeep, append_assoc]
    refine ⟨rfl, ?_⟩
    rw [decide_eq_false (Nat.not_le_of_lt hbelow), decide_eq_false (Nat.not_lt_of_le hsmall)]
    rfl
  | ended hclosed hevs hend => exact ⟨hevs, hclosed.trans hend.symm⟩

theorem Follows.of_large (messages : List Bytes) (u : Bytes) (hclosed : s.closed = true)
    (hevs : s.events = events ++ [payloadTooLarge])
    (hbelow : count < limits.maxKeepAliveRequests) (hlarge : limits.maxRequestSize < m.length) :
    Follows inetPton6 limits reusable s count events (m :: messages) u := by
  refine .ended hclosed ?_ ?_
  · rw [hevs, expectedEvents, if_neg (Nat.not_le_of_lt hbelow), if_pos hlarge]
  · rw [expectedClosed, decide_eq_true hlarge, Bool.or_true]
    rfl

/-! ### The loop does what it should -/

/-- What is given of a session for a turn: with its input it has got `u` of the requests that are
left. -/
structure Given (inetPton6 : Bytes → Bool) (limits : ServerLimits) (s : Session) (input u : Bytes) :
    Prop where
  feed : (machine inetPton6).feed s.parser input =
    (machine inetPton6).feed (fresh limits.maxHeaders limits.maxHeaderSize) u
  size : s.currentRequestSize + (s.parser.buffer ++ input).length = u.length

theorem Given.buffer_le (h : Given inetPton6 limits s input u) :
    ((machine inetPton6).feed (fresh limits.maxHeaders limits.maxHeaderSize) u).buffer.length ≤
      (s.parser.buffer ++ input).length := by
  rw [← h.feed]
  exact buffer_run_le inetPton6 (s.parser.append input)

theorem Given.of_waiting {v : Bytes} (h : Waiting inetPton6 limits s count events v) (input : Bytes)
    :
    Given inetPton6 limits s input (v ++ input) where
  feed := by
    rw [h.parser]
    exact FeedMachine.feed_feed (machine_joins inetPton6) _ v input
  size := by
    have hsize := h.size
    rw [length_append, length_append]
    omega

theorem Given.of_begin (hbelow : count < limits.maxKeepAliveRequests) (events : List ServerEvent)
    {p : RequestParser} (hlimits : p.progress.limits = (limits.maxHeaders, limits.maxHeaderSize)) :
    Given inetPton6 limits (.begin limits count events p) [] p.buffer := by
  obtain ⟨hmax, hmaxSize⟩ := Prod.mk.inj hlimits
  rw [Session.begin, if_pos hbelow]
  refine ⟨?_, ?_⟩
  · have hreset : p.reset = (fresh limits.maxHeaders limits.maxHeaderSize).append p.buffer := by
      rw [reset, hmax, hmaxSize]
      rfl
    rw [hreset, FeedMachine.feed, (machine inetPton6).append_nil]
    rfl
  · rw [append_nil, Nat.zero_add]
    rfl

variable (reusable) in
/-- **A part of a request**: it is kept, unless the request is too large. -/
theorem Given.part {r : Bytes} (h : Given inetPton6 limits s input u)
    (hm : IsMessage inetPton6 limits.maxHeaders limits.maxHeaderSize m) (heq : u ++ r = m)
    (hr : r ≠ []) :
    (limits.maxRequestSize < m.length ∧ s.turn inetPton6 limits reusable input =
        s.refuse ((machine inetPton6).feed (fresh limits.maxHeaders limits.maxHeaderSize) u)
          payloadTooLarge) ∨
      s.turn inetPton6 limits reusable input =
        { s with
          parser := (machine inetPton6).feed (fresh limits.maxHeaders limits.maxHeaderSize) u
          parseBuffered := false
          currentRequestSize := s.sizeAfter input
            ((machine inetPton6).feed (fresh limits.maxHeaders limits.maxHeaderSize) u) } := by
  obtain ⟨hne, hinc⟩ := state_of_part hm heq
  have hinc := hinc hr
  have hdeclared := @declared_le inetPton6 limits.maxHeaders limits.maxHeaderSize u r m hm heq
  have hlen : u.length ≤ m.length := by
    rw [← heq, length_append]
    exact Nat.le_add_right _ _
  have hheld := held_feed_le inetPton6 limits.maxHeaders limits.maxHeaderSize u
  have hbuf := h.buffer_le
  have hturned := Session.turned inetPton6 limits reusable s input
  generalize s.turn inetPton6 limits reusable input = s' at hturned ⊢
  rw [h.feed] at hturned
  have hsize := h.size
  cases hturned with
  | tooLarge hlarge =>
    refine .inl ⟨?_, rfl⟩
    rw [if_neg hinc, Session.sizeAfter] at hlarge
    rw [RequestParser.held] at hheld
    rcases hlarge with ⟨n, hn, hlarge⟩ | hlarge | hlarge
    · exact hlarge.trans_le (hdeclared hn)
    · omega
    · omega
  | malformed herr => exact absurd herr hne
  | kept hcomp | last hcomp => exact absurd hcomp hinc
  | waits => exact .inr rfl

variable (reusable) in
/-- **A whole request**: it is dispatched, unless it is too large. -/
theorem Given.whole {e : Bytes} (h : Given inetPton6 limits s input (m ++ e))
    (hm : IsMessage inetPton6 limits.maxHeaders limits.maxHeaderSize m) :
    ∃ q : RequestParser, q.buffer = e ∧
      q.progress.limits = (limits.maxHeaders, limits.maxHeaderSize) ∧
      s.turn inetPton6 limits reusable input =
        if limits.maxRequestSize < m.length then s.refuse q payloadTooLarge
        else if reusable s.requestCount then
          .begin limits (s.requestCount + 1)
            (s.events ++ [.dispatched (requestOf inetPton6 limits m)]) q
        else
          { s with
            parser := q
            parseBuffered := false
            closed := true
            events := s.events ++ [.dispatched (requestOf inetPton6 limits m)] } := by
  have hdeclared := @declared_le inetPton6 limits.maxHeaders limits.maxHeaderSize m [] m hm
    (append_nil m)
  have hheld := held_feed_le inetPton6 limits.maxHeaders limits.maxHeaderSize m
  obtain ⟨hcomp, hprog, hleft, -⟩ := hm.feed_append e
  have hrequest : requestOf inetPton6 limits m = _ := hprog.symm
  rw [parse_eq] at hprog
  rw [RequestParser.held, ← hprog] at hheld
  rw [← hprog] at hdeclared
  have hlimits := @limits_feed inetPton6 limits.maxHeaders limits.maxHeaderSize (m ++ e)
  have hbuf := h.buffer_le
  have hsize := h.size
  have hturned := Session.turned inetPton6 limits reusable s input
  generalize s.turn inetPton6 limits reusable input = s' at hturned ⊢
  rw [h.feed] at hturned
  rw [hrequest]
  generalize (machine inetPton6).feed (fresh limits.maxHeaders limits.maxHeaderSize) (m ++ e) = q
    at *
  refine ⟨q, hleft, hlimits, ?_⟩
  have hafter : s.sizeAfter input q = m.length := by
    have htot : (m ++ e).length = m.length + e.length := length_append
    rw [hleft] at hbuf
    rw [Session.sizeAfter, hleft]
    omega
  cases hturned with
  | tooLarge hlarge =>
    rw [if_pos hcomp] at hlarge
    rw [if_pos]
    rcases hlarge with ⟨n, hn, hlarge⟩ | hlarge | hlarge
    · exact hlarge.trans_le (hdeclared hn)
    · omega
    · omega
  | malformed herr => cases hcomp.symm.trans herr
  | kept _ hsmall hkeep =>
    rw [hafter] at hsmall
    rw [if_neg (Nat.not_lt_of_le hsmall), if_pos hkeep]
  | last _ hsmall hkeep =>
    rw [hafter] at hsmall
    rw [if_neg (Nat.not_lt_of_le hsmall), if_neg (by rw [hkeep]; nofun)]
  | waits hinc => exact absurd hcomp hinc

theorem IsMessage.ne_nil {maxHeaders maxHeaderSize : ℕ}
    (hm : IsMessage inetPton6 maxHeaders maxHeaderSize m) : m ≠ [] := by
  rintro rfl
  exact absurd (buffer_lt_of_complete (p := (fresh maxHeaders maxHeaderSize).append [])
    rfl hm.feed.1) (Nat.not_lt_zero _)

variable (reusable) in
/-- A turn that leaves a part of a request, or finds it too large. -/
theorem Given.follows_part {r : Bytes} (messages : List Bytes)
    (h : Given inetPton6 limits s input u)
    (hm : IsMessage inetPton6 limits.maxHeaders limits.maxHeaderSize m) (heq : u ++ r = m)
    (hr : r ≠ []) (hbelow : s.requestCount < limits.maxKeepAliveRequests) (hopen : s.closed = false) :
    (s.turn inetPton6 limits reusable input).parseBuffered = false ∧
      Follows inetPton6 limits reusable (s.turn inetPton6 limits reusable input) s.requestCount
        s.events (m :: messages) u := by
  have hbuf := h.buffer_le
  have hsize := h.size
  rcases h.part reusable hm heq hr with ⟨hlarge, hturn⟩ | hturn
  · rw [hturn]
    exact ⟨rfl, .of_large messages u rfl rfl hbelow hlarge⟩
  · rw [hturn]
    refine ⟨rfl, .waiting ⟨rfl, ?_, rfl, rfl, hopen, rfl, hbelow⟩ nofun ?_⟩
    · dsimp only [Session.sizeAfter]
      omega
    · rintro m' rest heq'
      cases heq'
      refine ⟨⟨r, heq⟩, fun hsame => hr ?_⟩
      rw [hsame] at heq
      exact append_cancel_left (heq.trans (append_nil m).symm)

theorem Session.buffer_begin (count : ℕ) (events : List ServerEvent) (q : RequestParser) :
    (Session.begin limits count events q).parser.buffer = q.buffer := by
  rw [Session.begin]
  split_ifs <;> rfl

theorem Given.buffer_whole {e : Bytes} (h : Given inetPton6 limits s input (m ++ e))
    (hm : IsMessage inetPton6 limits.maxHeaders limits.maxHeaderSize m) :
    (s.turn inetPton6 limits reusable input).parser.buffer = e := by
  obtain ⟨q, hq, -, hturn⟩ := h.whole reusable hm
  rw [hturn]
  split_ifs
  · exact hq
  · rw [Session.buffer_begin, hq]
  · exact hq

/-- **The loop does what it should with the next messages**, if it does so with those behind the
first. -/
theorem Given.follows (h : Given inetPton6 limits s input u)
    (hm : IsMessage inetPton6 limits.maxHeaders limits.maxHeaderSize m)
    (hstarts : u <+: (m :: messages).flatten) (hopen : s.closed = false)
    (hbelow : s.requestCount < limits.maxKeepAliveRequests) {bound : ℕ}
    (hbound : ∀ e, u = m ++ e → e.length < bound)
    (hrest : ∀ (count : ℕ) (events : List ServerEvent) (q : RequestParser),
      q.progress.limits = (limits.maxHeaders, limits.maxHeaderSize) →
      q.buffer <+: messages.flatten → q.buffer.length < bound →
      Follows inetPton6 limits reusable
        ((Session.begin limits count events q).bufferedTurns inetPton6 limits reusable bound) count
        events messages q.buffer) :
    Follows inetPton6 limits reusable
      ((s.turn inetPton6 limits reusable input).bufferedTurns inetPton6 limits reusable bound)
      s.requestCount s.events (m :: messages) u := by
  rw [flatten_cons] at hstarts
  by_cases hwhole : m <+: u
  · obtain ⟨e, rfl⟩ := hwhole
    have hbehind : e <+: messages.flatten := (prefix_append_right_inj m).1 hstarts
    obtain ⟨q, hq, hlimits, hturn⟩ := h.whole reusable hm
    rw [hturn]
    by_cases hlarge : limits.maxRequestSize < m.length
    · rw [if_pos hlarge, Session.bufferedTurns_of_not rfl]
      exact .of_large messages _ rfl rfl hbelow hlarge
    · rw [if_neg hlarge]
      by_cases hkeep : reusable s.requestCount = true
      · rw [if_pos hkeep]
        refine .next hbelow (Nat.not_lt.1 hlarge) hkeep ?_
        have hfollows := hrest (s.requestCount + 1)
          (s.events ++ [.dispatched (requestOf inetPton6 limits m)]) q hlimits
          (by rw [hq]; exact hbehind) (by rw [hq]; exact hbound e rfl)
        rwa [hq] at hfollows
      · rw [if_neg hkeep, Session.bufferedTurns_of_not rfl]
        refine .ended rfl ?_ ?_
        · rw [expectedEvents, if_neg (Nat.not_le_of_lt hbelow), if_neg hlarge, if_neg hkeep]
        · have hlast : reusable s.requestCount = false := by simpa using hkeep
          rw [expectedClosed, hlast, Bool.not_false, Bool.or_true]
          rfl
  · -- the input ends before the request does
    rcases prefix_or_prefix_of_prefix hstarts (prefix_append m messages.flatten) with
      hpart | hwhole'
    · obtain ⟨r, heq⟩ := hpart
      have hr : r ≠ [] := by
        rintro rfl
        rw [append_nil] at heq
        exact hwhole (heq ▸ prefix_rfl)
      obtain ⟨hbuffered, hfollows⟩ := h.follows_part reusable messages hm heq hr hbelow hopen
      rwa [Session.bufferedTurns_of_not hbuffered]
    · exact absurd hwhole' hwhole

/-- The loop ends when the connection has had all its requests. -/
theorem follows_begin_of_not (hbelow : ¬ count < limits.maxKeepAliveRequests)
    (messages : List Bytes) (events : List ServerEvent) (q : RequestParser) (bound : ℕ) :
    Follows inetPton6 limits reusable
      ((Session.begin limits count events q).bufferedTurns inetPton6 limits reusable bound) count
      events messages q.buffer := by
  have hclosed : Session.begin limits count events q = ⟨q, false, 0, count, true, events⟩ := by
    rw [Session.begin, if_neg hbelow]
  rw [hclosed, Session.bufferedTurns_of_not rfl]
  have hmax : limits.maxKeepAliveRequests ≤ count := Nat.not_lt.1 hbelow
  cases messages with
  | nil => exact .ended rfl (append_nil _).symm (decide_eq_true hmax)
  | cons m messages =>
    refine .ended rfl ?_ ?_
    · rw [expectedEvents, if_pos hmax, append_nil]
    · rw [expectedClosed, decide_eq_true hmax]
      rfl

section

variable (hmessages : ∀ m ∈ messages, IsMessage inetPton6 limits.maxHeaders limits.maxHeaderSize m)

include hmessages

/-- The loop reads when nothing is buffered. -/
theorem follows_begin_of_nil (hbelow : count < limits.maxKeepAliveRequests)
    (events : List ServerEvent) {q : RequestParser}
    (hlimits : q.progress.limits = (limits.maxHeaders, limits.maxHeaderSize))
    (hemp : q.buffer = []) (bound : ℕ) :
    Follows inetPton6 limits reusable
      ((Session.begin limits count events q).bufferedTurns inetPton6 limits reusable bound) count
      events messages q.buffer := by
  obtain ⟨hmax, hsize⟩ := Prod.mk.inj hlimits
  have hreset : q.reset = fresh limits.maxHeaders limits.maxHeaderSize := by
    rw [reset, hmax, hsize, hemp]
    rfl
  have hfresh : (machine inetPton6).feed (fresh limits.maxHeaders limits.maxHeaderSize) [] =
      fresh limits.maxHeaders limits.maxHeaderSize :=
    FeedMachine.run_of_none rfl
  have hbegin : Session.begin limits count events q =
      ⟨fresh limits.maxHeaders limits.maxHeaderSize, false, 0, count, false, events⟩ := by
    rw [Session.begin, if_pos hbelow, hreset]
    rfl
  rw [hbegin, Session.bufferedTurns_of_not rfl, hemp]
  refine .waiting ⟨hfresh.symm, rfl, rfl, rfl, rfl, rfl, hbelow⟩ (fun _ => rfl) ?_
  rintro m rest rfl
  exact ⟨List.nil_prefix, fun hnil => (hmessages m (mem_cons_self ..)).ne_nil hnil.symm⟩

variable (reusable) in
/-- **The loop does what it should from the beginning of a request.** -/
theorem follows_begin (count : ℕ) (events : List ServerEvent) {q : RequestParser}
    (hlimits : q.progress.limits = (limits.maxHeaders, limits.maxHeaderSize))
    (hstarts : q.buffer <+: messages.flatten) {bound : ℕ} (hbound : q.buffer.length < bound) :
    Follows inetPton6 limits reusable
      ((Session.begin limits count events q).bufferedTurns inetPton6 limits reusable bound) count
      events messages q.buffer := by
  induction messages generalizing count events q bound with
  | nil =>
    by_cases hbelow : count < limits.maxKeepAliveRequests
    · exact follows_begin_of_nil hmessages hbelow events hlimits (prefix_nil.1 hstarts) bound
    · exact follows_begin_of_not hbelow [] events q bound
  | cons m messages ih =>
    by_cases hbelow : count < limits.maxKeepAliveRequests
    swap
    · exact follows_begin_of_not hbelow _ events q bound
    by_cases hemp : q.buffer = []
    · exact follows_begin_of_nil hmessages hbelow events hlimits hemp bound
    obtain ⟨hm, hmessages'⟩ := forall_mem_cons.1 hmessages
    have hpos : 0 < q.buffer.length := length_pos_iff.2 hemp
    have hbegin : Session.begin limits count events q =
        ⟨q.reset, true, 0, count, false, events⟩ := by
      rw [Session.begin, if_pos hbelow]
      exact congrArg (fun b => Session.mk q.reset b 0 count false events) (decide_eq_true hpos)
    obtain ⟨bound, rfl⟩ : ∃ b, bound = b + 1 := ⟨bound - 1, by omega⟩
    have hgiven : Given inetPton6 limits (.begin limits count events q) [] q.buffer :=
      .of_begin hbelow events hlimits
    rw [Session.bufferedTurns, hbegin]
    rw [hbegin] at hgiven
    refine hgiven.follows hm hstarts rfl hbelow (fun e he => ?_)
      fun count events q hq hq' => ih hmessages' count events hq hq'
    have hlen := congrArg length he
    have hmpos : 0 < m.length := length_pos_iff.2 hm.ne_nil
    rw [length_append] at hlen
    omega

/-- **A read keeps the session where it should be.** -/
theorem Follows.read (h : Follows inetPton6 limits reusable s count events messages u)
    {piece : Bytes} (hpiece : piece ≠ []) (hstarts : u ++ piece <+: messages.flatten) :
    Follows inetPton6 limits reusable (s.read inetPton6 limits reusable piece) count events messages
      (u ++ piece) := by
  induction h with
  | @waiting count events messages v hwaiting hnil hcons =>
    cases messages with
    | nil =>
      have hboth : v ++ piece = [] := prefix_nil.1 hstarts
      exact absurd (append_eq_nil_iff.1 hboth).2 hpiece
    | cons m messages =>
      obtain ⟨hm, hmessages'⟩ := forall_mem_cons.1 hmessages
      have hgiven := Given.of_waiting hwaiting piece
      rw [Session.read, if_neg (by rw [hwaiting.opened]; nofun), ← hwaiting.count_eq,
        ← hwaiting.events_eq]
      refine hgiven.follows hm hstarts hwaiting.opened
        (by rw [hwaiting.count_eq]; exact hwaiting.below) (fun e he => ?_)
        fun count events q hq hq' => follows_begin reusable hmessages' count events hq hq'
      rw [he] at hgiven
      rw [hgiven.buffer_whole hm]
      exact Nat.lt_succ_self _
  | @next count events m messages u hbelow hsmall hkeep _ ih =>
    rw [append_assoc] at hstarts ⊢
    exact .next hbelow hsmall hkeep
      (ih (forall_mem_cons.1 hmessages).2 ((prefix_append_right_inj m).1 hstarts))
  | ended hclosed hevs hend =>
    rw [Session.read, if_pos hclosed]
    exact .ended hclosed hevs hend

variable (reusable) in
/-- **The loop does what it should with the messages of a connection**, however they are read. -/
theorem follows_serveSession {pieces : List Bytes} (hpieces : ∀ piece ∈ pieces, piece ≠ [])
    (hstarts : pieces.flatten <+: messages.flatten) :
    Follows inetPton6 limits reusable (serveSession inetPton6 limits reusable pieces) 0 [] messages
      pieces.flatten := by
  induction pieces using reverseRecOn with
  | nil =>
    have hbegin := follows_begin reusable hmessages 0 []
      (q := fresh limits.maxHeaders limits.maxHeaderSize) rfl nil_prefix (Nat.lt_succ_self _)
    rw [Session.bufferedTurns_of_not] at hbegin
    · exact hbegin
    · rw [Session.begin]
      split_ifs <;> rfl
  | append_singleton pieces piece ih =>
    have hflat : (pieces ++ [piece]).flatten = pieces.flatten ++ piece := by
      rw [flatten_append, flatten_singleton]
    rw [hflat] at hstarts ⊢
    have hpre := ih (fun p hp => hpieces p (mem_append_left _ hp))
      ((prefix_append _ _).trans hstarts)
    rw [serveSession, foldl_append]
    exact hpre.read hmessages (hpieces piece (by simp)) hstarts

end

/-! ### The limit is exact -/

/-- The loop gets to the message behind these: they are small enough, and the connection is used
again after each of them. -/
structure Reached (limits : ServerLimits) (reusable : ℕ → Bool) (before : List Bytes) : Prop where
  small : ∀ m ∈ before, m.length ≤ limits.maxRequestSize
  below : before.length < limits.maxKeepAliveRequests
  kept : ∀ j < before.length, reusable j = true

variable (inetPton6 reusable) in
theorem expectedEvents_append {before : List Bytes} (rest : List Bytes) (count : ℕ)
    (hsmall : ∀ m ∈ before, m.length ≤ limits.maxRequestSize)
    (hbelow : count + before.length < limits.maxKeepAliveRequests)
    (hkept : ∀ j < before.length, reusable (count + j) = true) :
    expectedEvents inetPton6 limits reusable count (before ++ rest) =
      before.map (fun m => .dispatched (requestOf inetPton6 limits m)) ++
        expectedEvents inetPton6 limits reusable (count + before.length) rest ∧
    expectedClosed limits reusable count (before ++ rest) =
      expectedClosed limits reusable (count + before.length) rest := by
  induction before generalizing count with
  | nil => exact ⟨rfl, rfl⟩
  | cons m before ih =>
    rw [length_cons] at hbelow hkept
    have hfst : reusable count = true := hkept 0 (Nat.succ_pos _)
    obtain ⟨hm, hrest⟩ := forall_mem_cons.1 hsmall
    obtain ⟨hevs, hclosed⟩ := ih (count + 1) hrest (by omega) (fun j hj => by
        rw [Nat.add_assoc, Nat.add_comm 1 j]
        exact hkept (j + 1) (by omega))
    have hcnt : count + (m :: before).length = count + 1 + before.length := by
      rw [length_cons]
      omega
    rw [hcnt, ← hclosed, map_cons, cons_append, cons_append, ← hevs]
    refine ⟨?_, ?_⟩
    · rw [expectedEvents, if_neg (by omega), if_neg (Nat.not_lt_of_le hm), if_pos hfst]
    · rw [expectedClosed, hfst, decide_eq_false (by omega), decide_eq_false (Nat.not_lt_of_le hm)]
      rfl

variable (inetPton6 limits reusable) in
/-- **The limit on the size of a request is exact, and does not depend on how the bytes are read.**
For messages that a parser completes and consumes whole, in reads of any sizes:

* the loop does with them what it should: it dispatches them in order, each as a parser reads it
  that gets it alone, up to the first that is too large or the last that the connection is used for;
* a message that the loop gets to is dispatched if and only if its own size is within the limit, and
  otherwise it is answered with 413 and the connection ends;
* at no time does the parser hold more than the limit and one read buffer. -/
theorem request_size_limit_exact (messages : List Bytes)
    (hmessages : ∀ m ∈ messages, IsMessage inetPton6 limits.maxHeaders limits.maxHeaderSize m)
    (pieces : List Bytes)
    (hpieces : ∀ piece ∈ pieces, piece ≠ [] ∧ piece.length ≤ max 1 limits.readBufferSize)
    (hflat : pieces.flatten = messages.flatten) :
    let served := serveSession inetPton6 limits reusable pieces
    served.events = expectedEvents inetPton6 limits reusable 0 messages ∧
      (∀ before m after, messages = before ++ m :: after → Reached limits reusable before →
        (m.length ≤ limits.maxRequestSize ↔
          served.events[before.length]? = some (.dispatched (requestOf inetPton6 limits m))) ∧
        (limits.maxRequestSize < m.length →
          served.events = before.map (fun m => .dispatched (requestOf inetPton6 limits m)) ++
            [payloadTooLarge] ∧ served.closed = true)) ∧
      ∀ before piece after p, pieces = before ++ piece :: after →
        (serveSession inetPton6 limits reusable before).closed = false →
        Session.Holds inetPton6 limits reusable (serveSession inetPton6 limits reusable before) piece
          p →
        p.buffer.length + p.progress.body.length ≤
          limits.maxRequestSize + max 1 limits.readBufferSize := by
  have hfollows := follows_serveSession reusable hmessages
    (fun piece hpiece => (hpieces piece hpiece).1) (hflat ▸ prefix_rfl)
  obtain ⟨hevents, hclosed⟩ := hfollows.all hflat
  rw [nil_append] at hevents
  refine ⟨hevents, ?_, ?_⟩
  · rintro before m after rfl hreached
    obtain ⟨hsplit, hend⟩ := expectedEvents_append inetPton6 reusable (m :: after) 0
      hreached.small (by rw [Nat.zero_add]; exact hreached.below)
      (fun j hj => by rw [Nat.zero_add]; exact hreached.kept j hj)
    rw [Nat.zero_add] at hsplit hend
    rw [hevents, hsplit]
    have hbelow : ¬ limits.maxKeepAliveRequests ≤ before.length := Nat.not_le_of_lt hreached.below
    have hat : ∀ rest : List ServerEvent,
        (before.map (fun m => ServerEvent.dispatched (requestOf inetPton6 limits m)) ++
          rest)[before.length]? = rest[0]? := by
      intro rest
      rw [getElem?_append_right (by rw [length_map]), length_map, Nat.sub_self]
    rw [hat, expectedEvents, if_neg hbelow]
    refine ⟨?_, fun hlarge => ?_⟩
    · by_cases hlarge : limits.maxRequestSize < m.length
      · rw [if_pos hlarge]
        refine ⟨fun hsmall => absurd hsmall (Nat.not_le_of_lt hlarge), fun hdispatched => ?_⟩
        cases hdispatched
      · rw [if_neg hlarge]
        exact ⟨fun _ => rfl, fun _ => Nat.not_lt.1 hlarge⟩
    · rw [if_pos hlarge]
      refine ⟨rfl, ?_⟩
      rw [hclosed, hend, expectedClosed, decide_eq_true hlarge, Bool.or_true]
      rfl
  · rintro before piece after p rfl hopen hholds
    have hheld := Session.held_le hopen hholds
    have hsize := (hpieces piece (by simp)).2
    rw [RequestParser.held] at hheld
    omega

end Expected

/-- A request that is small enough and one that is not, in two reads that do not end where the
requests do. -/
theorem request_size_limit_exact_get_post :
    let first := text "GET /a HTTP/1.1\r\nHost: a\r\n\r\n"
    let second := text "POST /b HTTP/1.0\r\nContent-Length: 2\r\n\r\nhi"
    let limits : ServerLimits := ⟨30, 64, 8, 64, 100⟩
    (serveSession (fun _ => true) limits (fun _ => true)
      [first ++ second.take 10, second.drop 10]).events =
        [.dispatched (requestOf (fun _ => true) limits first), .refused 413 "Payload Too Large"] := by
  intro first second limits
  have hmessages : ∀ m ∈ [first, second], IsMessage (fun _ => true) 8 64 m := by
    intro m hm
    rcases mem_cons.1 hm with rfl | hm
    · rw [IsMessage]
      decide +kernel
    · rw [mem_singleton.1 hm, IsMessage]
      decide +kernel
  have hexact := request_size_limit_exact (fun _ => true) limits (fun _ => true) [first, second]
    hmessages [first ++ second.take 10, second.drop 10] (by decide +kernel) (by decide +kernel)
  obtain ⟨-, hlimit, -⟩ := hexact
  have hreached : Reached limits (fun _ => true) [first] :=
    ⟨by decide +kernel, by decide, fun _ _ => rfl⟩
  exact ((hlimit [first] second [] rfl hreached).2 (by decide +kernel)).1

end Elio.Http
