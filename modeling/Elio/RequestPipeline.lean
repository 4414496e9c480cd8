/-
**Requests one after another.**

`handle_requests` of `http/http_server.hpp` uses one parser for all requests of a connection.
Before each request it calls `reset`, which keeps the bytes that have been read and not consumed,
and parses those bytes before it reads again.  What the loop does with the parser is modelled here;
that it goes on after a request (the connection is kept alive, and no limit of the server is
reached) is taken for granted, and a request is what the members of the parser say when it is
complete.

What the loop makes of the bytes of a connection is compared with what it makes of them when they
arrive all at once.  The relation `Settles` says the latter: the parser runs, and whenever a
request is complete the parser is reset and runs again on what is left.

Main definitions:

* `Settles` — the requests in a parser's input, and what is left.

Main results:

* `Settles.append` — **reading the rest later makes no difference**;
* `serve_settles` — what the loop has done after some reads;
* `serve_messages` — **requests that arrive one after another are those that would arrive alone**,
  however the bytes are cut.
-/

import Elio.RequestFraming

set_option autoImplicit false

namespace Elio.Http

open RequestParser
open List

variable (inetPton6 : Bytes → Bool)

/-! ### The loop -/

/-- The variables of `handle_requests`. -/
structure Connection where
  parser : RequestParser
  parseBuffered : Bool
  /-- The function has returned, with a response that says why. -/
  returned : Bool
  /-- The requests that were complete, in order. -/
  requests : List Progress
  deriving DecidableEq, Repr

namespace Connection

/-- Before the first read. -/
def opened (maxHeaders maxHeaderSize : ℕ) : Connection where
  parser := (fresh maxHeaders maxHeaderSize).reset
  parseBuffered := false
  returned := false
  requests := []

/-- One turn of the inner loop.  When the request is complete, the outer loop begins its next turn.
-/
def turn (c : Connection) (input : Bytes) : Connection :=
  let (parser, result, _) := c.parser.parse inetPton6 input
  if result = .error then { c with parser := parser, parseBuffered := false, returned := true }
  else if parser.progress.state = .complete then
    { c with
      parser := parser.reset
      parseBuffered := parser.reset.buffer.length > 0
      requests := c.requests ++ [parser.progress] }
  else { c with parser := parser, parseBuffered := false }

open RequestParser (turn)

/-- The turns of the inner loop that need no read. -/
def bufferedTurns : ℕ → Connection → Connection
  | 0, c => c
  | bound + 1, c => if c.parseBuffered then bufferedTurns bound (c.turn inetPton6 []) else c

/-- A read has returned `piece`, and the loop goes on until it reads again.  Every turn without a
read consumes a byte, so the bound is never reached. -/
def read (c : Connection) (piece : Bytes) : Connection :=
  if c.returned then c
  else bufferedTurns inetPton6 ((c.turn inetPton6 piece).parser.buffer.length + 1)
    (c.turn inetPton6 piece)

end Connection

/-- `handle_requests`, with the reads returning the pieces. -/
def serve (maxHeaders maxHeaderSize : ℕ) (pieces : List Bytes) : Connection :=
  pieces.foldl (Connection.read inetPton6) (.opened maxHeaders maxHeaderSize)

/-! ### The requests in the input of a parser -/

/-- The parser runs, and is reset whenever a request is complete: the requests, and the parser at
the end. -/
inductive Settles : RequestParser → List Progress → RequestParser → Prop
  | stop {p : RequestParser} : ((machine inetPton6).run p).progress.state ≠ .complete →
      Settles p [] ((machine inetPton6).run p)
  | next {p r : RequestParser} {requests : List Progress} :
      ((machine inetPton6).run p).progress.state = .complete →
      Settles ((machine inetPton6).run p).reset requests r →
      Settles p (((machine inetPton6).run p).progress :: requests) r

variable {inetPton6} {requests : List Progress}

/-- Only the run counts. -/
theorem Settles.congr {p p' r : RequestParser} (h : Settles inetPton6 p requests r)
    (hrun : (machine inetPton6).run p = (machine inetPton6).run p') :
    Settles inetPton6 p' requests r := by
  cases h with
  | stop hstop =>
    rw [hrun] at hstop ⊢
    exact .stop hstop
  | next hcomp hrest =>
    rw [hrun] at hcomp hrest ⊢
    exact .next hcomp hrest

theorem Settles.unique {p r r' : RequestParser} {requests' : List Progress}
    (h : Settles inetPton6 p requests r) (h' : Settles inetPton6 p requests' r') :
    requests = requests' ∧ r = r' := by
  induction h generalizing requests' with
  | stop hstop =>
    cases h' with
    | stop => exact ⟨rfl, rfl⟩
    | next hcomp => exact absurd hcomp hstop
  | next hcomp _ ih =>
    cases h' with
    | stop hstop => exact absurd hcomp hstop
    | next _ hrest =>
      obtain ⟨rfl, rfl⟩ := ih hrest
      exact ⟨rfl, rfl⟩

variable {p : RequestParser}

theorem run_append_of_complete
    (h : ((machine inetPton6).run p).progress.state = .complete) (d : Bytes) :
    (machine inetPton6).run (p.append d) = ((machine inetPton6).run p).append d := by
  have hjoin : (machine inetPton6).run (((machine inetPton6).run p).append d) =
      (machine inetPton6).run (p.append d) :=
    FeedMachine.run_append_run (machine_joins inetPton6) p d
  rw [← hjoin]
  exact run_of_complete h

/-- **Reading the rest later makes no difference.** -/
theorem Settles.append {p r r' : RequestParser} {requests' : List Progress} {d : Bytes}
    (h : Settles inetPton6 p requests r) (h' : Settles inetPton6 (r.append d) requests' r') :
    Settles inetPton6 (p.append d) (requests ++ requests') r' := by
  induction h with
  | @stop p _ =>
    exact h'.congr (FeedMachine.run_append_run (machine_joins inetPton6) p d)
  | @next p r requests hcomp _ ih =>
    have hrun := run_append_of_complete hcomp d
    have hrest := ih h'
    -- the rest stands behind what the reset has left in the buffer
    have hreset : ((machine inetPton6).run p).reset.append d =
        ((machine inetPton6).run (p.append d)).reset := by rw [hrun]; rfl
    rw [hreset] at hrest
    have hprog : ((machine inetPton6).run p).progress =
        ((machine inetPton6).run (p.append d)).progress := by rw [hrun]; rfl
    rw [hprog]
    refine .next ?_ hrest
    rw [hrun]
    exact hcomp

/-! ### The loop and the relation -/

variable (inetPton6) in
theorem parse_result_error {d : Bytes} :
    (p.parse inetPton6 d).2.1 = .error ↔
      ((machine inetPton6).feed p d).progress.state = .error := by
  rw [parse_eq, finalResult]
  cases ((machine inetPton6).feed p d).progress.state <;> simp

/-- A turn of the loop, by what the run of the parser has come to. -/
theorem Connection.turn_eq (c : Connection) (d : Bytes) :
    c.turn inetPton6 d =
      if ((machine inetPton6).feed c.parser d).progress.state = .error then
        { c with
          parser := (machine inetPton6).feed c.parser d
          parseBuffered := false
          returned := true }
      else if ((machine inetPton6).feed c.parser d).progress.state = .complete then
        { c with
          parser := ((machine inetPton6).feed c.parser d).reset
          parseBuffered := ((machine inetPton6).feed c.parser d).buffer.length > 0
          requests := c.requests ++ [((machine inetPton6).feed c.parser d).progress] }
      else { c with parser := (machine inetPton6).feed c.parser d, parseBuffered := false } := by
  have herr := parse_result_error inetPton6 (p := c.parser) (d := d)
  rw [Connection.turn]
  rw [parse_eq] at herr ⊢
  simp only [herr]
  rfl

theorem buffer_lt_of_complete (hst : p.progress.state = .requestLine)
    (h : ((machine inetPton6).run p).progress.state = .complete) :
    ((machine inetPton6).run p).buffer.length < p.buffer.length := by
  obtain ⟨-, hwaits, hrun⟩ := turn_of_complete h (by rw [hst]; nofun)
  cases hfind : findCrlf p.buffer with
  | none => simp [waits, hst, hfind] at hwaits
  | some n =>
    have hn := findCrlf_lt_length hfind
    have hturn : p.turn inetPton6 =
        p.handled n (p.progress.requestLine inetPton6 (p.buffer.take n)) := by
      simp only [turn, hst, parseRequestLine, hfind]
    have hok : (p.progress.requestLine inetPton6 (p.buffer.take n)).state ≠ .error := by
      have := ne_error_of_complete (hrun ▸ h)
      rwa [hturn, handled_state] at this
    have hle := buffer_run_le inetPton6 (p.turn inetPton6)
    rw [hrun]
    rw [hturn, handled, if_neg hok, length_drop] at hle
    rw [hturn, handled, if_neg hok]
    omega

/-- What the loop has come to when it reads again: `r` is where the parser settles. -/
structure Settled (c : Connection) (before : List Progress) (requests : List Progress)
    (r : RequestParser) : Prop where
  requests_eq : c.requests = before ++ requests
  parser_eq : c.parser = r
  buffered : c.parseBuffered = false
  returned_iff : c.returned = true ↔ r.progress.state = .error

variable {c : Connection}

theorem bufferedTurns_of_not (h : c.parseBuffered = false) (bound : ℕ) :
    c.bufferedTurns inetPton6 bound = c := by
  cases bound <;> simp [Connection.bufferedTurns, h]

/-- **A turn settles the parser**, if the turns after a complete request do so. -/
theorem turn_settled (hret : c.returned = false) (d : Bytes) (bound : ℕ)
    (hmore : ((machine inetPton6).feed c.parser d).progress.state = .complete → ∃ requests r,
      Settles inetPton6 (c.turn inetPton6 d).parser requests r ∧ Settled
        ((c.turn inetPton6 d).bufferedTurns inetPton6 bound) (c.turn inetPton6 d).requests requests
        r) :
    ∃ requests r, Settles inetPton6 (c.parser.append d) requests r ∧
      Settled ((c.turn inetPton6 d).bufferedTurns inetPton6 bound) c.requests requests r := by
  rw [Connection.turn_eq] at hmore ⊢
  split_ifs at hmore ⊢ with herr hcomp
  · refine ⟨[], _, .stop fun hcomp => ?_, ?_⟩
    · cases herr.symm.trans hcomp
    · rw [bufferedTurns_of_not rfl]
      exact ⟨(append_nil _).symm, rfl, rfl, fun _ => herr, fun _ => rfl⟩
  · obtain ⟨requests, r, hsettles, hsettled⟩ := hmore hcomp
    exact ⟨_ :: requests, r, .next hcomp hsettles,
      { hsettled with requests_eq := hsettled.requests_eq.trans (append_assoc ..) }⟩
  · refine ⟨[], _, .stop hcomp, ?_⟩
    rw [bufferedTurns_of_not rfl]
    refine ⟨(append_nil _).symm, rfl, rfl, ?_⟩
    rw [hret]
    exact ⟨nofun, fun h => absurd h herr⟩

/-- The turns without a read settle the parser. -/
theorem bufferedTurns_settled (bound : ℕ) (hbound : c.parser.buffer.length < bound)
    (hst : c.parser.progress.state = .requestLine)
    (hbuffered : c.parseBuffered = decide (c.parser.buffer.length > 0))
    (hret : c.returned = false) :
    ∃ requests r, Settles inetPton6 c.parser requests r ∧
      Settled (c.bufferedTurns inetPton6 bound) c.requests requests r := by
  induction bound generalizing c with
  | zero => omega
  | succ bound ih =>
    rw [Connection.bufferedTurns]
    by_cases hemp : c.parser.buffer.length > 0
    · rw [if_pos (by rw [hbuffered]; exact decide_eq_true hemp)]
      have hnil : c.parser.append [] = c.parser := (machine inetPton6).append_nil _
      rw [← hnil]
      refine turn_settled hret [] bound fun hcomp => ?_
      have hlt := buffer_lt_of_complete (p := c.parser.append []) hst hcomp
      rw [append_buffer, append_nil] at hlt
      rw [Connection.turn_eq, if_neg (by rw [hcomp]; simp), if_pos hcomp]
      exact ih (hlt.trans_le (Nat.le_of_lt_succ hbound)) rfl rfl hret
    · -- nothing is buffered, and the loop reads
      have hfalse : c.parseBuffered = false := by rw [hbuffered]; exact decide_eq_false hemp
      have hnil : c.parser.buffer = [] := length_eq_zero_iff.1 (by omega)
      have hrun : (machine inetPton6).run c.parser = c.parser :=
        FeedMachine.run_of_none (show c.parser.advance inetPton6 = none by simp [advance, hnil])
      rw [hfalse, if_neg Bool.false_ne_true]
      refine ⟨[], (machine inetPton6).run c.parser, .stop (by rw [hrun, hst]; simp), ?_⟩
      refine ⟨(append_nil _).symm, hrun.symm, hfalse, ?_⟩
      rw [hrun, hst, hret]
      exact ⟨by simp, by simp⟩

/-- **A read, and the turns up to the next one, settle the parser.** -/
theorem read_settled (hret : c.returned = false) (d : Bytes) :
    ∃ requests r, Settles inetPton6 (c.parser.append d) requests r ∧
      Settled (c.read inetPton6 d) c.requests requests r := by
  rw [Connection.read, if_neg (by rw [hret]; nofun)]
  refine turn_settled hret d _ fun hcomp => ?_
  rw [Connection.turn_eq, if_neg (by rw [hcomp]; nofun), if_pos hcomp]
  exact bufferedTurns_settled _ (Nat.lt_succ_self _) rfl rfl hret

/-- The loop agrees with where the parser settles on all bytes: in the requests and in the members
of the parser, and in its buffer too unless the loop has returned. -/
structure Agrees (c : Connection) (requests : List Progress) (r : RequestParser) : Prop where
  requests_eq : c.requests = requests
  progress_eq : c.parser.progress = r.progress
  returned_iff : c.returned = true ↔ r.progress.state = .error
  parser_eq : c.returned = false → c.parser = r

theorem read_agrees {p r : RequestParser} (hsettles : Settles inetPton6 p requests r)
    (h : Agrees c requests r) (d : Bytes) :
    ∃ requests' r', Settles inetPton6 (p.append d) requests' r' ∧
      Agrees (c.read inetPton6 d) requests' r' := by
  cases hret : c.returned with
  | true =>
    -- a parser that has failed only collects the bytes
    have herr : r.progress.state = .error := h.returned_iff.1 hret
    have hrun : (machine inetPton6).run (r.append d) = r.append d :=
      run_of_error herr
    have hstop : Settles inetPton6 (r.append d) [] (r.append d) := by
      have : ((machine inetPton6).run (r.append d)).progress.state ≠ .complete := by
        rw [hrun, append_progress, herr]
        nofun
      have hsettle := Settles.stop this
      rwa [hrun] at hsettle
    refine ⟨requests ++ [], r.append d, hsettles.append hstop, ?_⟩
    rw [Connection.read, if_pos hret, append_nil]
    exact
      { requests_eq := h.requests_eq
        progress_eq := h.progress_eq
        returned_iff := h.returned_iff
        parser_eq := fun hfalse => by rw [hret] at hfalse; cases hfalse }
  | false =>
    obtain ⟨requests', r', hsettles', hsettled⟩ :=
      read_settled hret d
    rw [h.parser_eq hret] at hsettles'
    refine ⟨requests ++ requests', r', hsettles.append hsettles', ?_⟩
    exact
      { requests_eq := by rw [hsettled.requests_eq, h.requests_eq]
        progress_eq := by rw [hsettled.parser_eq]
        returned_iff := hsettled.returned_iff
        parser_eq := fun _ => hsettled.parser_eq }

/-- **What the loop has done after some reads** is what it would have done after one. -/
theorem serve_settles (maxHeaders maxHeaderSize : ℕ) (pieces : List Bytes) :
    ∃ requests r, Settles inetPton6 ((fresh maxHeaders maxHeaderSize).append pieces.flatten)
        requests r ∧
      Agrees (serve inetPton6 maxHeaders maxHeaderSize pieces) requests r := by
  induction pieces using reverseRecOn with
  | nil =>
    exact ⟨[], _, .stop nofun, ⟨rfl, rfl, ⟨nofun, nofun⟩, fun _ => rfl⟩⟩
  | append_singleton pieces piece ih =>
    obtain ⟨requests, r, hsettles, hagrees⟩ := ih
    have hserve : serve inetPton6 maxHeaders maxHeaderSize (pieces ++ [piece]) =
        (serve inetPton6 maxHeaders maxHeaderSize pieces).read inetPton6 piece := by
      rw [serve, foldl_append]
      rfl
    have hflat : (pieces ++ [piece]).flatten = pieces.flatten ++ piece := by simp
    rw [hserve, hflat]
    exact read_agrees hsettles hagrees piece

/-! ### Messages one after another -/

/-- A message that a fresh parser completes and consumes whole. -/
def IsMessage (inetPton6 : Bytes → Bool) (maxHeaders maxHeaderSize : ℕ) (m : Bytes) : Prop :=
  ((fresh maxHeaders maxHeaderSize).parse inetPton6 m).2 = (.complete, m.length)

theorem IsMessage.feed {maxHeaders maxHeaderSize : ℕ} {m : Bytes}
    (h : IsMessage inetPton6 maxHeaders maxHeaderSize m) :
    ((machine inetPton6).feed (fresh maxHeaders maxHeaderSize) m).progress.state = .complete ∧
      ((machine inetPton6).feed (fresh maxHeaders maxHeaderSize) m).buffer = [] := by
  rw [IsMessage, parse_eq, Prod.mk.injEq] at h
  obtain ⟨hres, hcons⟩ := h
  have hcomp : ((machine inetPton6).feed (fresh maxHeaders maxHeaderSize) m).progress.state =
      .complete := by
    rw [finalResult] at hres
    cases hst : ((machine inetPton6).feed (fresh maxHeaders maxHeaderSize) m).progress.state <;>
      simp_all
  refine ⟨hcomp, ?_⟩
  have hlt := buffer_lt_of_complete
    (p := (fresh maxHeaders maxHeaderSize).append m) rfl hcomp
  have hbuf : (fresh maxHeaders maxHeaderSize).buffer ++ m = m := rfl
  rw [hbuf] at hcons
  have hlen : ((fresh maxHeaders maxHeaderSize).append m).buffer.length = m.length := rfl
  exact length_eq_zero_iff.1 (by omega)

/-! ### What a turn can do -/

namespace Progress

/-- The limits of a parser. -/
def limits (p : Progress) : ℕ × ℕ := (p.maxHeaders, p.maxHeaderSize)

/-- The members that count the body. -/
def counts (p : Progress) : Bytes × ℕ × ℕ := (p.body, p.bodyReceived, p.contentLength)

/-- What no line changes. -/
def kept (p : Progress) : (ℕ × ℕ) × Bytes × ℕ × ℕ := (p.limits, p.counts)

variable (p : Progress) (line : Bytes)

theorem kept_requestLine : (p.requestLine inetPton6 line).kept = p.kept := by
  rw [Progress.requestLine]
  rcases line.idxOf? space with - | space1
  · rfl
  simp only
  rcases stringToMethod (line.take space1) with - | method
  · rfl
  rcases (line.drop (space1 + 1)).idxOf? space with - | space2
  · rfl
  simp only [Progress.requestTarget]
  cases ((line.drop (space1 + 1)).take space2).idxOf? 0x3f <;> split_ifs <;> rfl

theorem kept_headerLine : (p.headerLine line).kept = p.kept := by
  rw [Progress.headerLine]
  rcases line.idxOf? colon with - | n
  · rfl
  simp only
  cases p.headers.add (line.take n) (trimOws (line.drop (n + 1))) <;> split_ifs <;> rfl

theorem kept_chunkSizeLine : (p.chunkSizeLine line).kept = p.kept := by
  rw [Progress.chunkSizeLine]
  rcases parseChunkSizeLine line with ⟨size, - | error⟩ <;> rfl

theorem kept_trailerLine : (p.trailerLine line).kept = p.kept := by
  rw [Progress.trailerLine]
  split_ifs <;> rfl

end Progress

/-- What a turn makes of a parser. -/
inductive RequestParser.Moved (p : RequestParser) : RequestParser → Prop
  | idle : Moved p p
  | failed (message : String) : Moved p (p.setError message)
  | line (n : ℕ) {progress : Progress} :
      p.progress.state ≠ .body ∧ p.progress.state ≠ .complete ∧ p.progress.state ≠ .error →
      progress.kept = p.progress.kept → Moved p (p.handled n progress)
  | headers : p.progress.state = .headers → Moved p ⟨p.progress.endOfHeaders, p.buffer.drop 2⟩
  | trailers : p.progress.state = .chunkTrailer →
      Moved p ⟨{ p.progress with state := .complete }, p.buffer.drop 2⟩
  | body : p.progress.state = .body → Moved p p.parseBody.1
  | chunk : p.progress.state = .chunkData → Moved p p.parseChunkData.1

theorem moved_limitedLine (message : String) {atLine : ℕ → RequestParser → RequestParser}
    (hline : ∀ n, Moved p (atLine n p)) : Moved p (p.limitedLine message atLine) := by
  rw [limitedLine]
  cases findCrlf p.buffer with
  | none =>
    split_ifs
    · exact .failed message
    · exact .idle
  | some n =>
    simp only
    split_ifs
    · exact .failed message
    · exact hline n

/-- **What a turn can do.** -/
theorem moved_turn (p : RequestParser) : Moved p (p.turn inetPton6) := by
  cases hst : p.progress.state with
  | requestLine =>
    simp only [turn, hst, parseRequestLine]
    cases findCrlf p.buffer with
    | none => exact .idle
    | some n => exact .line n (by simp [hst]) (Progress.kept_requestLine ..)
  | headers =>
    rw [turn_headers hst]
    refine moved_limitedLine _ fun n => ?_
    rw [headersAt]
    split_ifs
    · exact .headers hst
    · exact .line n (by simp [hst]) (Progress.kept_headerLine ..)
  | body =>
    simp only [turn, hst]
    exact .body hst
  | chunkSize =>
    rw [turn_chunkSize hst]
    refine moved_limitedLine _ fun n => ?_
    exact .line n (by simp [hst]) (Progress.kept_chunkSizeLine ..)
  | chunkData =>
    simp only [turn, hst]
    exact .chunk hst
  | chunkTrailer =>
    rw [turn_chunkTrailer hst]
    refine moved_limitedLine _ fun n => ?_
    rw [trailerAt]
    split_ifs
    · exact .trailers hst
    · exact .line n (by simp [hst]) (Progress.kept_trailerLine ..)
  | complete | error =>
    simp only [turn, hst]
    exact .idle

theorem RequestParser.Moved.limits {p' : RequestParser} (h : Moved p p') :
    p'.progress.limits = p.progress.limits := by
  cases h with
  | idle | failed | trailers => rfl
  | line n _ hkept =>
    rw [handled_state]
    exact congrArg Prod.fst hkept
  | headers =>
    rw [Progress.endOfHeaders]
    cases p.progress.headers.contentLength <;> simp only <;> split_ifs <;> rfl
  | body =>
    rw [parseBody]
    split_ifs <;> rfl
  | chunk =>
    rw [parseChunkData]
    split_ifs <;> rfl

theorem limits_feed (maxHeaders maxHeaderSize : ℕ) (d : Bytes) :
    ((machine inetPton6).feed (fresh maxHeaders maxHeaderSize) d).progress.limits =
      (maxHeaders, maxHeaderSize) := by
  refine runFor_induction
    (P := fun p => p.progress.limits = (maxHeaders, maxHeaderSize)) (fun p _ _ hp => ?_) rfl _
  rw [(moved_turn p).limits, hp]

/-- **A message with more behind it**: the parser completes it, and a reset brings the parser back to
where it began, with what is left. -/
theorem IsMessage.feed_append {maxHeaders maxHeaderSize : ℕ} {m : Bytes}
    (h : IsMessage inetPton6 maxHeaders maxHeaderSize m) (e : Bytes) :
    let q := (machine inetPton6).feed (fresh maxHeaders maxHeaderSize) (m ++ e)
    q.progress.state = .complete ∧
      q.progress = ((fresh maxHeaders maxHeaderSize).parse inetPton6 m).1.progress ∧
      q.buffer = e ∧ q.reset = (fresh maxHeaders maxHeaderSize).append e := by
  intro q
  obtain ⟨hcomp, hemp⟩ := h.feed
  obtain ⟨hmax, hsize⟩ := Prod.mk.inj (@limits_feed inetPton6 maxHeaders maxHeaderSize m)
  have hq : q = ((machine inetPton6).feed (fresh maxHeaders maxHeaderSize) m).append e := by
    rw [← run_of_complete (p := RequestParser.append _ e) hcomp]
    exact (FeedMachine.feed_feed (machine_joins inetPton6) _ m e).symm
  rw [hq, parse_eq, reset, append_progress, append_buffer, hemp, hmax, hsize]
  exact ⟨hcomp, rfl, rfl, rfl⟩

/-! ### Messages in a row -/

/-- Messages that stand in front of the input are its first requests. -/
theorem Settles.messages {maxHeaders maxHeaderSize : ℕ} {messages : List Bytes}
    (hmsgs : ∀ m ∈ messages, IsMessage inetPton6 maxHeaders maxHeaderSize m) {t : Bytes}
    {r : RequestParser}
    (h : Settles inetPton6 ((fresh maxHeaders maxHeaderSize).append t) requests r) :
    Settles inetPton6 ((fresh maxHeaders maxHeaderSize).append (messages.flatten ++ t))
      (messages.map (fun m => ((fresh maxHeaders maxHeaderSize).parse inetPton6 m).1.progress) ++
        requests) r := by
  induction messages with
  | nil => exact h
  | cons m rest ih =>
    obtain ⟨hm, hrest⟩ := forall_mem_cons.1 hmsgs
    obtain ⟨hcomp, hprog, -, hreset⟩ := hm.feed_append (rest.flatten ++ t)
    rw [flatten_cons, append_assoc, map_cons, ← hprog]
    exact .next hcomp (hreset ▸ ih hrest)

/-- **Requests that arrive one after another do not influence each other.**  For messages that a
fresh parser completes and consumes whole, followed by any bytes `t`, and for every way in which the
reads cut these bytes, the loop completes the requests that fresh parsers complete, in order, and
then is where it is when `t` is all that has arrived.  When `t` holds no complete request, that is
where a fresh parser is left by `t`, and there are no more requests.  When `t` is refused the loop
returns, and the bytes that have not been read then do not count. -/
theorem serve_messages (maxHeaders maxHeaderSize : ℕ) (messages : List Bytes) (t : Bytes)
    (pieces : List Bytes)
    (hmessages : ∀ m ∈ messages, IsMessage inetPton6 maxHeaders maxHeaderSize m)
    (hpieces : pieces.flatten = messages.flatten ++ t) :
    let served := serve inetPton6 maxHeaders maxHeaderSize pieces
    let alone := messages.map fun m =>
      ((fresh maxHeaders maxHeaderSize).parse inetPton6 m).1.progress
    let rest := serve inetPton6 maxHeaders maxHeaderSize [t]
    let parsed := (fresh maxHeaders maxHeaderSize).parse inetPton6 t
    served.requests = alone ++ rest.requests ∧
      served.parser.progress = rest.parser.progress ∧ served.returned = rest.returned ∧
      (rest.returned = false → served.parser = rest.parser) ∧
      (parsed.2.1 ≠ .complete → rest.requests = [] ∧ rest.parser = parsed.1) := by
  obtain ⟨requests, r, hsettles, hagrees⟩ :=
    serve_settles maxHeaders maxHeaderSize pieces
  obtain ⟨requests', r', hsettles', hsettled⟩ := read_settled
    (c := .opened maxHeaders maxHeaderSize) rfl t
  obtain ⟨hrequests, rfl⟩ := hsettles.unique (hpieces ▸ hsettles'.messages hmessages)
  have hreturned : (serve inetPton6 maxHeaders maxHeaderSize pieces).returned =
      (serve inetPton6 maxHeaders maxHeaderSize [t]).returned := by
    rw [Bool.eq_iff_iff, hagrees.returned_iff]
    exact hsettled.returned_iff.symm
  have hrest : (serve inetPton6 maxHeaders maxHeaderSize [t]).requests = requests' :=
    hsettled.requests_eq
  have hparser : (serve inetPton6 maxHeaders maxHeaderSize [t]).parser = r := hsettled.parser_eq
  refine ⟨?_, ?_, hreturned, ?_, ?_⟩
  · rw [hagrees.requests_eq, hrequests, hrest]
  · rw [hagrees.progress_eq, hparser]
  · intro hfalse
    rw [hagrees.parser_eq (hreturned.trans hfalse), hparser]
  · intro hincomplete
    rw [hrest, hparser, parse_eq]
    rw [parse_eq, finalResult] at hincomplete
    refine hsettles'.unique (.stop (p := (fresh maxHeaders maxHeaderSize).append t) fun hstate => ?_)
    have hfeed : ((machine inetPton6).feed (fresh maxHeaders maxHeaderSize) t).progress.state =
      .complete := hstate
    rw [hfeed] at hincomplete
    exact hincomplete rfl

/-- Two requests and the beginning of a third, in reads of one, of many and of no bytes. -/
theorem serve_messages_get_get :
    let first := text "GET /a HTTP/1.1\r\nHost: a\r\n\r\n"
    let second := text "POST /b HTTP/1.0\r\nContent-Length: 2\r\n\r\nhi"
    let pieces := [first.take 1, first.drop 1 ++ second.take 40, [], second.drop 40 ++ text "GE"]
    let alone := fun m => ((fresh 8 64).parse (fun _ => true) m).1.progress
    (serve (fun _ => true) 8 64 pieces).requests = [alone first, alone second] ∧
      (serve (fun _ => true) 8 64 pieces).parser = (fresh 8 64).append (text "GE") := by
  have hmessages : ∀ m ∈ [text "GET /a HTTP/1.1\r\nHost: a\r\n\r\n",
      text "POST /b HTTP/1.0\r\nContent-Length: 2\r\n\r\nhi"], IsMessage (fun _ => true) 8 64 m := by
    intro m hm
    rcases mem_cons.1 hm with rfl | hm
    · rw [IsMessage]
      decide +kernel
    · rw [mem_singleton.1 hm, IsMessage]
      decide +kernel
  obtain ⟨hrequests, -, -, hparser, hrest⟩ := serve_messages 8 64 _ (text "GE")
    [(text "GET /a HTTP/1.1\r\nHost: a\r\n\r\n").take 1,
      (text "GET /a HTTP/1.1\r\nHost: a\r\n\r\n").drop 1 ++
        (text "POST /b HTTP/1.0\r\nContent-Length: 2\r\n\r\nhi").take 40,
      [], (text "POST /b HTTP/1.0\r\nContent-Length: 2\r\n\r\nhi").drop 40 ++ text "GE"]
    hmessages (by decide +kernel)
  obtain ⟨hnone, hleft⟩ := hrest (by decide +kernel)
  exact ⟨hrequests, (hparser (by decide +kernel)).trans (hleft.trans (by decide +kernel))⟩

end Elio.Http
