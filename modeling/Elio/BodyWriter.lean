/-
**Writing a response.**

`body_writer` of `http/http_body_writer.hpp` sends the header block, the buffers of the body and the
ending of a response to a transport that takes as many bytes at a time as it likes.  `send_response`
of `http/http_response_sender.hpp` uses it to send one reply.

What the transport and the timers do is a list of events, one for each time the loop of `perform`
waits for the transport or looks at its stop flag.  A list that ends early leaves the operation
waiting, which is `none`.  Calls of the writer follow each other, so `busy_` is never seen set, and
a buffer is its bytes, so there is no null pointer among them.

Main results:

* `fillBatch_spec` — a batch has the first bytes of the buffers;
* `BodyWriter.perform_spec`, `performAll_failed` — a failure is reported, and it stays.
-/

import Elio.ResponsePlan

set_option autoImplicit false

namespace Elio.Http

open List

/-- `enum class send_errc`. -/
inductive SendErrc where
  | none
  | invalidResponse
  | lengthMismatch
  | invalidState
  | cancelled
  | timedOut
  | transportError
  | producerError
  deriving DecidableEq, Repr

/-- The values of `errno` that the writer itself uses. -/
inductive Errno where
  | none
  | einval
  | eoverflow
  | ecanceled
  | etimedout
  | epipe
  | eio
  | other (code : ℕ)
  deriving DecidableEq, Repr

/-- `send_result`. -/
structure SendResult where
  error : SendErrc
  transportError : Errno
  confirmedBodyBytes : ℕ
  deriving DecidableEq, Repr

/-- `body_writer::phase`. -/
inductive WriterPhase where
  | headers
  | opened
  | finished
  | failed
  deriving DecidableEq, Repr

/-- `body_writer::operation`. -/
inductive WriterOperation where
  | headers
  | body
  | finish
  deriving DecidableEq, Repr

/-- What happens while an operation waits. -/
inductive TransportEvent where
  /-- The transport has taken some bytes, or says 0. -/
  | sent (count : ℕ)
  /-- The transport says `-EINTR`. -/
  | interrupted
  /-- The transport says that it has failed. -/
  | failed (code : ℕ)
  /-- The stop flag says that the operation was cancelled. -/
  | cancelled
  /-- The stop flag, or the clock, says that the time is over. -/
  | timedOut
  deriving DecidableEq, Repr

/-- `body_writer::winner`, with the error that goes with it. -/
inductive WriteOutcome where
  | pending
  | cancelled
  | timedOut
  | error (errno : Errno)
  deriving DecidableEq, Repr

/-- Where a loop of `perform` has come to. -/
structure Written where
  confirmed : ℕ
  wire : Bytes
  outcome : WriteOutcome
  events : List TransportEvent
  deriving DecidableEq, Repr

/-- `body_writer`. -/
structure BodyWriter where
  framing : ResponseFraming
  expected : Option ℕ
  phase : WriterPhase
  confirmed : ℕ
  result : SendResult
  deriving DecidableEq, Repr

/-! ### Batches -/

/-- `max_batch`. -/
def maxBatch : ℕ := 2 ^ 30

/-- The inner loop over the buffers: the vectors of a batch, its size, and the buffers that are
left. `count` vectors are there already, and `batch` bytes. -/
def fillBatch (limit : ℕ) : ℕ → ℕ → List Bytes → List Bytes × ℕ × List Bytes
  | _, batch, [] => ([], batch, [])
  | count, batch, buffer :: buffers =>
    if count ≥ limit || batch ≥ maxBatch then ([], batch, buffer :: buffers)
    else if buffer.isEmpty then fillBatch limit count batch buffers
    else
      let size := min buffer.length (maxBatch - batch)
      if size = buffer.length then
        let (vectors, total, rest) := fillBatch limit (count + 1) (batch + size) buffers
        (buffer :: vectors, total, rest)
      else ([buffer.take size], batch + size, buffer.drop size :: buffers)

/-- The transport has taken `progress` bytes of the vectors: the bytes of the body among them, the
vectors that are left, and what is left of `progress`. -/
def advanceVectors : ℕ → List (Bool × Bytes) → ℕ × List (Bool × Bytes) × ℕ
  | progress, [] => (0, [], progress)
  | progress, (payload, bytes) :: vectors =>
    if progress = 0 then (0, (payload, bytes) :: vectors, 0)
    else
      let consumed := min progress bytes.length
      let confirmed := if payload then consumed else 0
      if consumed = bytes.length then
        let (more, rest, left) := advanceVectors (progress - consumed) vectors
        (confirmed + more, rest, left)
      else (confirmed, (payload, bytes.drop consumed) :: vectors, 0)

/-- The bytes of vectors. -/
def vectorBytes (vectors : List (Bool × Bytes)) : Bytes := (vectors.map Prod.snd).flatten

/-- The loop that sends the vectors of a batch. -/
def sendVectors : List TransportEvent → List (Bool × Bytes) → ℕ → Bytes → Option Written
  | events, [], confirmed, wire => some ⟨confirmed, wire, .pending, events⟩
  | [], _ :: _, _, _ => none
  | event :: events, vector :: vectors, confirmed, wire =>
    match event with
    | .interrupted => sendVectors events (vector :: vectors) confirmed wire
    | .failed code => some ⟨confirmed, wire, .error (.other code), events⟩
    | .cancelled => some ⟨confirmed, wire, .cancelled, events⟩
    | .timedOut => some ⟨confirmed, wire, .timedOut, events⟩
    | .sent 0 => some ⟨confirmed, wire, .error .epipe, events⟩
    | .sent (count + 1) =>
      let (more, rest, left) := advanceVectors (count + 1) (vector :: vectors)
      let wire := wire ++ (vectorBytes (vector :: vectors)).take (count + 1)
      if left > 0 then some ⟨confirmed + more, wire, .error .eio, events⟩
      else sendVectors events rest (confirmed + more) wire

/-- The loop of `perform`.  Every batch that is sent lowers `remaining`. -/
def writeLoop (chunked payload : Bool) :
    ℕ → List TransportEvent → List Bytes → ℕ → ℕ → Bytes → Option Written
  | 0, _, _, _, _, _ => none
  | bound + 1, events, buffers, remaining, confirmed, wire =>
    if remaining = 0 then some ⟨confirmed, wire, .pending, events⟩
    else
      let (vectors, batch, rest) :=
        fillBatch (if chunked then 63 else 64) (if chunked then 1 else 0) 0 buffers
      let vectors := vectors.map fun bytes => (payload, bytes)
      let vectors :=
        if chunked then (false, toHex batch ++ crlf) :: (vectors ++ [(false, crlf)]) else vectors
      match sendVectors events vectors confirmed wire with
      | none => none
      | some written =>
        if written.outcome = .pending then
          writeLoop chunked payload bound written.events rest (remaining - batch) written.confirmed
            written.wire
        else some written

namespace BodyWriter

/-- The constructor, for a plan that was made. -/
def create (plan : ResponsePlan) : BodyWriter where
  framing := plan.framing
  expected := plan.expectedBodyBytes
  phase := .headers
  confirmed := 0
  result := ⟨.none, .none, 0⟩

/-- `fail`: the first failure stays. -/
def fail (w : BodyWriter) (error : SendErrc) (errno : Errno) : BodyWriter :=
  if w.phase = .failed then w
  else { w with result := ⟨error, errno, w.confirmed⟩, phase := .failed }

/-- The end of `perform`. -/
def conclude (w : BodyWriter) (op : WriterOperation) (written : Written) : BodyWriter :=
  let w : BodyWriter := { w with confirmed := written.confirmed }
  match written.outcome with
  | .cancelled => w.fail .cancelled .ecanceled
  | .timedOut => w.fail .timedOut .etimedout
  | .error errno => w.fail .transportError errno
  | .pending =>
    { w with
      phase := match op with
        | .headers => .opened
        | .body => w.phase
        | .finish => .finished
      result := { w.result with confirmedBodyBytes := w.confirmed } }

/-- The end of the loop: the operation has succeeded, unless its cancellation, its timer or a
failure of the timer has claimed the outcome first.  An operation without bytes has no timer. -/
def claimSuccess (timed : Bool) (written : Written) : Written :=
  match written.outcome, written.events with
  | .pending, .cancelled :: events => { written with outcome := .cancelled, events := events }
  | .pending, .timedOut :: events =>
    if timed then { written with outcome := .timedOut, events := events } else written
  | .pending, .failed code :: events =>
    { written with outcome := .error (.other code), events := events }
  | _, _ => written

/-- `perform`: the writer, what is on the wire and the events that are left.  The caller's token or
that of the session may have been cancelled before. -/
def perform (w : BodyWriter) (buffers : List Bytes) (op : WriterOperation) (cancelled : Bool)
    (events : List TransportEvent) (wire : Bytes) :
    Option (BodyWriter × Bytes × List TransportEvent) :=
  let total := buffers.flatten.length
  if w.phase = .failed then some (w, wire, events)
  else if (op = .headers && w.phase ≠ .headers) || (op ≠ .headers && w.phase ≠ .opened) then
    some (w.fail .invalidState .none, wire, events)
  else if cancelled then some (w.fail .cancelled .ecanceled, wire, events)
  else if total > sizeMax then some (w.fail .invalidResponse .eoverflow, wire, events)
  else if op = .body && w.expected.any (fun expected => total > expected - w.confirmed) then
    some (w.fail .lengthMismatch .none, wire, events)
  else if op = .body && total > sizeMax - w.confirmed then
    some (w.fail .invalidResponse .eoverflow, wire, events)
  else if op = .finish && w.expected.any (fun expected => w.confirmed ≠ expected) then
    some (w.fail .lengthMismatch .none, wire, events)
  else
    (writeLoop (op = .body && w.framing = .chunked) (op = .body) (total + 1) events buffers total
      w.confirmed wire).map fun written =>
        let written := claimSuccess (total ≠ 0) written
        (w.conclude op written, written.wire, written.events)

/-- The operation was successful: `perform` has returned a result without an error. -/
def ok (w : BodyWriter) : Bool := w.result.error = .none

end BodyWriter

/-! ### One reply -/

/-- `reply`, as far as it is sent with a body.  The producer of a streaming response is the calls it
makes of the writer, each with its buffers, and whether it reports success in the end. -/
inductive Reply where
  | complete (head : ResponseHead) (body : Bytes)
  | streaming (head : ResponseHead) (length : Option UInt64) (transfer : ResponseTransfer)
      (calls : List (List Bytes)) (produced : Bool)
  deriving Repr

namespace Reply

/-- The head of a reply. -/
def head : Reply → ResponseHead
  | .complete head _ => head
  | .streaming head _ _ _ _ => head

/-- The description that `send_response` makes of a reply. -/
def description : Reply → BodyDescription
  | .complete _ body => ⟨.complete, some (UInt64.ofNat body.length), .automatic⟩
  | .streaming _ length transfer _ _ => ⟨.streaming, length, transfer⟩

/-- The calls of the writer between the headers and the ending. -/
def calls (reply : Reply) (plan : ResponsePlan) : List (List Bytes) :=
  match reply with
  | .complete _ body => if plan.framing = .none then [] else [[body]]
  | .streaming _ _ _ calls _ => if plan.invokeProducer then calls else []

/-- The producer is content. -/
def produced (reply : Reply) (plan : ResponsePlan) : Bool :=
  match reply with
  | .complete _ _ => true
  | .streaming _ _ _ _ produced => !plan.invokeProducer || produced

end Reply

/-- Calls of the writer one after another, each with its buffers and whether a token is cancelled by
then.  After a failure they have no effect. -/
def performAll (w : BodyWriter) :
    List (List Bytes × Bool) → List TransportEvent → Bytes →
      Option (BodyWriter × Bytes × List TransportEvent)
  | [], events, wire => some (w, wire, events)
  | (buffers, cancelled) :: calls, events, wire =>
    match w.perform buffers .body cancelled events wire with
    | none => none
    | some (w, wire, events) => performAll w calls events wire

/-- The ending that `finish` sends. -/
def ending (framing : ResponseFraming) : Bytes :=
  if framing = .chunked then text "0\r\n\r\n" else []

/-- `send_response`, from the plan on: the writer at the end, and what is on the wire.  `calls` are
the calls of the writer between the headers and the ending, and `produced` is what the producer
reports; when it throws, that is a producer error.  A token may be cancelled at the headers, at any
call, and at the ending.  `finish` does nothing after a failure. -/
def sendCalls (plan : ResponsePlan) (entries : List (Bytes × Bytes)) (cancelled : Bool)
    (calls : List (List Bytes × Bool)) (produced : SendResult) (finishCancelled : Bool)
    (events : List TransportEvent) : Option (BodyWriter × Bytes) := do
  let (w, wire, events) ← (BodyWriter.create plan).perform [plan.headerBlock entries] .headers
    cancelled events []
  if !w.ok then some (w, wire)
  else
    let (w, wire, events) ← performAll w calls events wire
    if produced.error ≠ .none then some (w.fail produced.error produced.transportError, wire)
    else if !w.ok then some (w, wire)
    else
      let (w, wire, _) ← w.perform [ending w.framing] .finish finishCancelled events wire
      some (w, wire)

/-- `send_response` of a reply, from the plan on, when no token is cancelled on the way. -/
def sendReply (reply : Reply) (plan : ResponsePlan) (entries : List (Bytes × Bytes))
    (cancelled : Bool) (events : List TransportEvent) : Option (BodyWriter × Bytes) :=
  sendCalls plan entries cancelled ((reply.calls plan).map fun buffers => (buffers, cancelled))
    ⟨if reply.produced plan then .none else .producerError, .none, 0⟩ false events

/-- `send_response`: the result, what is on the wire, and whether the connection can be used again.
`arrange` is the order in which an `std::unordered_map` is gone through. -/
def sendResponse (arrange : List (Bytes × Bytes) → List (Bytes × Bytes)) (reply : Reply)
    (requestMethod : Method) (requestVersion : Bytes) (allowReuse cancelled : Bool)
    (events : List TransportEvent) : Option (SendResult × Bytes × Bool) :=
  match prepareResponse reply.head reply.description requestMethod requestVersion allowReuse with
  | none => some (⟨.invalidResponse, .einval, 0⟩, [], false)
  | some plan =>
    (sendReply reply plan (arrange plan.wireHeaders.headers) cancelled events).map
      fun (w, wire) => (w.result, wire, w.ok && plan.reusable)

/-! ### What is on the wire -/

theorem vectorBytes_cons (payload : Bool) (bytes : Bytes) (vectors : List (Bool × Bytes)) :
    vectorBytes ((payload, bytes) :: vectors) = bytes ++ vectorBytes vectors := rfl

/-- A batch has the first bytes of the buffers, at most `maxBatch` of them, and at least one. -/
theorem fillBatch_spec (limit count batch : ℕ) (hcnt : count < limit) (hbatch : batch < maxBatch)
    (buffers : List Bytes) :
    (fillBatch limit count batch buffers).1.flatten ++
        (fillBatch limit count batch buffers).2.2.flatten = buffers.flatten ∧
      (fillBatch limit count batch buffers).2.1 =
        batch + (fillBatch limit count batch buffers).1.flatten.length ∧
      (fillBatch limit count batch buffers).2.1 ≤ maxBatch ∧
      (buffers.flatten ≠ [] → (fillBatch limit count batch buffers).1.flatten ≠ []) := by
  induction buffers generalizing count batch with
  | nil => exact ⟨rfl, rfl, hbatch.le, fun h => h⟩
  | cons buffer buffers ih =>
    have hgo : ¬ (count ≥ limit || batch ≥ maxBatch : Bool) = true := by
      simp only [ge_iff_le, Bool.or_eq_true, decide_eq_true_eq, not_or, not_le]
      exact ⟨hcnt, hbatch⟩
    rw [fillBatch, if_neg hgo]
    by_cases hemp : buffer.isEmpty = true
    · have hnil : buffer = [] := isEmpty_iff.1 hemp
      rw [hnil]
      exact ih count batch hcnt hbatch
    · rw [if_neg hemp]
      have hne : buffer ≠ [] := by simpa using hemp
      by_cases hall : min buffer.length (maxBatch - batch) = buffer.length
      · simp only [hall, if_true]
        -- the whole buffer is in the batch; the limits may stop the loop behind it
        have hrest : ∀ r, r = fillBatch limit (count + 1) (batch + buffer.length) buffers →
            r.1.flatten ++ r.2.2.flatten = buffers.flatten ∧
              r.2.1 = batch + buffer.length + r.1.flatten.length ∧ r.2.1 ≤ maxBatch := by
          rintro r rfl
          by_cases hmore : count + 1 < limit ∧ batch + buffer.length < maxBatch
          · obtain ⟨hflat, hsize, hle, -⟩ := ih _ _ hmore.1 hmore.2
            exact ⟨hflat, hsize, hle⟩
          · cases buffers with
            | nil => exact ⟨rfl, rfl, by simp only [fillBatch]; omega⟩
            | cons next buffers =>
              have hstop : (count + 1 ≥ limit || batch + buffer.length ≥ maxBatch : Bool) =
                  true := by
                simp only [ge_iff_le, Bool.or_eq_true, decide_eq_true_eq]
                omega
              rw [fillBatch, if_pos hstop]
              exact ⟨rfl, rfl, show batch + buffer.length ≤ maxBatch by omega⟩
        obtain ⟨hflat, hsize, hle⟩ := hrest _ rfl
        refine ⟨?_, ?_, hle, ?_⟩
        · rw [flatten_cons, flatten_cons, append_assoc, hflat]
        · rw [hsize, flatten_cons, length_append]
          omega
        · intro _ hnil
          rw [flatten_cons, append_eq_nil_iff] at hnil
          exact hne hnil.1
      · have hmin : min buffer.length (maxBatch - batch) = maxBatch - batch := by omega
        simp only [hmin] at hall ⊢
        rw [if_neg hall]
        have hlen : (buffer.take (maxBatch - batch)).length = maxBatch - batch :=
          length_take_of_le (by omega)
        refine ⟨?_, ?_, show batch + (maxBatch - batch) ≤ maxBatch by omega, ?_⟩
        · rw [flatten_cons, flatten_nil, append_nil, flatten_cons,
            flatten_cons, ← append_assoc, take_append_drop]
        · rw [flatten_cons, flatten_nil, append_nil, hlen]
        · intro _ hnil
          rw [flatten_cons, flatten_nil, append_nil] at hnil
          rw [hnil, length_nil] at hlen
          omega

/-- A chunk on the wire. -/
def chunkOf (data : Bytes) : Bytes := toHex data.length ++ crlf ++ (data ++ crlf)

/-- The bytes that a body operation puts on the wire for its buffers. -/
inductive Encoded (chunked : Bool) (body wire : Bytes) : Prop
  | plain : chunked = false → wire = body → Encoded chunked body wire
  | chunks (pieces : List Bytes) : chunked = true →
      (∀ piece ∈ pieces, piece ≠ [] ∧ piece.length ≤ maxBatch) → pieces.flatten = body →
      wire = (pieces.map chunkOf).flatten → Encoded chunked body wire

theorem Encoded.nil (chunked : Bool) : Encoded chunked [] [] := by
  cases chunked with
  | false => exact .plain rfl rfl
  | true => exact .chunks [] rfl (forall_mem_nil _) rfl rfl

theorem Encoded.append {chunked : Bool} {body body' wire wire' : Bytes}
    (h : Encoded chunked body wire) (h' : Encoded chunked body' wire') :
    Encoded chunked (body ++ body') (wire ++ wire') := by
  cases h with
  | plain hc hwire =>
    cases h' with
    | plain _ hwire' => exact .plain hc (by rw [hwire, hwire'])
    | chunks _ hc' => rw [hc] at hc'; cases hc'
  | chunks pieces hc hpieces hbody hwire =>
    cases h' with
    | plain hc' => rw [hc] at hc'; cases hc'
    | chunks pieces' _ hpieces' hbody' hwire' =>
      refine .chunks (pieces ++ pieces') hc ?_ ?_ ?_
      · intro piece hpiece
        rcases mem_append.1 hpiece with hpiece | hpiece
        · exact hpieces piece hpiece
        · exact hpieces' piece hpiece
      · rw [flatten_append, hbody, hbody']
      · rw [map_append, flatten_append, hwire, hwire']

namespace BodyWriter

/-- A writer that has failed says so, and no other. -/
def Sound (w : BodyWriter) : Prop := w.phase = .failed ↔ w.ok = false

theorem sound_create (plan : ResponsePlan) : (create plan).Sound := ⟨nofun, nofun⟩

variable {w : BodyWriter}

theorem fail_failed (hsound : w.Sound) (error : SendErrc) (herr : error ≠ .none) (errno : Errno) :
    (w.fail error errno).Sound ∧ (w.fail error errno).ok = false := by
  rw [fail]
  split_ifs with hfailed
  · exact ⟨hsound, hsound.1 hfailed⟩
  · have hok : (⟨w.framing, w.expected, .failed, w.confirmed, ⟨error, errno, w.confirmed⟩⟩ :
        BodyWriter).ok = false := by simp [ok, herr]
    exact ⟨⟨fun _ => hok, fun _ => rfl⟩, hok⟩

/-- The end of an operation is a success when nothing has stopped the loop. -/
theorem conclude_spec (hsound : w.Sound) (hphase : w.phase ≠ .failed) (op : WriterOperation)
    (written : Written) :
    (w.conclude op written).Sound ∧
      ((w.conclude op written).ok = true → written.outcome = .pending) := by
  have hsound' : ({ w with confirmed := written.confirmed } : BodyWriter).Sound := hsound
  cases hout : written.outcome with
  | pending =>
    have hok : w.ok = true := by
      rw [← Bool.not_eq_false]
      exact fun h => hphase (hsound.2 h)
    refine ⟨?_, fun _ => rfl⟩
    simp only [conclude, hout]
    refine ⟨fun h => ?_, fun h => ?_⟩
    · cases op with
      | headers => cases h
      | body => exact absurd h hphase
      | finish => cases h
    · rw [ok] at hok h
      rw [hok] at h
      cases h
  | cancelled =>
    simp only [conclude, hout]
    obtain ⟨hfail, hbad⟩ := fail_failed hsound' .cancelled nofun .ecanceled
    exact ⟨hfail, fun h => by rw [hbad] at h; cases h⟩
  | timedOut =>
    simp only [conclude, hout]
    obtain ⟨hfail, hbad⟩ := fail_failed hsound' .timedOut nofun .etimedout
    exact ⟨hfail, fun h => by rw [hbad] at h; cases h⟩
  | error errno =>
    simp only [conclude, hout]
    obtain ⟨hfail, hbad⟩ := fail_failed hsound' .transportError nofun errno
    exact ⟨hfail, fun h => by rw [hbad] at h; cases h⟩

theorem claimSuccess_same (timed : Bool) (written : Written) :
    (claimSuccess timed written).wire = written.wire ∧
      (claimSuccess timed written).confirmed = written.confirmed := by
  rw [claimSuccess]
  split
  · exact ⟨rfl, rfl⟩
  · split_ifs <;> exact ⟨rfl, rfl⟩
  · exact ⟨rfl, rfl⟩
  · exact ⟨rfl, rfl⟩

/-- An operation that has succeeded was not stopped at the end of its loop. -/
theorem claimSuccess_pending {timed : Bool} {written : Written}
    (h : (claimSuccess timed written).outcome = .pending) :
    written.outcome = .pending ∧ claimSuccess timed written = written := by
  obtain ⟨confirmed, wire, outcome, events⟩ := written
  cases outcome with
  | cancelled | timedOut | error errno => cases h
  | pending =>
    refine ⟨rfl, ?_⟩
    cases events with
    | nil => rfl
    | cons event events =>
      cases event with
      | sent count | interrupted => rfl
      | cancelled | failed code => cases h
      | timedOut =>
        cases timed with
        | false => rfl
        | true => cases h

/-- An operation leaves the writer sound, and an ending that succeeds has found the body as long as
expected. -/
theorem perform_spec {w' : BodyWriter} (hsound : w.Sound) {buffers : List Bytes}
    {op : WriterOperation} {cancelled : Bool} {events events' : List TransportEvent}
    {wire wire' : Bytes}
    (h : w.perform buffers op cancelled events wire = some (w', wire', events')) :
    w'.Sound ∧ (w'.ok = true → op = .finish → ∀ expected ∈ w.expected, w.confirmed = expected) := by
  -- the early returns are failures
  have hfail : ∀ error errno, error ≠ SendErrc.none →
      some (w.fail error errno, wire, events) = some (w', wire', events') →
      w'.Sound ∧
        (w'.ok = true → op = .finish → ∀ expected ∈ w.expected, w.confirmed = expected) := by
    intro error errno herr heq
    obtain ⟨hgood, hbad⟩ := fail_failed hsound error herr errno
    rw [← (Prod.mk.inj (Option.some.inj heq)).1]
    exact ⟨hgood, fun hok => by rw [hbad] at hok; cases hok⟩
  rw [perform] at h
  split_ifs at h with h1 h2 h3 h4 h5 h6 h7
  · rw [← (Prod.mk.inj (Option.some.inj h)).1]
    exact ⟨hsound, fun hok => by rw [hsound.1 h1] at hok; cases hok⟩
  · exact hfail .invalidState _ nofun h
  · exact hfail .cancelled _ nofun h
  · exact hfail .invalidResponse _ nofun h
  · exact hfail .lengthMismatch _ nofun h
  · exact hfail .invalidResponse _ nofun h
  · exact hfail .lengthMismatch _ nofun h
  · rw [Option.map_eq_some_iff] at h
    obtain ⟨written, hloop, heq⟩ := h
    obtain ⟨rfl, rfl, -⟩ := heq
    refine ⟨(conclude_spec hsound h1 op _).1, ?_⟩
    rintro - rfl expected hexp
    rw [Option.mem_def] at hexp
    simpa [hexp] using h7

theorem perform_failed (hfailed : w.phase = .failed) (buffers : List Bytes) (op : WriterOperation)
    (cancelled : Bool) (events : List TransportEvent) (wire : Bytes) :
    w.perform buffers op cancelled events wire = some (w, wire, events) := by
  exact if_pos hfailed

end BodyWriter

theorem performAll_failed {w : BodyWriter} (hfailed : w.phase = .failed)
    (calls : List (List Bytes × Bool)) (events : List TransportEvent) (wire : Bytes) :
    performAll w calls events wire = some (w, wire, events) := by
  induction calls with
  | nil => rfl
  | cons call calls ih =>
    rw [performAll, BodyWriter.perform_failed hfailed]
    exact ih

end Elio.Http
