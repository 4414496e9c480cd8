/-
**A truncated response is never mistaken for a complete one.**

Whatever the producer of a response does, and whatever becomes of the transport, what is on the wire
is the front of one well-formed message.  A decoder of the response comes to its end only when all
of the message is there.

Main definitions:

* `ResponseDecoder.widen` — a decoder with more room;
* `ResponseDecoder.drainAll` — a decoder that is given its input in pieces.

Main results:

* `Decoding.run_widen` — more room makes no difference to a decoder that finds no error;
* `Decoding.eq_of_complete` — **a decoder does not end before the end of a message**;
* `truncated_never_complete` — **a truncated response is never complete**.
-/

import Elio.ResponseRoundTrip

set_option autoImplicit false

namespace Elio.Http

open ResponseDecoder
open List

/-! ### More room -/

namespace ResponseDecoder

/-- A decoder with more room for the fields and their lines. -/
def widen (m n : ℕ) (d : ResponseDecoder) : ResponseDecoder :=
  { d with maxHeaders := d.maxHeaders + m, maxHeaderSize := d.maxHeaderSize + n }

variable {m n : ℕ} {d : ResponseDecoder} {line : Bytes}

section

variable {c c' : Prop} [Decidable c] [Decidable c'] {a a' b b' : ResponseDecoder}

/-- A choice to which more room makes no difference. -/
theorem widen_ite (h : (if c then a else b).state ≠ .error)
    (ha : c → a.state ≠ .error → a' = a.widen m n) (hb : ¬ c → b.state ≠ .error → b' = b.widen m n) :
    (if c then a' else b') = (if c then a else b).widen m n := by
  split_ifs at h ⊢ with hc
  · exact ha hc h
  · exact hb hc h

/-- A choice in which too little room is an error. -/
theorem widen_limit (hc : c' → c) (h : (if c then a else b).state ≠ .error) (ha : a.state = .error)
    (hb : b.state ≠ .error → b' = b.widen m n) :
    (if c' then a' else b') = (if c then a else b).widen m n := by
  have hroom : ¬ c := fun hfull => h (by rw [if_pos hfull, ha])
  rw [if_neg hroom] at h
  rw [if_neg hroom, if_neg (mt hc hroom)]
  exact hb h

end

theorem widen_selectFraming (h : d.selectFraming.state ≠ .error) :
    (d.widen m n).selectFraming = d.selectFraming.widen m n := by
  rw [selectFraming] at h
  rw [selectFraming, selectFraming]
  refine widen_ite h (fun _ _ => rfl) fun _ h => ?_
  refine widen_ite h (fun _ _ => rfl) fun _ h => ?_
  refine widen_ite h (fun _ h => widen_ite h (fun _ _ => rfl) fun _ _ => rfl) fun _ h => ?_
  refine widen_ite h (fun _ _ => ?_) fun _ _ => rfl
  rw [show (d.widen m n).headers = d.headers from rfl]
  cases d.headers.contentLength with
  | none | some => rfl

theorem widen_statusLine (h : (d.statusLine line).state ≠ .error) :
    (d.widen m n).statusLine line = (d.statusLine line).widen m n := by
  rw [ResponseDecoder.statusLine] at h
  rw [ResponseDecoder.statusLine, ResponseDecoder.statusLine]
  cases hspace : line.idxOf? space with
  | none => rfl
  | some first =>
    rw [hspace] at h
    refine widen_ite h (fun _ _ => rfl) fun _ => ?_
    dsimp only
    -- the code ends at the next space, or with the line
    cases (line.drop (first + 1)).idxOf? space with
    | none =>
      rcases fromChars 65535 (line.drop (first + 1)) with _ | ⟨number, _ | ⟨c, rest⟩⟩
      · exact fun _ => rfl
      · exact fun h => widen_ite h (fun _ _ => rfl) fun _ _ => rfl
      · exact fun _ => rfl
    | some second =>
      rcases fromChars 65535 ((line.drop (first + 1)).take second) with
        _ | ⟨number, _ | ⟨c, rest⟩⟩
      · exact fun _ => rfl
      · exact fun h => widen_ite h (fun _ _ => rfl) fun _ _ => rfl
      · exact fun _ => rfl

theorem widen_chunkSizeLine :
    (d.widen m n).chunkSizeLine line = (d.chunkSizeLine line).widen m n := by
  rw [chunkSizeLine, chunkSizeLine]
  rcases parseChunkSizeLine line with ⟨_, _ | _⟩ <;> rfl

theorem full_of_widen (h : (d.widen m n).headerCount ≥ (d.widen m n).maxHeaders) :
    d.headerCount ≥ d.maxHeaders :=
  (Nat.le_add_right _ m).trans h

theorem widen_trailerLine (h : (d.trailerLine line).state ≠ .error) :
    (d.widen m n).trailerLine line = (d.trailerLine line).widen m n := by
  rw [trailerLine] at h
  rw [trailerLine, trailerLine]
  refine widen_ite h (fun _ _ => rfl) fun _ h => ?_
  exact widen_limit full_of_widen h rfl fun h => widen_ite h (fun _ _ => rfl) fun _ _ => rfl

/-- The field is stored, whatever the operation that stores it. -/
theorem widen_stored (result : Except HeaderError Headers) :
    (match result with
      | .ok headers =>
        ({ d.widen m n with headerCount := d.headerCount + 1, headers := headers } :
          ResponseDecoder)
      | .error _ => d.widen m n) =
    ResponseDecoder.widen m n (match result with
      | .ok headers => { d with headerCount := d.headerCount + 1, headers := headers }
      | .error _ => d) := by
  cases result with
  | ok | error => rfl

theorem widen_headerLine (h : (d.headerLine line).state ≠ .error) :
    (d.widen m n).headerLine line = (d.headerLine line).widen m n := by
  rw [headerLine] at h
  rw [headerLine, headerLine]
  cases hcolon : line.idxOf? colon with
  | none => rfl
  | some first =>
    rw [hcolon] at h
    dsimp only at h ⊢
    refine widen_ite h (fun _ _ => rfl) fun _ h => ?_
    refine widen_ite h (fun _ _ => rfl) fun _ h => ?_
    refine widen_ite h (fun _ _ => rfl) fun _ h => ?_
    refine widen_limit full_of_widen h rfl fun _ => ?_
    exact widen_stored _

/-- More room makes no difference to a line without an error. -/
theorem widen_processLine (h : (d.processLine line).state ≠ .error) :
    (d.widen m n).processLine line = (d.processLine line).widen m n := by
  have hst : (d.widen m n).state = d.state := rfl
  rw [processLine] at h
  rw [processLine, processLine, hst]
  cases hd : d.state with
  | statusLine =>
    rw [hd] at h
    exact widen_statusLine h
  | chunkSize => exact widen_chunkSizeLine
  | trailers =>
    rw [hd] at h
    exact widen_trailerLine h
  | headers | fixedBody | closeBody | chunkBody | chunkCr | chunkLf | complete | error =>
    rw [hd] at h
    exact widen_ite h (fun _ => widen_selectFraming) fun _ => widen_headerLine

theorem widen_endLine (h : (d.endLine line).state ≠ .error) :
    (d.widen m n).endLine line = (d.endLine line).widen m n := by
  rw [endLine] at h
  have hline : ({ d with line := [] }.processLine line).state ≠ .error := by
    intro herr
    rw [herr] at h
    exact h herr
  have hfront : ({ d.widen m n with line := [] } : ResponseDecoder) =
      { d with line := [] }.widen m n := rfl
  rw [endLine, endLine, hfront, widen_processLine hline]
  exact widen_ite h (fun _ _ => rfl) fun _ _ => rfl

theorem widen_lineByte {c : UInt8} (h : (d.lineByte c).state ≠ .error) :
    (d.widen m n).lineByte c = (d.lineByte c).widen m n := by
  rw [lineByte] at h
  rw [lineByte, lineByte]
  refine widen_ite h (fun _ _ => rfl) fun _ h => ?_
  refine widen_ite h (fun _ h => widen_ite h (fun _ _ => rfl) fun _ => widen_endLine) fun _ h => ?_
  refine widen_limit (fun hfull => ?_) h rfl fun _ => rfl
  simp only [Bool.and_eq_true, decide_eq_true_eq] at hfull ⊢
  exact ⟨hfull.1, (Nat.le_add_right _ n).trans hfull.2⟩

end ResponseDecoder

namespace Decoding

variable {m n : ℕ}

/-- A decoding with more room. -/
def widen (m n : ℕ) (s : Decoding) : Decoding := { s with decoder := s.decoder.widen m n }

theorem widen_byte {d : ResponseDecoder} {c : UInt8} {input body : Bytes}
    (h : (byte d c input body).decoder.state ≠ .error) :
    byte (d.widen m n) c input body = (byte d c input body).widen m n := by
  have hst : (d.widen m n).state = d.state := rfl
  rw [byte] at h
  rw [byte, byte, hst]
  cases hd : d.state with
  | statusLine | headers | chunkSize | trailers =>
    simp only [hd] at h
    rw [widen_lineByte h]
    rfl
  | fixedBody | chunkBody =>
    rw [bodyByte, bodyByte, apply_ite (widen m n)]
    exact ite_congr rfl (fun _ => rfl) fun _ => rfl
  | chunkCr | chunkLf =>
    rw [apply_ite (widen m n)]
    exact ite_congr rfl (fun _ => rfl) fun _ => rfl
  | closeBody | complete | error => rfl

theorem advance_eq_none_of {s s' : Decoding} (hin : s'.input = s.input)
    (hended : s'.decoder.ended = s.decoder.ended) (h : s.advance = none) : s'.advance = none := by
  rw [advance] at h ⊢
  rw [hin, hended]
  cases hs : s.input with
  | nil => rfl
  | cons c input =>
    simp only [hs] at h
    split_ifs at h with hend
    exact if_pos hend

/-- **More room makes no difference to a run without an error.** -/
theorem run_widen {s : Decoding} (h : (machine.run s).decoder.state ≠ .error) :
    machine.run (s.widen m n) = (machine.run s).widen m n := by
  refine FeedMachine.run_map (P := fun s : Decoding => s.decoder.state ≠ .error)
    ?_ ?_ ?_ h
  · intro s s' hbad hadv
    obtain ⟨c, input, -, hended, -⟩ := advance_eq_some hadv
    exact absurd (fun herr => by simp [ended, herr] at hended) hbad
  · exact fun s _ => advance_eq_none_of rfl rfl
  · intro s s' hgood hadv
    obtain ⟨c, input, hin, hended, rfl⟩ := advance_eq_some hadv
    change (s.widen m n).advance = _
    have hinput' : (s.widen m n).input = c :: input := hin
    have hended' : (s.widen m n).decoder.ended = false := hended
    rw [advance, hinput']
    simp only [hended', Bool.false_eq_true, if_false]
    exact congrArg some (widen_byte hgood)

/-! ### Pieces of an input -/

theorem run_body_append (before : Bytes) (s : Decoding) :
    machine.run { s with body := before ++ s.body } =
      { machine.run s with body := before ++ (machine.run s).body } := by
  refine FeedMachine.run_map
    (f := fun s : Decoding => { s with body := before ++ s.body }) (fun _ _ h => absurd trivial h)
    (fun s _ => advance_eq_none_of rfl rfl) (fun s s' _ hadv => ?_) trivial
  · obtain ⟨c, input, hin, hended, rfl⟩ := advance_eq_some hadv
    change advance _ = _
    rw [advance]
    simp only [hin, hended, Bool.false_eq_true, if_false]
    rw [byte, byte]
    cases s.decoder.state with
    | statusLine | headers | chunkSize | trailers | complete | error => rfl
    | closeBody => simp only [append_assoc]
    | fixedBody | chunkBody =>
      simp only [bodyByte]
      split_ifs <;> simp only [append_assoc]
    | chunkCr | chunkLf =>
      split_ifs <;> rfl

end Decoding

namespace ResponseDecoder

/-- The input arrives in pieces, and `decode` is called on what is left and the next piece until it
asks for more: the decoder, the bytes of the body and what is left. -/
def drainAll (d : ResponseDecoder) : List Bytes → Bytes → Bytes → ResponseDecoder × Bytes × Bytes
  | [], rest, body => (d, body, rest)
  | piece :: pieces, rest, body =>
    match d.drain (rest ++ piece) with
    | (d', _, more, rest') => drainAll d' pieces rest' (body ++ more)

theorem drainAll_eq (d : ResponseDecoder) (pieces : List Bytes) (rest body : Bytes) :
    d.drainAll pieces rest body =
      ((Decoding.machine.feedAll ⟨d, rest, body⟩ pieces).decoder,
        (Decoding.machine.feedAll ⟨d, rest, body⟩ pieces).body,
        (Decoding.machine.feedAll ⟨d, rest, body⟩ pieces).input) := by
  induction pieces generalizing d rest body with
  | nil => rfl
  | cons piece pieces ih =>
    have hfeed : Decoding.machine.feedAll ⟨d, rest, body⟩ (piece :: pieces) =
        Decoding.machine.feedAll (Decoding.machine.run ⟨d, rest ++ piece, body⟩) pieces := rfl
    have hbody := Decoding.run_body_append body ⟨d, rest ++ piece, []⟩
    rw [append_nil] at hbody
    rw [drainAll, Decoding.drain_eq, hfeed, hbody]
    exact ih _ _ _

theorem drainAll_flatten (d : ResponseDecoder) (pieces : List Bytes) :
    d.drainAll pieces [] [] =
      ((Decoding.machine.run ⟨d, pieces.flatten, []⟩).decoder,
        (Decoding.machine.run ⟨d, pieces.flatten, []⟩).body,
        (Decoding.machine.run ⟨d, pieces.flatten, []⟩).input) := by
  rw [drainAll_eq]
  cases pieces with
  | nil =>
    rw [flatten_nil, Decoding.run_nil]
    rfl
  | cons piece pieces =>
    rw [FeedMachine.feedAll_eq_feed_flatten Decoding.machine_joins]
    rfl

theorem finishEof_complete {d : ResponseDecoder} (h : d.finishEof.1.state = .complete) :
    d.state = .complete ∨ d.state = .closeBody := by
  rw [finishEof] at h
  by_cases hclose : d.state = .closeBody
  · exact .inr hclose
  · rw [if_neg hclose] at h
    by_cases hended : d.ended = true
    · rw [if_pos hended] at h
      exact .inl h
    · rw [if_neg hended] at h
      cases h

end ResponseDecoder

namespace Decoding

/-- **A decoder does not end before the end of a message.** -/
theorem eq_of_complete {d final : ResponseDecoder} {message part content : Bytes}
    (h : machine.run ⟨d, message, []⟩ = ⟨final, [], content⟩) (hfinal : final.state = .complete)
    (hpart : part <+: message)
    (hend : (machine.run ⟨d, part, []⟩).decoder.state = .complete ∨
      (machine.run ⟨d, part, []⟩).decoder.state = .closeBody) : part = message := by
  obtain ⟨rest, rfl⟩ := hpart
  have hjoin := FeedMachine.run_append_run machine_joins ⟨d, part, []⟩ rest
  have hwhole : machine.append ⟨d, part, []⟩ rest = ⟨d, part ++ rest, []⟩ := rfl
  rw [hwhole, h] at hjoin
  generalize machine.run ⟨d, part, []⟩ = s at hend hjoin
  have happend : machine.append s rest = ⟨s.decoder, s.input ++ rest, s.body⟩ := rfl
  rw [happend] at hjoin
  rcases hend with hcomp | hclose
  · rw [run_complete (s := ⟨s.decoder, s.input ++ rest, s.body⟩) hcomp] at hjoin
    have hnil : s.input ++ rest = [] := congrArg Decoding.input hjoin
    rw [(append_eq_nil_iff.1 hnil).2, append_nil]
  · -- a body without a length goes on to the end of the stream
    rw [run_closeBody hclose] at hjoin
    have hst : s.decoder = final := congrArg Decoding.decoder hjoin
    rw [← hst, hclose] at hfinal
    cases hfinal

/-- **A decoder with any room ends at the end of a message, or not at all**, when one with more room
reads the message. -/
theorem complete_of_prefix {method : Method} {message part content : Bytes}
    {maxHeaders maxHeaderSize : ℕ} (m n : ℕ) {final : ResponseDecoder}
    (h : machine.run ⟨fresh (maxHeaders + m) (maxHeaderSize + n) (some method), message, []⟩ =
      ⟨final, [], content⟩) (hfinal : final.state = .complete) (hpart : part <+: message)
    (hend : (machine.run
      ⟨fresh maxHeaders maxHeaderSize (some method), part, []⟩).decoder.finishEof.1.state =
        .complete) :
    part = message ∧
      (machine.run ⟨fresh maxHeaders maxHeaderSize (some method), part, []⟩).body = content ∧
      (machine.run ⟨fresh maxHeaders maxHeaderSize (some method), part, []⟩).input = [] := by
  have hst := finishEof_complete hend
  have hne : (machine.run
      ⟨fresh maxHeaders maxHeaderSize (some method), part, []⟩).decoder.state ≠ .error := by
    intro herr
    rw [herr] at hst
    rcases hst with hst | hst <;> cases hst
  have hwide := @run_widen m n _ hne
  have hfresh : widen m n ⟨fresh maxHeaders maxHeaderSize (some method), part, []⟩ =
      ⟨fresh (maxHeaders + m) (maxHeaderSize + n) (some method), part, []⟩ := rfl
  rw [hfresh] at hwide
  have hwhole : part = message := by
    refine eq_of_complete h hfinal hpart ?_
    rw [hwide]
    exact hst
  rw [← hwhole, hwide] at h
  exact ⟨hwhole, congrArg Decoding.body h, congrArg Decoding.input h⟩

end Decoding

/-! ### The message behind what is on the wire -/

theorem vectorBytes_script (plan : ResponsePlan) (entries : List (Bytes × Bytes))
    (batches : List (List Bytes)) :
    vectorBytes (script plan entries batches) =
      plan.headerBlock entries ++ vectorBytes (frames (plan.framing = .chunked) true batches) ++
        ending plan.framing := by
  rw [script, vectorBytes_append]
  exact congrArg _ (append_nil _)

theorem payloadTake_script (plan : ResponsePlan) (entries : List (Bytes × Bytes))
    (batches : List (List Bytes)) {k : ℕ}
    (hk : (vectorBytes (script plan entries batches)).length ≤ k) :
    payloadTake k (script plan entries batches) = batches.flatten.flatten := by
  rw [vectorBytes_script, length_append, length_append] at hk
  rw [script, opening, payloadTake_append, payloadTake, payloadTake_frames _ _ (by omega),
    payloadTake_of_plain (by simp), append_nil]
  rfl

theorem payloadTake_script_prefix (plan : ResponsePlan) (entries : List (Bytes × Bytes))
    (batches : List (List Bytes)) (k : ℕ) :
    payloadTake k (script plan entries batches) <+: batches.flatten.flatten := by
  rw [← payloadTake_script plan entries batches
    (Nat.le_max_right k (vectorBytes (script plan entries batches)).length)]
  exact payloadTake_prefix (Nat.le_max_left _ _) _

variable {body : BodyDescription} {requestMethod : Method}

variable {head : ResponseHead} {version : Bytes} {manual : Option ℕ} {planned : BodyPlan}

theorem expected_of_chunked (h : bodyPlan head body requestMethod version manual = some planned)
    (hchunked : planned.framing = .chunked) : planned.expectedBodyBytes = none := by
  rw [bodyPlan] at h
  dsimp only at h
  -- the other choices have another framing
  split_ifs at h
  all_goals cases h
  all_goals first
    | exact Option.not_isSome_iff_eq_none.1 ‹_›
    | cases hchunked

theorem expected_of_contentLength {allowReuse : Bool} {plan : ResponsePlan}
    (hplan : Planned head body requestMethod allowReuse version manual planned plan)
    (hlen : plan.framing = .contentLength) : ∃ n, plan.expectedBodyBytes = some n := by
  rw [hplan.framing] at hlen
  cases bodyChoice_of_bodyPlan hplan.status_ge hplan.body_eq with
  | contentLength n _ _ _ hn => exact ⟨n, hplan.expected.trans hn⟩
  | none h | chunked h | closeDelimited h => rw [h] at hlen; cases hlen

/-- **What is written is the front of one message**, with a body of the length that the plan says.
When it is all of the message, the body is what is written. -/
theorem exists_message {allowReuse : Bool} {plan : ResponsePlan}
    (hplanned : Planned head body requestMethod allowReuse version manual planned plan)
    (hframe : plan.framing = .contentLength ∨ plan.framing = .chunked)
    {batches : List (List Bytes)} {all : Bytes} (hbatched : Batched batches all)
    (hbound : ∀ n ∈ plan.expectedBodyBytes, batches.flatten.flatten.length ≤ n) :
    ∃ content encoded, Encoded (plan.framing = .chunked) content encoded ∧
      (∀ n ∈ plan.expectedBodyBytes, content.length = n) ∧
      vectorBytes (frames (plan.framing = .chunked) true batches) ++ ending plan.framing <+:
        encoded ++ ending plan.framing ∧
      (encoded = vectorBytes (frames (plan.framing = .chunked) true batches) →
        content = batches.flatten.flatten) := by
  have hcoded := encoded_frames (plan.framing = .chunked) true hbatched
  rcases hframe with hlen | hchunked
  · have hend : ending plan.framing = [] := by rw [hlen]; rfl
    have hnot : (plan.framing = .chunked : Bool) = false := by rw [hlen]; rfl
    rw [hnot] at hcoded ⊢
    have hplain : vectorBytes (frames false true batches) = batches.flatten.flatten := by
      cases hcoded with
      | plain _ h => exact h
      | chunks _ h => cases h
    obtain ⟨n, hn⟩ := expected_of_contentLength hplanned hlen
    have hle := hbound n hn
    -- the rest of the body could be anything
    refine ⟨batches.flatten.flatten ++
        replicate (n - batches.flatten.flatten.length) 0, _, .plain rfl rfl, ?_, ?_, ?_⟩
    · intro n' hn'
      rw [hn] at hn'
      cases hn'
      rw [length_append, length_replicate]
      omega
    · rw [hend, append_nil, append_nil, hplain]
      exact prefix_append _ _
    · intro heq
      rw [heq, hplain]
  · have hnone : plan.expectedBodyBytes = none := by
      have hplan := hplanned.framing
      rw [hchunked] at hplan
      rw [hplanned.expected]
      exact expected_of_chunked hplanned.body_eq hplan.symm
    exact ⟨_, _, hcoded, by rw [hnone]; nofun, prefix_rfl, fun _ => rfl⟩

/-- **A truncated response is never mistaken for a complete one.**  For a plan with a length or in
chunks, whatever the calls of the producer, its report, the cancellations and the events of the
transport:

* what is on the wire is the front of one message that the decoder of the method reads;
* `accepted`, the bytes of the body among it, are the first bytes of the calls; they are the ones
  that are reported, and not more than declared;
* a decoder with any limits that is given the wire in any pieces, and then its end, completes only
  when all declared bytes are there or, for chunks, the producer has succeeded and the whole ending
  is there, and it has read the accepted bytes;
* after a failure nothing is written and its error stays, and an error of the producer is the last
  thing. -/
theorem truncated_never_complete (arrange : List (Bytes × Bytes) → List (Bytes × Bytes))
    (harrange : ∀ entries, (arrange entries).Perm entries) (head : ResponseHead)
    (hbuilt : head.headers.Built) (body : BodyDescription) (requestMethod : Method)
    (requestVersion : Bytes) (allowReuse : Bool) {plan : ResponsePlan}
    (hplan : prepareResponse head body requestMethod requestVersion allowReuse = some plan)
    (hframing : plan.framing = .contentLength ∨ plan.framing = .chunked) (cancelled : Bool)
    (calls : List (List Bytes × Bool)) (produced : SendResult) (finishCancelled : Bool)
    (events : List TransportEvent) {w : BodyWriter} {wire : Bytes}
    (hsent : sendCalls plan (arrange plan.wireHeaders.headers) cancelled calls produced
      finishCancelled events = some (w, wire)) :
    ∃ (batches : List (List Bytes)) (k : ℕ) (accepted : Bytes),
      wire = (vectorBytes (script plan (arrange plan.wireHeaders.headers) batches)).take k ∧
      accepted = payloadTake k (script plan (arrange plan.wireHeaders.headers) batches) ∧
      accepted <+: (calls.map Prod.fst).flatten.flatten ∧
      (∃ content encoded message, Encoded (plan.framing = .chunked) content encoded ∧
        message = plan.headerBlock (arrange plan.wireHeaders.headers) ++ encoded ++
          ending plan.framing ∧
        (∀ n ∈ plan.expectedBodyBytes, content.length = n) ∧ wire <+: message ∧
        ∃ maxHeaders maxHeaderSize final,
          (fresh maxHeaders maxHeaderSize (some requestMethod)).drainAll [message] [] [] =
            (final, content, []) ∧ final.state = .complete) ∧
      w.result.confirmedBodyBytes = accepted.length ∧
      (∀ n ∈ plan.expectedBodyBytes, accepted.length ≤ n) ∧
      (∀ maxHeaders maxHeaderSize pieces d read rest, pieces.flatten = wire →
        (fresh maxHeaders maxHeaderSize (some requestMethod)).drainAll pieces [] [] =
          (d, read, rest) →
        d.finishEof.1.state = .complete → read = accepted ∧ rest = [] ∧
          (plan.framing = .contentLength → plan.expectedBodyBytes = some accepted.length) ∧
          (plan.framing = .chunked → produced.error = .none ∧
            accepted = (calls.map Prod.fst).flatten.flatten ∧
            ending plan.framing <:+ wire ∧
            k = (vectorBytes (script plan (arrange plan.wireHeaders.headers) batches)).length)) ∧
      (∀ before after w' wire' events', calls = before ++ after →
        afterCalls plan (arrange plan.wireHeaders.headers) cancelled before events =
          some (w', wire', events') →
        w'.ok = false → w = w' ∧ wire = wire') ∧
      (produced.error ≠ .none → ∀ w' wire' events',
        afterCalls plan (arrange plan.wireHeaders.headers) cancelled calls events =
          some (w', wire', events') →
        w = w'.fail produced.error produced.transportError ∧ wire = wire') := by
  obtain ⟨version, manual, planned, hplanned⟩ := prepareResponse_spec hplan
  have hentries := harrange plan.wireHeaders.headers
  generalize arrange plan.wireHeaders.headers = entries at hsent hentries ⊢
  obtain ⟨batches, k, h⟩ := sendCalls_sent hsent
  have hwire : wire = (vectorBytes (script plan entries batches)).take k := h.sent.wire
  have hprefix := payloadTake_script_prefix plan entries batches k
  obtain ⟨content, encoded, hencoded, hexpected, hfront, hsame⟩ :=
    exists_message hplanned hframing h.batched h.bound
  have hscript := vectorBytes_script plan entries batches
  have hpart : vectorBytes (script plan entries batches) <+:
      plan.headerBlock entries ++ encoded ++ ending plan.framing := by
    rw [hscript, append_assoc, append_assoc]
    exact (prefix_append_right_inj _).2 hfront
  have hmessage : wire <+: plan.headerBlock entries ++ encoded ++ ending plan.framing := by
    rw [hwire]
    exact (List.take_prefix _ _).trans hpart
  -- a decoder with room for all fields
  have hroom : ∀ maxHeaders maxHeaderSize, ∃ m n final, Decoding.machine.run
      ⟨fresh (maxHeaders + m) (maxHeaderSize + n) (some requestMethod),
        plan.headerBlock entries ++ encoded ++ ending plan.framing, []⟩ = ⟨final, [], content⟩ ∧
      final.state = .complete := by
    intro maxHeaders maxHeaderSize
    obtain ⟨final, hrun, -, -, -, hend⟩ := run_message hbuilt hplanned hentries
      (Nat.le_add_left _ maxHeaders)
      (fun line hline => le_trans (sublist_flatten_of_mem hline).length_le
        (Nat.le_add_left _ maxHeaderSize)) hencoded hexpected
    have hnot : plan.framing ≠ .closeDelimited := by
      rcases hframing with hframing | hframing <;> rw [hframing] <;> nofun
    rw [if_neg hnot] at hend
    exact ⟨_, _, final, hrun, hend.1⟩
  refine ⟨batches, k, _, hwire, rfl, hprefix.trans h.batched.content, ?_, ?_, ?_, ?_, ?_, ?_⟩
  · obtain ⟨m, n, final, hrun, hfinal⟩ := hroom 0 0
    have hdrain := drainAll_flatten (fresh (0 + m) (0 + n) (some requestMethod))
      [plan.headerBlock entries ++ encoded ++ ending plan.framing]
    rw [flatten_singleton, hrun] at hdrain
    exact ⟨content, encoded, _, hencoded, rfl, hexpected, hmessage, _, _, final, hdrain, hfinal⟩
  · rw [h.reported, h.sent.confirmed, Nat.zero_add]
  · intro n hn
    exact hprefix.length_le.trans (h.bound n hn)
  · intro maxHeaders maxHeaderSize pieces d read rest hpieces hdrain hend
    rw [drainAll_flatten, hpieces] at hdrain
    cases hdrain
    obtain ⟨m, n, final, hrun, hfinal⟩ := hroom maxHeaders maxHeaderSize
    obtain ⟨hwhole, hread, hrest⟩ :=
      Decoding.complete_of_prefix m n hrun hfinal hmessage hend
    -- all of the message is on the wire, and so all of the script
    have hk : k = (vectorBytes (script plan entries batches)).length := by
      have hlength := congrArg length hwhole
      rw [hwire, length_take, Nat.min_eq_left h.sent.le] at hlength
      exact le_antisymm h.sent.le (hlength ▸ hpart.length_le)
    rw [hwire, hk, take_length, hscript] at hwhole
    have hcoded : encoded = vectorBytes (frames (plan.framing = .chunked) true batches) := by
      rw [append_assoc, append_assoc] at hwhole
      exact (append_cancel_right (append_cancel_left hwhole)).symm
    have haccepted : payloadTake k (script plan entries batches) = batches.flatten.flatten :=
      payloadTake_script plan entries batches hk.ge
    rw [haccepted]
    refine ⟨hread.trans (hsame hcoded), hrest, fun hlength => ?_, fun hchunked => ?_⟩
    · obtain ⟨n, hn⟩ := expected_of_contentLength hplanned hlength
      rw [hn, ← hexpected n hn, hsame hcoded]
    · have hended := h.ended (by
        rw [hk, script, vectorBytes_append, length_append, hchunked]
        exact Nat.lt_add_of_pos_right (by decide))
      refine ⟨hended.1, hended.2, ?_, hk⟩
      rw [hwire, hk, take_length, hscript]
      exact suffix_append _ _
  · rintro before after w' wire' events' rfl hbefore hfailed
    have hstop := sendCalls_of_failed hbefore hfailed after produced finishCancelled
    rw [hsent] at hstop
    cases hstop
    exact ⟨rfl, rfl⟩
  · intro hproduced w' wire' events' hcalls
    have hstop := sendCalls_of_producerError hcalls hproduced finishCancelled
    rw [hsent] at hstop
    cases hstop
    exact ⟨rfl, rfl⟩

/-- The plan of `fourBytes`. -/
def fourBytesPlan : ResponsePlan :=
  (prepareResponse fourBytes.head fourBytes.description .get (text "HTTP/1.1") true).get
    isSome_prepareResponse_fourBytes

/-- The transport fails in the middle of the first chunk, when it has taken two bytes of the body.
-/
theorem truncated_never_complete_fourBytes :
    ∃ (w : BodyWriter) (wire : Bytes),
      sendCalls fourBytesPlan fourBytesPlan.wireHeaders.headers false
        [([text "ab", text "c"], false), ([text "d"], false)] ⟨.none, .none, 0⟩ false
        [.sent 40, .sent 7, .sent 5, .failed 32] = some (w, wire) ∧
      w.result = ⟨.transportError, .other 32, 2⟩ ∧
      ∀ maxHeaders maxHeaderSize pieces d read rest, pieces.flatten = wire →
        (fresh maxHeaders maxHeaderSize (some .get)).drainAll pieces [] [] = (d, read, rest) →
        d.finishEof.1.state ≠ .complete := by
  have hresult : (sendCalls fourBytesPlan fourBytesPlan.wireHeaders.headers false
      [([text "ab", text "c"], false), ([text "d"], false)] ⟨.none, .none, 0⟩ false
      [.sent 40, .sent 7, .sent 5, .failed 32]).map (fun sent => sent.1.result) =
      some ⟨.transportError, .other 32, 2⟩ := by decide +kernel
  have hchunked : fourBytesPlan.framing = .chunked := by decide +kernel
  obtain ⟨⟨w, wire⟩, hsent, hw⟩ := Option.map_eq_some_iff.1 hresult
  refine ⟨w, wire, hsent, hw, ?_⟩
  intro maxHeaders maxHeaderSize pieces d read rest hpieces hdrain hcomplete
  obtain ⟨_, _, accepted, -, -, -, -, hreported, -, hdecoder, -, -⟩ :=
    truncated_never_complete id (fun _ => .refl _) fourBytes.head .empty fourBytes.description .get
      (text "HTTP/1.1") true (Option.some_get isSome_prepareResponse_fourBytes).symm (.inr hchunked)
      false _ _ _ _ hsent
  obtain ⟨-, -, -, hall⟩ :=
    hdecoder maxHeaders maxHeaderSize pieces d read rest hpieces hdrain hcomplete
  have hlength : accepted.length = 4 := by rw [(hall hchunked).2.1]; decide
  rw [hw, hlength] at hreported
  exact absurd hreported (by decide)

end Elio.Http
