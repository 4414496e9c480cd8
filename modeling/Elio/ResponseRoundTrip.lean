/-
**A response arrives as it was sent.**

`prepare_response` chooses the framing of a response from the request, the status and what the
handler has said; `response_decoder` chooses it again from the bytes of the header block.  This
module proves that the two always choose the same, so that the decoder ends where the response ends
and has the bytes of its body.

The proof follows the bytes: the status line, the field lines, the empty line, and then the body in
each of the framings.

Main results:

* `Decoding.run_statusLine`, `Decoding.run_fieldLines` — how the header block is read;
* `chunks_of_pieces` — the chunks of a writer are a chunked body;
* `run_message` — a decoder with room for the fields of a plan reads its message;
* `response_round_trip` — **what is sent is what is received**.
-/

import Elio.BodyWriterPartial
import Elio.ChunkedDecoders

set_option autoImplicit false

namespace Elio.Http

open ResponseDecoder
open List

/-! ### The status line -/

theorem length_toDecimal_status : ∀ code < 600, 200 ≤ code → (toDecimal code).length = 3 := by
  decide +kernel

theorem plain_text_reason : ∀ kv ∈ statusReasons, Plain (text kv.2) := by
  decide +kernel

theorem plain_statusReason (code : ℕ) : Plain (statusReason code) := by
  rw [statusReason]
  cases hfind : statusReasons.find? fun kv => kv.1 = code with
  | none => exact (by decide : Plain (text "Unknown"))
  | some kv => exact plain_text_reason kv (mem_of_find?_eq_some hfind)

theorem ne_of_isDigit (c : UInt8) (h : isDigit c = true) : c ≠ cr ∧ c ≠ lf := by
  constructor <;> rintro rfl <;> exact absurd h (by decide)

theorem plain_toDecimal (n : ℕ) : Plain (toDecimal n) := fun c hc =>
  ne_of_isDigit c (isDigit_of_mem_toDecimal hc)

variable {version : Bytes}

/-- What is known of a version that is sent. -/
theorem version_facts (h : version = text "HTTP/1.0" ∨ version = text "HTTP/1.1") :
    Plain version ∧ space ∉ version ∧ isValidHttpVersion version = true ∧ version.length = 8 := by
  rcases h with rfl | rfl <;> decide

theorem idxOf?_of_notMem_append {c : UInt8} {s : Bytes} (h : c ∉ s) (rest : Bytes) :
    (s ++ c :: rest).idxOf? c = some s.length := by
  induction s with
  | nil => simp [idxOf?_cons]
  | cons a s ih =>
    have hne : a ≠ c := fun heq => h (by simp [heq])
    have hrest : c ∉ s := fun hmem => h (mem_cons_of_mem _ hmem)
    rw [cons_append, idxOf?_cons, ih hrest]
    simp [hne]

namespace Decoding

variable {d : ResponseDecoder}

/-- **The status line is read.** -/
theorem run_statusLine (hst : d.state = .statusLine) (hline : d.line = [])
    {version : Bytes} (hver : version = text "HTTP/1.0" ∨ version = text "HTTP/1.1") {code : ℕ}
    (hge : 200 ≤ code) (hle : code ≤ 599) {line : Bytes}
    (heq : line = version ++ text " " ++ toDecimal code ++ text " " ++ statusReason code)
    (hsize : line.length ≤ d.maxHeaderSize) (rest body : Bytes) :
    machine.run ⟨d, line ++ crlf ++ rest, body⟩ =
      machine.run
        ⟨{ d with
            version := version
            status := code
            reason := statusReason code
            state := .headers }, rest, body⟩ := by
  obtain ⟨hplain, hspace, hvalid, -⟩ := version_facts hver
  have hspaces : Plain (text " ") := by decide
  have hdigit : space ∉ toDecimal code := fun hmem =>
    absurd (isDigit_of_mem_toDecimal hmem) (by decide)
  have hwhole : Plain line := by
    rw [heq]
    exact (((hplain.append hspaces).append (plain_toDecimal code)).append hspaces).append
      (plain_statusReason code)
  -- the line with its first and its second space in view
  have hfst : line = version ++ space :: (toDecimal code ++ space :: statusReason code) := by
    rw [heq]
    simp only [append_assoc]
    rfl
  have hidx : line.idxOf? space = some version.length := by
    rw [hfst]
    exact idxOf?_of_notMem_append hspace _
  have htake : line.take version.length = version := by rw [hfst, take_left]
  have hdrop : line.drop (version.length + 1) = toDecimal code ++ space :: statusReason code := by
    rw [hfst, ← drop_drop, drop_left]
    rfl
  have hidx' : (toDecimal code ++ space :: statusReason code).idxOf? space =
      some (toDecimal code).length := idxOf?_of_notMem_append hdigit _
  have hthree : (toDecimal code).length = 3 := length_toDecimal_status code (by omega) hge
  have hcode : (toDecimal code ++ space :: statusReason code).take 3 = toDecimal code := by
    rw [← hthree, take_left]
  have hreason : (toDecimal code ++ space :: statusReason code).drop (3 + 1) =
      statusReason code := by
    rw [← drop_drop, ← hthree, drop_left]
    rfl
  have hchars : fromChars 65535 (toDecimal code) = some (code, []) :=
    fromChars_toDecimal (by omega)
  have hrun := run_line (.inl hst) (by rw [hline]; exact hwhole)
    (by rw [hline]; exact hsize) rest body
  rw [hrun, hline, nil_append]
  simp only [endLine, processLine, hst]
  simp only [ResponseDecoder.statusLine, hidx, htake, hvalid, hdrop, hidx', hthree, hcode, hchars,
    hreason]
  simp

/-! ### The field lines -/

theorem headerLine_of_valid {line : Bytes} (hcolon : colon ∈ line)
    (hname : isValidHeaderName (fieldName line) = true)
    (hval : isValidHeaderValue (fieldValue line) = true)
    (htunnel : ¬ (d.requestMethod = some .connect ∧ 200 ≤ d.status ∧ d.status < 300))
    (hconf : asciiIequals (fieldName line) (text "Content-Length") = true →
      d.headers.contains (text "Content-Length") = true →
      trimOws (d.headers.get (text "Content-Length")) = fieldValue line)
    (hcnt : d.headerCount < d.maxHeaders) :
    d.headerLine line =
      { d with
        headerCount := d.headerCount + 1
        headers := d.headers.addField (fieldName line) (fieldValue line) } := by
  have hidx : line.idxOf? colon = some (line.idxOf colon) := by
    cases hfound : line.idxOf? colon with
    | none => exact absurd hcolon (idxOf?_eq_none_iff.1 hfound)
    | some i => rw [idxOf_eq_getD_idxOf?, hfound, Option.getD_some]
  have hnot : (d.requestMethod = some .connect && 200 ≤ d.status && d.status < 300 &&
      asciiIequals (fieldName line) (text "Content-Length") : Bool) = false := by
    rw [← Bool.not_eq_true]
    simp only [Bool.and_eq_true, decide_eq_true_eq]
    exact fun h => htunnel ⟨h.1.1.1, h.1.1.2, h.1.2⟩
  have hagree : (asciiIequals (fieldName line) (text "Content-Length") &&
      d.headers.contains (text "Content-Length") &&
      trimOws (d.headers.get (text "Content-Length")) ≠ fieldValue line : Bool) = false := by
    rw [← Bool.not_eq_true]
    simp only [Bool.and_eq_true, decide_eq_true_eq]
    exact fun h => h.2 (hconf h.1.1 h.1.2)
  have hadd : d.headers.add (fieldName line) (fieldValue line) =
      .ok (d.headers.addField (fieldName line) (fieldValue line)) := by
    refine Headers.add_eq hname hval fun hline existing hexisting => ?_
    rw [lookupField_congr hline] at hexisting
    have hpres : d.headers.contains (text "Content-Length") = true := by
      rw [Headers.contains, hexisting]
      rfl
    have hget : d.headers.get (text "Content-Length") = existing := by
      rw [Headers.get, hexisting]
      rfl
    rw [trimOws_fieldValue, ← hget]
    exact hconf hline hpres
  have hdef : line.take (line.idxOf colon) = fieldName line := rfl
  have hdef' : trimOws (line.drop (line.idxOf colon + 1)) = fieldValue line := rfl
  simp only [headerLine, hidx, hdef, hdef', hname, hval, hnot, Bool.not_true, Bool.false_eq_true,
    if_false, Bool.not_false, Bool.true_and]
  rw [hagree]
  simp only [Bool.false_eq_true, if_false, if_neg (Nat.not_le.2 hcnt), ge_iff_le, hadd]

/-- **Field lines are read**, when at most one of them is a length. -/
theorem run_fieldLines {lines before : List Bytes}
    (hst : d.state = .headers) (hemp : d.line = [])
    (htunnel : ¬ (d.requestMethod = some .connect ∧ 200 ≤ d.status ∧ d.status < 300))
    (hcoll : Collected d.headers before) (hcomb : Combined d.headers before)
    (hvalid : ∀ line ∈ lines, ∃ name value, isValidHeaderName name = true ∧
      isValidHeaderValue value = true ∧ line = fieldLine name value)
    (hsize : ∀ line ∈ lines, line.length ≤ d.maxHeaderSize)
    (hcnt : d.headerCount + lines.length ≤ d.maxHeaders)
    (hone : (valuesOf (text "Content-Length") (before ++ lines)).length ≤ 1) (rest body : Bytes) :
    ∃ headers, Collected headers (before ++ lines) ∧ Combined headers (before ++ lines) ∧
      machine.run ⟨d, onWire lines ++ rest, body⟩ =
        machine.run
          ⟨{ d with headers := headers, headerCount := d.headerCount + lines.length }, rest,
            body⟩ := by
  induction lines generalizing d before with
  | nil =>
    refine ⟨d.headers, ?_, ?_, rfl⟩ <;> rwa [append_nil]
  | cons line lines ih =>
    obtain ⟨name, value, hname, hval, hline⟩ := hvalid line (mem_cons_self ..)
    have hfieldName : fieldName line = name := by rw [hline, fieldName_fieldLine hname]
    have hfieldValue : fieldValue line = trimOws value := by
      rw [hline, fieldValue_fieldLine hname]
    -- a second length is not there
    have hconf : asciiIequals (fieldName line) (text "Content-Length") = true →
        d.headers.contains (text "Content-Length") = true →
        trimOws (d.headers.get (text "Content-Length")) = fieldValue line := by
      intro hlen hpres
      have hfst := length_pos_of_ne_nil ((hcoll.contains _).1 hpres)
      rw [valuesOf_append, length_append, ← singleton_append, valuesOf_append,
        length_append] at hone
      have hsnd : (valuesOf (text "Content-Length") [line]).length = 1 := by
        simp [valuesOf, hlen]
      omega
    have hadd := headerLine_of_valid
      (by rw [hline]; exact colon_mem_fieldLine name value)
      (by rwa [hfieldName]) (by rw [hfieldValue]; exact isValidHeaderValue_trimOws hval) htunnel
      hconf (by rw [length_cons] at hcnt; omega)
    have hend : d.endLine line = { d with
        headerCount := d.headerCount + 1
        headers := d.headers.addField (fieldName line) (fieldValue line) } := by
      have hclear : { d with line := [] } = d := by rw [← hemp]
      have hne : line.isEmpty = false := by
        rw [hline, isEmpty_eq_false_iff]
        exact fieldLine_ne_nil name value
      simp only [endLine, hclear, hne]
      simp [processLine, hst, hne, hadd]
    have hplain : Plain (d.line ++ line) := by
      rw [hemp, hline]
      exact plain_fieldLine hname hval
    have hrun := run_line (.inr (.inl hst)) hplain
      (by rw [hemp]; exact hsize line (mem_cons_self ..)) (onWire lines ++ rest) body
    obtain ⟨headers, hcollected', hcombined', hrest⟩ := ih
      (d := { d with
        headerCount := d.headerCount + 1
        headers := d.headers.addField (fieldName line) (fieldValue line) })
      hst hemp htunnel (hcoll.addField hconf)
      (hcomb.addField hcoll line)
      (forall_mem_cons.1 hvalid).2
      (forall_mem_cons.1 hsize).2
      (by simp only [length_cons] at hcnt ⊢; omega)
      (by rwa [append_assoc])
    rw [append_assoc] at hcollected' hcombined'
    refine ⟨headers, hcollected', hcombined', ?_⟩
    rw [hemp, nil_append, hend, hrest] at hrun
    rw [onWire_cons, append_assoc, hrun, Nat.add_right_comm]
    rfl

theorem run_emptyLine {d d' : ResponseDecoder} (hst : d.state = .headers) (hemp : d.line = [])
    (hsel : d.selectFraming = d') (hne : d'.state ≠ .error) (rest body : Bytes) :
    machine.run ⟨d, crlf ++ rest, body⟩ =
      machine.run ⟨{ d' with headersComplete := true }, rest, body⟩ := by
  have hrun := run_line (.inr (.inl hst)) (by rw [hemp]; exact Plain.nil)
    (by rw [hemp]; exact Nat.zero_le _) rest body
  have hend : d.endLine [] = { d' with headersComplete := true } := by
    have hclear : { d with line := [] } = d := by rw [← hemp]
    simp only [endLine, hclear]
    simp [processLine, hst, hsel, hne]
  rwa [hemp, nil_append, nil_append, hend] at hrun

/-! ### The body -/

theorem run_fixedBody {content : Bytes}
    (hlen : d.remaining = content.length)
    (hst : d.state = if content.length = 0 then .complete else .fixedBody) (body : Bytes) :
    machine.run ⟨d, content, body⟩ =
      ⟨{ d with remaining := 0, state := .complete }, [], body ++ content⟩ := by
  cases content with
  | nil =>
    rw [run_nil, append_nil]
    rw [length_nil] at hlen
    rw [length_nil, if_pos rfl] at hst
    rw [← hlen, ← hst]
  | cons c content =>
    rw [run_body (.inl hst), hlen, Nat.min_self, Nat.sub_self, drop_length,
      take_length, hst]
    rfl

end Decoding

variable {maxHeaderSize maxHeaders : ℕ}

/-- **The chunks of a writer are a chunked body.** -/
theorem chunks_of_pieces {count : ℕ} (hlines : 8 ≤ maxHeaderSize) {pieces : List Bytes}
    (hpieces : ∀ piece ∈ pieces, piece ≠ [] ∧ piece.length ≤ maxBatch) :
    ∃ sizes, Chunks maxHeaderSize maxHeaders count
      ((pieces.map chunkOf).flatten ++ ending .chunked) pieces.flatten sizes := by
  induction pieces with
  | nil =>
    have hlast : Chunks maxHeaderSize maxHeaders count (text "0" ++ crlf ++ crlf) [] [] :=
      .last (le_trans (by decide) hlines) (by decide) .done
    exact ⟨[], hlast⟩
  | cons piece pieces ih =>
    obtain ⟨sizes, hrest⟩ := ih (forall_mem_cons.1 hpieces).2
    obtain ⟨hne, hle⟩ := hpieces piece (mem_cons_self ..)
    have hmax : piece.length ≤ maxChunkSize := hle.trans (by decide)
    have hchunk := Chunks.chunk ((length_toHex_le hmax).trans hlines)
      (parseChunkSizeLine_toHex hmax) hne hrest
    refine ⟨piece.length :: sizes, ?_⟩
    rw [map_cons, flatten_cons, flatten_cons, chunkOf]
    simpa only [append_assoc] using hchunk

/-! ### The connection -/

theorem keepAliveTokens_ne_false {tokens : List Bytes}
    (h : ∀ token ∈ tokens, asciiIequals (trimOws token) (text "close") = false) :
    Headers.keepAliveTokens tokens ≠ some false := by
  induction tokens with
  | nil => nofun
  | cons token tokens ih =>
    rw [Headers.keepAliveTokens]
    simp only [h token (mem_cons_self ..), Bool.false_eq_true, if_false]
    split_ifs
    · nofun
    · exact ih (forall_mem_cons.1 h).2

variable {h : Headers}

/-- A field without the token `close` keeps an HTTP/1.1 connection. -/
theorem keepAlive_of_not_close {value : Bytes} (hget : h.get (text "Connection") = trimOws value)
    (hclose : responsePlanConnectionClose value = false) :
    h.keepAlive (text "HTTP/1.1") = true := by
  have htokens : ∀ token ∈ (trimOws value).splitOn 0x2c,
      asciiIequals (trimOws token) (text "close") = false := by
    intro token htoken
    have hmem : trimOws token ∈ ((trimOws value).splitOn 0x2c).map trimOws :=
      mem_map_of_mem htoken
    rw [tokens_trimOws (by decide)] at hmem
    obtain ⟨token', htoken', heq⟩ := mem_map.1 hmem
    rw [responsePlanConnectionClose, any_eq_false] at hclose
    rw [← heq]
    simpa using hclose token' htoken'
  have hne := keepAliveTokens_ne_false htokens
  rw [Headers.keepAlive, hget]
  generalize Headers.keepAliveTokens ((trimOws value).splitOn 0x2c) = answer at hne
  match answer, hne with
  | none, _ => decide
  | some true, _ => rfl

/-! ### The two choices of the framing -/

/-- The ways to plan a body. -/
inductive BodyChoice (head : ResponseHead) (requestMethod : Method) (planned : BodyPlan) : Prop
  | none : planned.framing = .none → planned.expectedBodyBytes = some 0 →
      requestMethod = .head ∨ statusForbidsResponseBody head.status = true →
      BodyChoice head requestMethod planned
  | contentLength (n : ℕ) : planned.framing = .contentLength → n ≤ sizeMax →
      planned.wireLength = some n → planned.expectedBodyBytes = some n → requestMethod ≠ .head →
      statusForbidsResponseBody head.status = false → BodyChoice head requestMethod planned
  | chunked : planned.framing = .chunked → planned.wireLength = Option.none →
      requestMethod ≠ .head → statusForbidsResponseBody head.status = false →
      BodyChoice head requestMethod planned
  | closeDelimited : planned.framing = .closeDelimited → planned.wireLength = Option.none →
      requestMethod ≠ .head → statusForbidsResponseBody head.status = false →
      BodyChoice head requestMethod planned

variable {head : ResponseHead} {requestMethod : Method} {planned : BodyPlan}

theorem bodyChoice_of_bodyPlan {body : BodyDescription} {manual : Option ℕ}
    (hstat : 200 ≤ head.status)
    (h : bodyPlan head body requestMethod version manual = some planned) :
    BodyChoice head requestMethod planned := by
  have hforbids : statusForbidsResponseBody head.status =
      (head.status = 204 || head.status = 205 || head.status = 304 : Bool) := by
    have hlow : ¬ head.status < 200 := by omega
    simp [statusForbidsResponseBody, hlow]
  rw [bodyPlan] at h
  by_cases hbodyless : (requestMethod = .head || head.status = 204 || head.status = 205 ||
      head.status = 304 : Bool) = true
  · simp only [if_pos hbodyless] at h
    have hwhy : requestMethod = .head ∨ statusForbidsResponseBody head.status = true := by
      rw [hforbids]
      simp only [Bool.or_eq_true, decide_eq_true_eq] at hbodyless ⊢
      tauto
    by_cases hconf : (head.status ≠ 204 && manual.isSome && manual ≠
        if head.status = 205 then some 0
        else if head.status = 304 then (head.representationLength.map UInt64.toNat).or manual
        else if head.status ≠ 204 then
          (head.representationLength.map UInt64.toNat).or (body.length.map UInt64.toNat)
        else Option.none : Bool) = true
    · rw [if_pos hconf] at h
      cases h
    · rw [if_neg hconf] at h
      rw [← Option.some.inj h]
      exact .none rfl rfl hwhy
  · have hwhy : requestMethod ≠ .head ∧ statusForbidsResponseBody head.status = false := by
      rw [hforbids]
      simp only [Bool.or_eq_true, decide_eq_true_eq, not_or] at hbodyless
      simp only [Bool.or_eq_false_iff, decide_eq_false_iff_not]
      tauto
    cases hlen : body.length with
    | some n =>
      simp only [hlen, Option.map_some, Option.isSome_some, Bool.true_or, if_true] at h
      split_ifs at h
      rw [← Option.some.inj h]
      exact .contentLength n.toNat rfl (Nat.le_pred_of_lt n.toNat_lt) rfl rfl hwhy.1 hwhy.2
    | none =>
      simp only [hlen, Option.map_none, Option.isSome_none, Bool.false_or, Bool.false_eq_true,
        if_false] at h
      split_ifs at h with hclose hmanual hmanual heleven
      · rw [← Option.some.inj h]
        exact .closeDelimited rfl rfl hwhy.1 hwhy.2
      · rw [← Option.some.inj h]
        exact .chunked rfl rfl hwhy.1 hwhy.2
      · rw [← Option.some.inj h]
        exact .closeDelimited rfl rfl hwhy.1 hwhy.2

/-- The fields that choose the framing, as they are on the wire. -/
structure Announced (planned : BodyPlan) (lines : List Bytes) : Prop where
  coding : valuesOf (text "Transfer-Encoding") lines =
    if planned.framing = .chunked then [text "chunked"] else []
  length : valuesOf (text "Content-Length") lines = (planned.wireLength.map toDecimal).toList

theorem trimOws_toDecimal (n : ℕ) : trimOws (toDecimal n) = toDecimal n := by
  have hows : ∀ c ∈ toDecimal n, isOws c = false := by
    intro c hc
    have hdigit := isDigit_of_mem_toDecimal hc
    rw [← Bool.not_eq_true]
    intro hcontra
    simp only [isOws, Bool.or_eq_true, decide_eq_true_eq] at hcontra
    rcases hcontra with rfl | rfl <;> exact absurd hdigit (by decide)
  have hfront : (toDecimal n).dropWhile isOws = toDecimal n := by
    rw [dropWhile_eq_self_iff]
    intro hlen hows'
    rw [hows _ (getElem_mem _)] at hows'
    cases hows'
  rw [trimOws, hfront, rdropWhile_eq_self_iff]
  intro hne hows'
  rw [hows _ (getLast_mem hne)] at hows'
  cases hows'

theorem contentLength_of_toDecimal {n : ℕ}
    (hval : trimOws (h.get (text "Content-Length")) = toDecimal n) (hmax : n ≤ sizeMax) :
    h.contentLength = some n := by
  have hchars : fromChars sizeMax (toDecimal n) = some (n, []) := fromChars_toDecimal hmax
  have hdigit : ∀ c ∈ toDecimal n, isDigit c = true := fun c hc => isDigit_of_mem_toDecimal hc
  rw [Headers.contentLength, hval]
  have hne := toDecimal_ne_nil n
  generalize toDecimal n = digits at hchars hdigit hne ⊢
  cases digits with
  | nil => exact absurd rfl hne
  | cons first digits =>
    have hsign : ¬ (first = 0x2b || first = 0x2d : Bool) = true := by
      intro hsign
      have hfst := hdigit first (mem_cons_self ..)
      simp only [Bool.or_eq_true, decide_eq_true_eq] at hsign
      rcases hsign with rfl | rfl <;> exact absurd hfst (by decide)
    simp only [if_neg hsign, hchars]

variable {entries : List (Bytes × Bytes)}

theorem announced_planHeaders (hwell : h.WellFormed)
    (habs : h.contains (text "Transfer-Encoding") = false) (version : Bytes) (planned : BodyPlan)
    (reusable : Bool) (hents : entries.Perm (planHeaders h version planned reusable).headers) :
    Announced planned ((planHeaders h version planned reusable).fieldLines entries) where
  coding := by
    rw [Headers.valuesOf_fieldLines (wellFormed_planHeaders hwell _ _ _) hents (by decide),
      planHeaders_transferEncoding _ _ _ habs]
    split_ifs
    · decide
    · rfl
  length := by
    rw [Headers.valuesOf_fieldLines (wellFormed_planHeaders hwell _ _ _) hents (by decide),
      planHeaders_contentLength]
    cases planned.wireLength with
    | none => rfl
    | some n => simp [trimOws_toDecimal]

namespace Decoding

/-- **The decoder chooses the framing of the plan, and reads the body.** -/
theorem run_planned (hchoice : BodyChoice head requestMethod planned) (hstat : 200 ≤ head.status)
    (htunnel : requestMethod = .connect → 300 ≤ head.status) {d : ResponseDecoder}
    (hst : d.state = .headers) (hemp : d.line = []) (hcode : d.status = head.status)
    (hmeth : d.requestMethod = some requestMethod) (hnot : d.closeDelimited = false)
    {lines : List Bytes} (hcoll : Collected d.headers lines)
    (hcomb : Combined d.headers lines) (hannounced : Announced planned lines)
    (hlines : 8 ≤ d.maxHeaderSize) {content encoded : Bytes}
    (henc : Encoded (planned.framing = .chunked) content encoded)
    (hexp : ∀ n ∈ planned.expectedBodyBytes, content.length = n) :
    ∃ final, machine.run ⟨d, crlf ++ (encoded ++ ending planned.framing), []⟩ =
        ⟨final, [], content⟩ ∧
      final.status = d.status ∧ final.version = d.version ∧ final.headers = d.headers ∧
      if planned.framing = .closeDelimited then final.state = .closeBody
      else final.state = .complete ∧ final.closeDelimited = false := by
  have hhandoff : (d.status = 101 || (d.requestMethod = some .connect && 200 ≤ d.status &&
      d.status < 300) : Bool) = false := by
    rw [← Bool.not_eq_true, hmeth]
    simp only [Bool.or_eq_true, Bool.and_eq_true, decide_eq_true_eq, Option.some.injEq, not_or,
      not_and]
    exact ⟨by omega, fun h => by have := htunnel h.1; omega⟩
  have hstop : (d.requestMethod = some .head || statusForbidsResponseBody d.status : Bool) =
      (requestMethod = .head || statusForbidsResponseBody head.status : Bool) := by
    rw [hmeth, hcode]
    simp only [Option.some.injEq]
  have hbodied : requestMethod ≠ .head → statusForbidsResponseBody head.status = false →
      (requestMethod = .head || statusForbidsResponseBody head.status : Bool) = false := by
    intro hhead hforbids
    simp [hhead, hforbids]
  have hwire : planned.framing ≠ .chunked → encoded = content := by
    intro hnot
    cases henc with
    | plain _ heq => exact heq
    | chunks _ hchunked => exact absurd (of_decide_eq_true hchunked) hnot
  have hte := hcoll.contains (text "Transfer-Encoding")
  have hcl := hcoll.contains (text "Content-Length")
  rw [hannounced.coding] at hte
  rw [hannounced.length] at hcl
  cases hchoice with
  | none hframe hzero hwhy =>
    have hsel : d.selectFraming = { d with handoff := false, state := .complete } := by
      have hbodyless : (requestMethod = .head || statusForbidsResponseBody head.status : Bool) =
          true := by simpa using hwhy
      simp only [selectFraming, hhandoff, Bool.false_or, hstop, hbodyless, if_true]
    have hnil : content = [] := eq_nil_of_length_eq_zero (hexp 0 hzero)
    refine ⟨{ d with handoff := false, state := .complete, headersComplete := true }, ?_, rfl,
      rfl, rfl, ?_⟩
    · rw [run_emptyLine hst hemp hsel (by nofun), hwire (by simp [hframe]), hnil, hframe]
      exact run_nil _ _
    · rw [hframe]
      exact ⟨rfl, hnot⟩
  | contentLength n hframe hmax hlen hexpect hhead hforbids =>
    have hcoded : d.headers.contains (text "Transfer-Encoding") = false := by
      simpa [hframe] using hte
    have hsized : d.headers.contains (text "Content-Length") = true := by simp [hcl, hlen]
    have hval : trimOws (d.headers.get (text "Content-Length")) = toDecimal n :=
      hcoll.length _ (by simp [hannounced.length, hlen])
    have hread : d.headers.contentLength = some n := contentLength_of_toDecimal hval hmax
    have hsel : d.selectFraming = { d with
        handoff := false
        remaining := n
        state := if n = 0 then .complete else .fixedBody } := by
      simp only [selectFraming, hhandoff, Bool.false_or, hstop, hbodied hhead hforbids, hcoded, hsized, hread]
      rfl
    have hn : content.length = n := hexp n hexpect
    refine ⟨{ d with
        handoff := false
        remaining := 0
        state := .complete
        headersComplete := true }, ?_, rfl, rfl, rfl, ?_⟩
    · have hnext : (if n = 0 then DecoderState.complete else .fixedBody) ≠ .error := by
        split_ifs <;> nofun
      rw [run_emptyLine hst hemp hsel hnext, hwire (by simp [hframe]), hframe]
      refine (congrArg (fun rest => machine.run ⟨_, rest, []⟩) (append_nil content)).trans ?_
      exact run_fixedBody hn.symm (by rw [hn]) []
    · rw [hframe]
      exact ⟨rfl, hnot⟩
  | chunked hframe hlen hhead hforbids =>
    have hcoded : d.headers.contains (text "Transfer-Encoding") = true := by simp [hte, hframe]
    have hsized : d.headers.contains (text "Content-Length") = false := by
      simpa [hlen] using hcl
    have hval : d.headers.get (text "Transfer-Encoding") = text "chunked" := by
      rw [hcomb _ (by decide) (by decide), hannounced.coding, if_pos hframe]
      rfl
    have hname : asciiIequals (trimOws (text "chunked")) (text "chunked") = true := by decide
    have hsel : d.selectFraming = { d with handoff := false, state := .chunkSize } := by
      simp only [selectFraming, hhandoff, Bool.false_or, hstop, hbodied hhead hforbids, hcoded, hsized, hval,
        hname]
      rfl
    rw [run_emptyLine hst hemp hsel (by nofun)]
    cases henc with
    | plain hchunked => simp [hframe] at hchunked
    | chunks pieces _ hpieces hcont hwire =>
      obtain ⟨sizes, hchunks⟩ : ∃ sizes, Chunks d.maxHeaderSize d.maxHeaders d.headerCount
          ((pieces.map chunkOf).flatten ++ ending .chunked) pieces.flatten sizes :=
        chunks_of_pieces hlines hpieces
      obtain ⟨count, hrun⟩ := run_of_chunks
        (d := { d with handoff := false, state := .chunkSize, headersComplete := true }) rfl hemp
        hchunks [] []
      rw [append_nil, hcont] at hrun
      rw [hwire, hframe]
      refine ⟨_, hrun, rfl, rfl, rfl, ?_⟩
      exact ⟨rfl, hnot⟩
  | closeDelimited hframe hlen hhead hforbids =>
    have hcoded : d.headers.contains (text "Transfer-Encoding") = false := by
      simpa [hframe] using hte
    have hsized : d.headers.contains (text "Content-Length") = false := by
      simpa [hlen] using hcl
    have hsel : d.selectFraming = { d with
        handoff := false
        closeDelimited := true
        state := .closeBody } := by
      simp only [selectFraming, hhandoff, Bool.false_or, hstop, hbodied hhead hforbids, hcoded, hsized]
      rfl
    refine ⟨{ d with
        handoff := false
        closeDelimited := true
        state := .closeBody
        headersComplete := true }, ?_, rfl, rfl, rfl, ?_⟩
    · rw [run_emptyLine hst hemp hsel (by nofun), hwire (by simp [hframe]), hframe]
      refine (congrArg (fun rest => machine.run ⟨_, rest, []⟩) (append_nil content)).trans ?_
      exact run_closeBody rfl content []
    · rw [hframe, if_pos rfl]

/-- **A whole response is read**: the status line, the fields, and the body. -/
theorem run_response (hchoice : BodyChoice head requestMethod planned) (hge : 200 ≤ head.status)
    (hle : head.status ≤ 599) (htunnel : requestMethod = .connect → 300 ≤ head.status)
    {version line : Bytes} (hver : version = text "HTTP/1.0" ∨ version = text "HTTP/1.1")
    (hline : line = version ++ text " " ++ toDecimal head.status ++ text " " ++
    statusReason head.status) {lines : List Bytes}
    (hvalid : ∀ line ∈ lines, ∃ name value, isValidHeaderName name = true ∧
    isValidHeaderValue value = true ∧ line = fieldLine name value)
    (hannounced : Announced planned lines) (hcnt : lines.length ≤ maxHeaders)
    (hsize : ∀ line' ∈ line :: lines, line'.length ≤ maxHeaderSize) {content encoded : Bytes}
    (henc : Encoded (planned.framing = .chunked) content encoded)
    (hexp : ∀ n ∈ planned.expectedBodyBytes, content.length = n) :
    ∃ final, machine.run
        ⟨fresh maxHeaders maxHeaderSize (some requestMethod),
          line ++ crlf ++ onWire lines ++ crlf ++ encoded ++ ending planned.framing, []⟩ =
        ⟨final, [], content⟩ ∧
      final.status = head.status ∧ final.version = version ∧ Combined final.headers lines ∧
      if planned.framing = .closeDelimited then final.state = .closeBody
      else final.state = .complete ∧ final.closeDelimited = false := by
  have hfst : line.length ≤ maxHeaderSize := hsize line (mem_cons_self ..)
  -- the status line is longer than the size line of any chunk
  have height : 8 ≤ maxHeaderSize := by
    refine le_trans ?_ hfst
    have := (version_facts hver).2.2.2
    rw [hline]
    simp only [length_append, this]
    omega
  have hone : (valuesOf (text "Content-Length") ([] ++ lines)).length ≤ 1 := by
    rw [nil_append, hannounced.length]
    cases planned.wireLength <;> simp
  have hstat := run_statusLine (d := fresh maxHeaders maxHeaderSize (some requestMethod)) rfl rfl
    hver hge hle hline hfst
    (onWire lines ++ (crlf ++ (encoded ++ ending planned.framing))) []
  have hnot : ¬ (some requestMethod = some .connect ∧ 200 ≤ head.status ∧ head.status < 300) := by
    rintro ⟨hconn, -, hlt⟩
    have := htunnel (Option.some.inj hconn)
    omega
  obtain ⟨headers, hcoll, hcomb, hfields⟩ := run_fieldLines
    (d := { fresh maxHeaders maxHeaderSize (some requestMethod) with
      version := version
      status := head.status
      reason := statusReason head.status
      state := .headers })
    rfl rfl hnot .empty .empty hvalid
    (forall_mem_cons.1 hsize).2
    ((Nat.zero_add _).trans_le hcnt) hone
    (crlf ++ (encoded ++ ending planned.framing)) []
  obtain ⟨final, hbody, hcode, hversion', hheaders, hend⟩ := run_planned hchoice hge htunnel
    (d := { fresh maxHeaders maxHeaderSize (some requestMethod) with
      version := version
      status := head.status
      reason := statusReason head.status
      state := .headers
      headers := headers
      headerCount := 0 + lines.length })
    rfl rfl rfl rfl rfl hcoll hcomb hannounced height henc hexp
  refine ⟨final, ?_, hcode, hversion', by rwa [hheaders], hend⟩
  simp only [append_assoc] at hstat ⊢
  rw [hstat, hfields]
  exact hbody

end Decoding

/-! ### The round trip -/

/-- The fields of a reusable plan keep the connection. -/
theorem keepAlive_planHeaders (hwell : h.WellFormed)
    (hver : version = text "HTTP/1.0" ∨ version = text "HTTP/1.1") (planned : BodyPlan)
    (hclose : responsePlanConnectionClose (h.get (text "Connection")) = false)
    (hents : entries.Perm (planHeaders h version planned true).headers) {received : Headers}
    (hcomb : Combined received ((planHeaders h version planned true).fieldLines entries)) :
    received.keepAlive version = true := by
  have hget := hcomb (text "Connection") (by decide) (by decide)
  rw [Headers.valuesOf_fieldLines (wellFormed_planHeaders hwell _ _ _) hents (by decide),
    planHeaders_connection] at hget
  rcases hver with rfl | rfl
  · rw [if_pos rfl] at hget
    have hval : received.get (text "Connection") = text "keep-alive" := by
      rw [hget]
      decide
    rw [Headers.keepAlive, hval]
    decide
  · refine keepAlive_of_not_close ?_ hclose
    rw [hget, Headers.get]
    cases lookupField (text "Connection") h.headers <;> rfl

theorem finishEof_closeBody {d : ResponseDecoder} (hst : d.state = .closeBody) :
    d.finishEof.1 = { d with state := .complete } := by
  simp [finishEof, hst, ended, decode, decodeLoop]

/-- **A decoder with room for the fields of a plan reads the message of the plan.** -/
theorem run_message {body : BodyDescription} {allowReuse : Bool} {manual : Option ℕ}
    {plan : ResponsePlan} (hbuilt : head.headers.Built)
    (hplan : Planned head body requestMethod allowReuse version manual planned plan)
    (hents : entries.Perm plan.wireHeaders.headers)
    (hcnt : (plan.wireHeaders.fieldLines entries).length ≤ maxHeaders)
    (hsize : ∀ line ∈ plan.statusLine :: plan.wireHeaders.fieldLines entries,
    line.length ≤ maxHeaderSize) {content encoded : Bytes}
    (henc : Encoded (plan.framing = .chunked) content encoded)
    (hexp : ∀ n ∈ plan.expectedBodyBytes, content.length = n) :
    ∃ final, Decoding.machine.run
        ⟨fresh maxHeaders maxHeaderSize (some requestMethod),
          plan.headerBlock entries ++ encoded ++ ending plan.framing, []⟩ = ⟨final, [], content⟩ ∧
      final.status = head.status ∧ final.version = version ∧
      Combined final.headers (plan.wireHeaders.fieldLines entries) ∧
      if plan.framing = .closeDelimited then final.state = .closeBody
      else final.state = .complete ∧ final.closeDelimited = false := by
  have hwell := hbuilt.wellFormed
  have hlines : ∀ line ∈ plan.wireHeaders.fieldLines entries,
      ∃ name value, isValidHeaderName name = true ∧ isValidHeaderValue value = true ∧
        line = fieldLine name value := by
    intro line hline
    have hwell' : plan.wireHeaders.WellFormed := by
      rw [hplan.wireHeaders]
      exact wellFormed_planHeaders hwell _ _ _
    obtain ⟨kv, -, value, hname, hval, heq⟩ := Headers.mem_fieldLines hwell' hents hline
    exact ⟨kv.1, value, hname, hval, heq⟩
  have hannounced : Announced planned (plan.wireHeaders.fieldLines entries) := by
    rw [hplan.wireHeaders] at hents ⊢
    exact announced_planHeaders hwell hplan.no_coding _ _ _ hents
  rw [hplan.framing] at henc ⊢
  rw [hplan.expected] at hexp
  exact Decoding.run_response (bodyChoice_of_bodyPlan hplan.status_ge hplan.body_eq)
    hplan.status_ge hplan.status_le hplan.not_tunnel hplan.version_eq
    hplan.statusLine hlines hannounced hcnt hsize henc hexp

/-- **What is sent is what is received.**  A response that was sent without an error, over any
transport and with its body handed over in any pieces, is read by a decoder that knows the method of
the request as that response: its status, the bytes of its body and nothing more.  A body without a
length is ended by the end of the stream.  When the plan is reusable, so is what is read. -/
theorem response_round_trip (arrange : List (Bytes × Bytes) → List (Bytes × Bytes))
    (harrange : ∀ entries, (arrange entries).Perm entries) (reply : Reply)
    (hbuilt : reply.head.headers.Built) (requestMethod : Method) (requestVersion : Bytes)
    (allowReuse cancelled : Bool) (events : List TransportEvent) (maxHeaders maxHeaderSize : ℕ)
    {plan : ResponsePlan}
    (hplan : prepareResponse reply.head reply.description requestMethod requestVersion allowReuse =
      some plan)
    (hcount : (plan.wireHeaders.fieldLines (arrange plan.wireHeaders.headers)).length ≤ maxHeaders)
    (hsize : ∀ line ∈ plan.statusLine ::
      plan.wireHeaders.fieldLines (arrange plan.wireHeaders.headers), line.length ≤ maxHeaderSize)
    {result : SendResult} {wire : Bytes} {reuse : Bool}
    (hsent : sendResponse arrange reply requestMethod requestVersion allowReuse cancelled events =
      some (result, wire, reuse)) (hok : result.error = .none) :
    ∃ (d final : ResponseDecoder) (event : ResponseEvent),
      (fresh maxHeaders maxHeaderSize (some requestMethod)).drain wire =
        (d, event, (reply.calls plan).flatten.flatten, []) ∧
      final = (if plan.framing = .closeDelimited then d.finishEof.1 else d) ∧
      final.state = .complete ∧ final.status = reply.head.status ∧
      (plan.framing = .none → (reply.calls plan).flatten.flatten = []) ∧
      (plan.reusable = true →
        final.closeDelimited = false ∧ final.headers.keepAlive final.version = true) := by
  obtain ⟨version, manual, planned, hplanned⟩ := prepareResponse_spec hplan
  have hwell := hbuilt.wellFormed
  have hentries := harrange plan.wireHeaders.headers
  -- what is on the wire
  rw [sendResponse, hplan] at hsent
  obtain ⟨⟨w, wire'⟩, hreply, heq⟩ := Option.map_eq_some_iff.1 hsent
  obtain ⟨rfl, rfl, -⟩ : w.result = result ∧ wire' = wire ∧ _ := by
    simpa using heq
  obtain ⟨encoded, hwire, hencoded, hexpected⟩ := sendReply_ok hreply (by
    simp [BodyWriter.ok, hok])
  generalize (reply.calls plan).flatten.flatten = content at *
  have hkeep : plan.reusable = true → ∀ received : Headers,
      Combined received (plan.wireHeaders.fieldLines (arrange plan.wireHeaders.headers)) →
      received.keepAlive version = true := by
    intro hreusable received hcombined
    rw [hplanned.wireHeaders, hreusable] at hentries hcombined
    exact keepAlive_planHeaders hwell hplanned.version_eq planned (hplanned.reusable hreusable).2
      hentries hcombined
  obtain ⟨d, hrun, hcode, hversion, hcombined, hend⟩ := run_message hbuilt hplanned hentries hcount
    hsize hencoded hexpected
  have hdrain := Decoding.drain_eq (fresh maxHeaders maxHeaderSize (some requestMethod)) wire'
  rw [← hwire] at hrun
  rw [hrun] at hdrain
  refine ⟨d, _, _, hdrain, rfl, ?_⟩
  have hnone : plan.framing = .none → content = [] := by
    intro hframing
    rw [hplanned.framing] at hframing
    rw [hplanned.expected] at hexpected
    cases bodyChoice_of_bodyPlan hplanned.status_ge hplanned.body_eq with
    | none _ hzero => exact eq_nil_of_length_eq_zero (hexpected 0 hzero)
    | contentLength _ h | chunked h | closeDelimited h => rw [h] at hframing; cases hframing
  by_cases hclose : plan.framing = .closeDelimited
  · rw [if_pos hclose] at hend ⊢
    rw [finishEof_closeBody hend]
    exact ⟨rfl, hcode, hnone, fun hreusable => absurd hclose (hplanned.reusable hreusable).1⟩
  · rw [if_neg hclose] at hend ⊢
    refine ⟨hend.1, hcode, hnone, fun hreusable => ⟨hend.2, ?_⟩⟩
    rw [hversion]
    exact hkeep hreusable _ hcombined

/-- A producer that writes four bytes in two calls, over a transport that takes a few bytes at a
time. -/
def fourBytes : Reply :=
  .streaming ⟨200, [], .empty, none⟩ none .automatic [[text "ab", text "c"], [text "d"]] true

/-- What the transport does with the bytes of `fourBytes`. -/
def fewAtATime : List TransportEvent :=
  [.sent 40, .sent 7, .sent 5, .interrupted, .sent 3, .sent 6, .sent 5]

theorem isSome_prepareResponse_fourBytes :
    (prepareResponse fourBytes.head fourBytes.description .get (text "HTTP/1.1") true).isSome := by
  decide +kernel

theorem response_round_trip_fourBytes :
    ∃ (wire : Bytes) (d : ResponseDecoder) (event : ResponseEvent),
      sendResponse id fourBytes .get (text "HTTP/1.1") true false fewAtATime =
        some (⟨.none, .none, 4⟩, wire, true) ∧
      (fresh 100 8192 (some .get)).drain wire = (d, event, text "abcd", []) ∧
      d.state = .complete ∧ d.status = 200 ∧ d.closeDelimited = false ∧
      d.headers.keepAlive d.version = true := by
  have hplan := (Option.some_get isSome_prepareResponse_fourBytes).symm
  have hsent : (sendResponse id fourBytes .get (text "HTTP/1.1") true false fewAtATime).map
      (fun sent => (sent.1, sent.2.2)) = some (⟨.none, .none, 4⟩, true) := by decide +kernel
  obtain ⟨⟨result, wire, reuse⟩, hsent', heq⟩ := Option.map_eq_some_iff.1 hsent
  obtain ⟨rfl, rfl⟩ := Prod.mk.inj heq
  obtain ⟨d, final, event, hdrain, hfinal, hstate, hstatus, -, hreusable⟩ :=
    response_round_trip id (fun _ => .refl _) fourBytes .empty .get (text "HTTP/1.1") true false
      fewAtATime 100 8192 hplan (by decide +kernel) (by decide +kernel) hsent' rfl
  obtain ⟨hclose, hkeep⟩ := hreusable (by decide +kernel)
  subst hfinal
  exact ⟨wire, final, event, hsent', hdrain, hstate, hstatus, hclose, hkeep⟩

end Elio.Http
