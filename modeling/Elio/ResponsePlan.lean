/-
**The plan of a response.**

Before the first byte of a final response is sent, `prepare_response` of
`http/http_response_plan.hpp` checks the description of the response, chooses how its body is framed
and writes the header block.  The plan keeps the two parts of the header block apart here, the
status line and the fields; `ResponsePlan.headerBlock` is the text that is sent.

Lengths that a caller gives are `uint64_t` in the code and `UInt64` here.

Main results:

* `decimalValue_toDecimal`, `parseChunkSizeLine_toHex` — **numbers that are written are read back**;
* `prepareResponse_spec` — what an accepted description gives;
* `planHeaders_transferEncoding`, `planHeaders_contentLength`, `planHeaders_connection` — the fields
  that settle the framing, as they stand in the plan;
* `wellFormed_planHeaders` — **the fields of a plan are well formed**.
-/

import Elio.HeaderLines
import Elio.Numerals
import Elio.ResponseDecoder

set_option autoImplicit false

namespace Elio.Http

open List

/-! ### Numbers -/

/-- A digit of `std::to_chars`. -/
def digitChar (d : ℕ) : UInt8 := if d < 10 then UInt8.ofNat (0x30 + d) else UInt8.ofNat (0x57 + d)

/-- `std::to_string`. -/
def toDecimal (n : ℕ) : Bytes := (numeral 10 n).map digitChar

/-- `std::to_chars` in base 16. -/
def toHex (n : ℕ) : Bytes := (numeral 16 n).map digitChar

/-! ### Descriptions -/

/-- `response_head`. -/
structure ResponseHead where
  status : ℕ
  version : Bytes
  headers : Headers
  representationLength : Option UInt64
  deriving DecidableEq, Repr

/-- `enum class response_body_kind`. -/
inductive ResponseBodyKind where
  | complete
  | streaming
  deriving DecidableEq, Repr

/-- `enum class response_transfer`. -/
inductive ResponseTransfer where
  | automatic
  | closeDelimited
  deriving DecidableEq, Repr

/-- `enum class response_framing`. -/
inductive ResponseFraming where
  | none
  | contentLength
  | chunked
  | closeDelimited
  deriving DecidableEq, Repr

/-- `body_description`. -/
structure BodyDescription where
  kind : ResponseBodyKind
  length : Option UInt64
  transfer : ResponseTransfer
  deriving DecidableEq, Repr

/-- `response_plan`. -/
structure ResponsePlan where
  statusLine : Bytes
  wireHeaders : Headers
  framing : ResponseFraming
  expectedBodyBytes : Option ℕ
  invokeProducer : Bool
  reusable : Bool
  deriving DecidableEq, Repr

/-- `header_block`, with the entries of the fields in the given order. -/
def ResponsePlan.headerBlock (plan : ResponsePlan) (entries : List (Bytes × Bytes)) : Bytes :=
  plan.statusLine ++ crlf ++ plan.wireHeaders.serialize entries ++ crlf

/-- The table of `status_reason`. -/
def statusReasons : List (ℕ × String) :=
  [(100, "Continue"), (101, "Switching Protocols"), (102, "Processing"), (103, "Early Hints"),
    (200, "OK"), (201, "Created"), (202, "Accepted"), (203, "Non-Authoritative Information"),
    (204, "No Content"), (205, "Reset Content"), (206, "Partial Content"), (207, "Multi-Status"),
    (208, "Already Reported"), (226, "IM Used"), (300, "Multiple Choices"),
    (301, "Moved Permanently"), (302, "Found"), (303, "See Other"), (304, "Not Modified"),
    (305, "Use Proxy"), (307, "Temporary Redirect"), (308, "Permanent Redirect"),
    (400, "Bad Request"), (401, "Unauthorized"), (402, "Payment Required"), (403, "Forbidden"),
    (404, "Not Found"), (405, "Method Not Allowed"), (406, "Not Acceptable"),
    (407, "Proxy Authentication Required"), (408, "Request Timeout"), (409, "Conflict"),
    (410, "Gone"), (411, "Length Required"), (412, "Precondition Failed"),
    (413, "Payload Too Large"), (414, "URI Too Long"), (415, "Unsupported Media Type"),
    (416, "Range Not Satisfiable"), (417, "Expectation Failed"), (418, "I'm a teapot"),
    (421, "Misdirected Request"), (422, "Unprocessable Entity"), (423, "Locked"),
    (424, "Failed Dependency"), (425, "Too Early"), (426, "Upgrade Required"),
    (428, "Precondition Required"), (429, "Too Many Requests"),
    (431, "Request Header Fields Too Large"), (451, "Unavailable For Legal Reasons"),
    (500, "Internal Server Error"), (501, "Not Implemented"), (502, "Bad Gateway"),
    (503, "Service Unavailable"), (504, "Gateway Timeout"), (505, "HTTP Version Not Supported"),
    (506, "Variant Also Negotiates"), (507, "Insufficient Storage"), (508, "Loop Detected"),
    (510, "Not Extended"), (511, "Network Authentication Required")]

/-- `status_reason`. -/
def statusReason (code : ℕ) : Bytes :=
  match statusReasons.find? fun kv => kv.1 = code with
  | some kv => text kv.2
  | none => text "Unknown"

/-! ### The plan -/

/-- The loop of `response_plan_length`. -/
def planLengthDigits : ℕ → Bytes → Option ℕ
  | value, [] => some value
  | value, c :: rest =>
    if !isDigit c then none
    else
      let digit := c.toNat - 0x30
      if value > (sizeMax - digit) / 10 then none else planLengthDigits (value * 10 + digit) rest

/-- `response_plan_length`. -/
def responsePlanLength (s : Bytes) : Option ℕ :=
  if (trimOws s).isEmpty then none else planLengthDigits 0 (trimOws s)

/-- `response_plan_connection_close`: one of the tokens is `close`. -/
def responsePlanConnectionClose (value : Bytes) : Bool :=
  (value.splitOn 0x2c).any fun token => asciiIequals (trimOws token) (text "close")

/-- The length that the handler has set as a field: `none` when the field is not acceptable. -/
def manualLength (h : Headers) : Option (Option ℕ) :=
  if h.contains (text "Content-Length") then
    if (h.getAll (text "Content-Length")).length ≠ 1 then none
    else (responsePlanLength (h.get (text "Content-Length"))).map some
  else some none

/-- How the body is framed. -/
structure BodyPlan where
  framing : ResponseFraming
  wireLength : Option ℕ
  expectedBodyBytes : Option ℕ
  invokeProducer : Bool
  deriving DecidableEq, Repr

/-- The choice of the framing. -/
def bodyPlan (head : ResponseHead) (body : BodyDescription) (requestMethod : Method)
    (version : Bytes) (manual : Option ℕ) : Option BodyPlan :=
  let code := head.status
  let length := body.length.map UInt64.toNat
  let representation := head.representationLength.map UInt64.toNat
  let invokeProducer : Bool := body.kind = .streaming
  if requestMethod = .head || code = 204 || code = 205 || code = 304 then
    let wireLength :=
      if code = 205 then some 0
      else if code = 304 then representation.or manual
      else if code ≠ 204 then representation.or length
      else none
    if code ≠ 204 && manual.isSome && manual ≠ wireLength then none
    else some ⟨.none, wireLength, some 0, false⟩
  else if body.transfer = .closeDelimited then
    if length.isSome || manual.isSome then none
    else some ⟨.closeDelimited, none, length, invokeProducer⟩
  else if length.isSome then
    if manual.isSome && manual ≠ length then none
    else some ⟨.contentLength, length, length, invokeProducer⟩
  else if manual.isSome then none
  else
    some ⟨if version = text "HTTP/1.1" then .chunked else .closeDelimited, none, length,
      invokeProducer⟩

/-- The fields that are sent.  `set` accepts each of the names and values it is given here. -/
def planHeaders (h : Headers) (version : Bytes) (body : BodyPlan) (reusable : Bool) : Headers :=
  let h := h.remove (text "Content-Length")
  let h := match body.wireLength with
    | some length => h.setField (text "Content-Length") (toDecimal length)
    | none => h
  let h := if body.framing = .chunked then h.setField (text "Transfer-Encoding") (text "chunked")
    else h
  if !reusable then h.setField (text "Connection") (text "close")
  else if version = text "HTTP/1.0" then h.setField (text "Connection") (text "keep-alive")
  else h

/-- The version of the response: `none` when it is not one that can be sent. -/
def planVersion (head : ResponseHead) (requestVersion : Bytes) : Option Bytes :=
  let version := if head.version.isEmpty then requestVersion else head.version
  if requestVersion ≠ text "HTTP/1.0" && requestVersion ≠ text "HTTP/1.1" then none
  else if version ≠ text "HTTP/1.0" && version ≠ text "HTTP/1.1" then none
  else some (if requestVersion = text "HTTP/1.0" then text "HTTP/1.0" else version)

/-- `prepare_response`; `none` is `EINVAL`. -/
def prepareResponse (head : ResponseHead) (body : BodyDescription) (requestMethod : Method)
    (requestVersion : Bytes) (allowReuse : Bool) : Option ResponsePlan := do
  let version ← planVersion head requestVersion
  if body.kind = .complete && body.length.isNone then none
  else if head.status < 200 || head.status > 599 ||
      (requestMethod = .connect && head.status < 300) then none
  else if head.headers.contains (text "Transfer-Encoding") then none
  else
    let manual ← manualLength head.headers
    let body ← bodyPlan head body requestMethod version manual
    let reusable : Bool := allowReuse && body.framing ≠ .closeDelimited &&
      !responsePlanConnectionClose (head.headers.get (text "Connection"))
    some
      { statusLine := version ++ text " " ++ toDecimal head.status ++ text " " ++
          statusReason head.status
        wireHeaders := planHeaders head.headers version body reusable
        framing := body.framing
        expectedBodyBytes := body.expectedBodyBytes
        invokeProducer := body.invokeProducer
        reusable := reusable }

/-! ### Written numbers are read back -/

theorem digitChar_of_lt_ten : ∀ d < 10, isDigit (digitChar d) = true ∧
    (digitChar d).toNat - 0x30 = d := by decide

theorem digitChar_of_lt_sixteen : ∀ d < 16, isHexDigit (digitChar d) = true ∧
    hexDigitValue (digitChar d) = d := by decide

theorem toDecimal_ne_nil (n : ℕ) : toDecimal n ≠ [] :=
  mt map_eq_nil_iff.1 (numeral_ne_nil 10 n)

theorem isDigit_of_mem_toDecimal {n : ℕ} {c : UInt8} (h : c ∈ toDecimal n) : isDigit c = true := by
  obtain ⟨d, hd, rfl⟩ := mem_map.1 h
  exact (digitChar_of_lt_ten d (lt_of_mem_numeral (by decide) hd)).1

/-- **A number that is written in decimal digits is read back.** -/
theorem decimalValue_toDecimal (n : ℕ) : decimalValue (toDecimal n) = n := by
  rw [decimalValue, toDecimal, foldl_map]
  have hstep : ∀ (digits : List ℕ) (a : ℕ), (∀ d ∈ digits, d < 10) →
      digits.foldl (fun a d => a * 10 + ((digitChar d).toNat - 0x30)) a =
        digits.foldl (fun a d => a * 10 + d) a := by
    intro digits
    induction digits with
    | nil => intro a _; rfl
    | cons d digits ih =>
      intro a hdigits
      rw [foldl_cons,
        (digitChar_of_lt_ten d (hdigits d (mem_cons_self ..))).2]
      exact ih _ (forall_mem_cons.1 hdigits).2
  rw [hstep _ _ fun d hd => lt_of_mem_numeral (by decide) hd, foldl_numeral]

theorem fromChars_toDecimal {n max : ℕ} (h : n ≤ max) :
    fromChars max (toDecimal n) = some (n, []) := by
  have htake : (toDecimal n).takeWhile isDigit = toDecimal n :=
    takeWhile_eq_self_iff.2 fun c hc => isDigit_of_mem_toDecimal hc
  have hdrop : (toDecimal n).dropWhile isDigit = [] :=
    dropWhile_eq_nil_iff.2 fun c hc => isDigit_of_mem_toDecimal hc
  have hemp : ¬ (toDecimal n).isEmpty = true := by simpa using toDecimal_ne_nil n
  rw [fromChars, htake, hdrop, decimalValue_toDecimal]
  simp only [if_neg hemp, if_neg (Nat.not_lt.2 h)]

/-- The digit loop of a chunk size, for a number that fits. -/
theorem chunkSizeDigits_map (digits : List ℕ) (a : ℕ) (hdigits : ∀ d ∈ digits, d < 16)
    (hfits : digits.foldl (fun a d => a * 16 + d) a ≤ sizeMax) :
    chunkSizeDigits a (digits.map digitChar) =
      (digits.foldl (fun a d => a * 16 + d) a, true) := by
  induction digits generalizing a with
  | nil => rfl
  | cons d digits ih =>
    have hd := hdigits d (mem_cons_self ..)
    -- the value only grows, so it fits after this digit
    have hgrow : ∀ (l : List ℕ) (b : ℕ), b ≤ l.foldl (fun a d => a * 16 + d) b := by
      intro l
      induction l with
      | nil => intro b; exact le_rfl
      | cons e l ihl =>
        intro b
        rw [foldl_cons]
        exact le_trans (by omega) (ihl _)
    have hfst := (hgrow digits (a * 16 + d)).trans hfits
    rw [map_cons, chunkSizeDigits, (digitChar_of_lt_sixteen d hd).2]
    have hguard : ¬ a > (sizeMax - d) / 16 := by
      omega
    simp only [if_neg hguard]
    exact ih _ (forall_mem_cons.1 hdigits).2 hfits

/-- **A chunk size that is written is read back.** -/
theorem parseChunkSizeLine_toHex {n : ℕ} (h : n ≤ maxChunkSize) :
    parseChunkSizeLine (toHex n) = (n, none) := by
  have hhex : ∀ c ∈ toHex n, isHexDigit c = true := by
    intro c hc
    obtain ⟨d, hd, rfl⟩ := mem_map.1 hc
    exact (digitChar_of_lt_sixteen d (lt_of_mem_numeral (by decide) hd)).1
  have htake : (toHex n).takeWhile isHexDigit = toHex n := takeWhile_eq_self_iff.2 hhex
  have hdrop : (toHex n).dropWhile isHexDigit = [] := dropWhile_eq_nil_iff.2 hhex
  have hmax : maxChunkSize ≤ sizeMax := by decide
  have hdigits : chunkSizeDigits 0 (toHex n) = (n, true) := by
    have := chunkSizeDigits_map (numeral 16 n) 0
      (fun d hd => lt_of_mem_numeral (by decide) hd) (by rw [foldl_numeral]; omega)
    rwa [foldl_numeral] at this
  have hemp : ¬ (toHex n).isEmpty = true := by
    have hne : toHex n ≠ [] := mt map_eq_nil_iff.1 (numeral_ne_nil 16 n)
    simpa using hne
  rw [parseChunkSizeLine, htake, hdrop, hdigits]
  simp only [if_neg hemp, if_neg (Nat.not_lt.2 h)]
  rfl

theorem length_toHex_le {n : ℕ} (h : n ≤ maxChunkSize) : (toHex n).length ≤ 8 := by
  have hmax : maxChunkSize < 16 ^ 8 := by decide
  rw [toHex, length_map]
  exact length_numeral_le (by decide) (by decide) (by omega)

/-! ### What a plan says -/

/-- What is known of a plan that was made. -/
structure Planned (head : ResponseHead) (body : BodyDescription) (requestMethod : Method)
    (allowReuse : Bool) (version : Bytes) (manual : Option ℕ) (bodyPlanned : BodyPlan)
    (plan : ResponsePlan) : Prop where
  version_eq : version = text "HTTP/1.0" ∨ version = text "HTTP/1.1"
  status_ge : 200 ≤ head.status
  status_le : head.status ≤ 599
  not_tunnel : requestMethod = .connect → 300 ≤ head.status
  no_coding : head.headers.contains (text "Transfer-Encoding") = false
  body_eq : bodyPlan head body requestMethod version manual = some bodyPlanned
  statusLine : plan.statusLine = version ++ text " " ++ toDecimal head.status ++ text " " ++
    statusReason head.status
  wireHeaders : plan.wireHeaders = planHeaders head.headers version bodyPlanned plan.reusable
  framing : plan.framing = bodyPlanned.framing
  expected : plan.expectedBodyBytes = bodyPlanned.expectedBodyBytes
  reusable : plan.reusable = true → plan.framing ≠ .closeDelimited ∧
    responsePlanConnectionClose (head.headers.get (text "Connection")) = false

theorem planVersion_eq_some {head : ResponseHead} {requestVersion version : Bytes}
    (h : planVersion head requestVersion = some version) :
    version = text "HTTP/1.0" ∨ version = text "HTTP/1.1" := by
  rw [planVersion] at h
  generalize (if head.version.isEmpty then requestVersion else head.version) = chosen at h
  split_ifs at h with h1 h2 h3
  · exact .inl (Option.some.inj h).symm
  · rw [← Option.some.inj h]
    by_cases hten : chosen = text "HTTP/1.0"
    · exact .inl hten
    · exact .inr (by simpa [hten] using h2)

/-- **What an accepted description gives.** -/
theorem prepareResponse_spec {head : ResponseHead} {body : BodyDescription} {requestMethod : Method}
    {requestVersion : Bytes} {allowReuse : Bool} {plan : ResponsePlan}
    (h : prepareResponse head body requestMethod requestVersion allowReuse = some plan) :
    ∃ version manual bodyPlanned,
      Planned head body requestMethod allowReuse version manual bodyPlanned plan := by
  rw [prepareResponse] at h
  obtain ⟨version, hver, h⟩ := Option.bind_eq_some_iff.1 h
  split_ifs at h with hcomp hcode hte
  obtain ⟨manual, -, h⟩ := Option.bind_eq_some_iff.1 h
  obtain ⟨bodyPlanned, hbody, h⟩ := Option.bind_eq_some_iff.1 h
  simp only [Bool.or_eq_true, decide_eq_true_eq, Bool.and_eq_true, not_or, not_and, not_lt,
    gt_iff_lt] at hcode
  refine ⟨version, manual, bodyPlanned, ?_⟩
  rw [← Option.some.inj h]
  exact
    { version_eq := planVersion_eq_some hver
      status_ge := hcode.1.1
      status_le := hcode.1.2
      not_tunnel := hcode.2
      no_coding := by simpa using hte
      body_eq := hbody
      statusLine := rfl
      wireHeaders := rfl
      framing := rfl
      expected := rfl
      reusable := fun hreuse => by
        simp only [Bool.and_eq_true, Bool.not_eq_true', decide_eq_true_eq] at hreuse
        exact ⟨hreuse.1.2, hreuse.2⟩ }

/-! ### The fields of a plan -/

theorem lookupField_setField (h : Headers) (name value other : Bytes) :
    lookupField other (h.setField name value).headers =
      if asciiIequals name other then some value else lookupField other h.headers := by
  rw [Headers.setField, lookupField_assignField]

theorem lookupField_remove (h : Headers) (name other : Bytes) :
    lookupField other (h.remove name).headers =
      if asciiIequals name other then none else lookupField other h.headers := by
  rw [Headers.remove, Headers.lookupField_filter]

theorem planHeaders_transferEncoding {h : Headers} (version : Bytes) (body : BodyPlan)
    (reusable : Bool) (habs : h.contains (text "Transfer-Encoding") = false) :
    lookupField (text "Transfer-Encoding") (planHeaders h version body reusable).headers =
      if body.framing = .chunked then some (text "chunked") else none := by
  have hnone : lookupField (text "Transfer-Encoding") h.headers = none := by
    simpa [Headers.contains] using habs
  have hself : asciiIequals (text "Transfer-Encoding") (text "Transfer-Encoding") = true := by decide
  have hlen : asciiIequals (text "Content-Length") (text "Transfer-Encoding") = false := by decide
  have hconnection : asciiIequals (text "Connection") (text "Transfer-Encoding") = false := by decide
  rw [planHeaders]
  cases body.wireLength <;> simp only <;> split_ifs <;>
    simp [lookupField_setField, lookupField_remove, hself, hlen, hconnection, hnone]

theorem planHeaders_contentLength (h : Headers) (version : Bytes) (body : BodyPlan)
    (reusable : Bool) :
    lookupField (text "Content-Length") (planHeaders h version body reusable).headers =
      body.wireLength.map toDecimal := by
  have hself : asciiIequals (text "Content-Length") (text "Content-Length") = true := by decide
  have hcoding : asciiIequals (text "Transfer-Encoding") (text "Content-Length") = false := by decide
  have hconnection : asciiIequals (text "Connection") (text "Content-Length") = false := by decide
  rw [planHeaders]
  cases body.wireLength <;> simp only <;> split_ifs <;>
    simp [lookupField_setField, lookupField_remove, hself, hcoding, hconnection]

/-- `Connection` of a plan that says that the connection can be used again. -/
theorem planHeaders_connection (h : Headers) (version : Bytes) (body : BodyPlan) :
    lookupField (text "Connection") (planHeaders h version body true).headers =
      if version = text "HTTP/1.0" then some (text "keep-alive")
      else lookupField (text "Connection") h.headers := by
  have hself : asciiIequals (text "Connection") (text "Connection") = true := by decide
  have hcoding : asciiIequals (text "Transfer-Encoding") (text "Connection") = false := by decide
  have hlen : asciiIequals (text "Content-Length") (text "Connection") = false := by decide
  rw [planHeaders]
  cases body.wireLength <;> simp only <;> split_ifs <;>
    simp_all [lookupField_setField, lookupField_remove]

theorem isFieldByte_of_isDigit : ∀ c : UInt8, isDigit c = true → isFieldByte c = true := by
  intro c hc
  simp only [isDigit, Bool.and_eq_true, decide_eq_true_eq] at hc
  simp only [isFieldByte, Bool.not_eq_true', Bool.or_eq_false_iff, Bool.and_eq_false_iff,
    decide_eq_false_iff_not]
  refine ⟨.inl ?_, ?_⟩
  · intro h
    have hlow : (0x30 : UInt8).toNat ≤ c.toNat := UInt8.le_iff_toNat_le.1 hc.1
    have hhigh : c.toNat < (0x20 : UInt8).toNat := UInt8.lt_iff_toNat_lt.1 h
    exact absurd (hlow.trans_lt hhigh) (by decide)
  · rintro rfl
    exact absurd hc.2 (by decide)

/-- **The fields of a plan are well formed.** -/
theorem wellFormed_planHeaders {h : Headers} (hwell : h.WellFormed) (version : Bytes)
    (body : BodyPlan) (reusable : Bool) : (planHeaders h version body reusable).WellFormed := by
  have hremoved := hwell.remove (text "Content-Length")
  have hlen : (match body.wireLength with
      | some length => (h.remove (text "Content-Length")).setField (text "Content-Length")
          (toDecimal length)
      | none => h.remove (text "Content-Length")).WellFormed := by
    cases body.wireLength with
    | none => exact hremoved
    | some length =>
      refine hremoved.setField (by decide) ?_
      rw [isValidHeaderValue, all_eq_true]
      exact fun c hc => isFieldByte_of_isDigit c (isDigit_of_mem_toDecimal hc)
  rw [planHeaders]
  generalize (match body.wireLength with
      | some length => (h.remove (text "Content-Length")).setField (text "Content-Length")
          (toDecimal length)
      | none => h.remove (text "Content-Length")) = h' at hlen ⊢
  have hcoded : (if body.framing = .chunked then
      h'.setField (text "Transfer-Encoding") (text "chunked") else h').WellFormed := by
    split_ifs
    · exact hlen.setField (by decide) (by decide)
    · exact hlen
  split_ifs at hcoded ⊢ <;>
    first
      | exact hcoded.setField (by decide) (by decide)
      | exact hcoded

end Elio.Http
