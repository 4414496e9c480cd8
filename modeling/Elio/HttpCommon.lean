/-
**Vocabulary of the HTTP modules.**

`http/http_common.hpp` fixes the request methods, classifies bytes and validates the small texts a
message is made of.  A text is the list of its bytes here, so that what the code compares byte by
byte is compared byte by byte in the model.

`inet_pton` is the one function of the C library whose answer is not modelled: whether an IPv6
literal is well formed is a parameter, and everything here and in the parsers holds for every such
parameter.

Main definitions:

* `Bytes`, `text` — a text, and the text of a literal.

Main results:

* `findCrlf_append_of_some` — the first line end of a text stays where it is when the text grows;
* `findCrlf_line`, `findCrlf_eq_some` — a line, its line end and what follows.
-/

import Mathlib.Data.UInt
import Mathlib.Data.List.DropRight

set_option autoImplicit false

namespace Elio.Http

open List

/-- A `std::string` or a `std::string_view`. -/
abbrev Bytes := List UInt8

/-- The bytes of a string literal. -/
def text (s : String) : Bytes := s.toByteArray.data.toList

/-- `SIZE_MAX`. -/
def sizeMax : ℕ := 2 ^ 64 - 1

/-- `enum class method`. -/
inductive Method where
  | get
  | head
  | post
  | put
  | delete
  | connect
  | options
  | trace
  | patch
  deriving DecidableEq, Repr

/-- `'/'`. -/
def slash : UInt8 := 0x2f

/-- `':'`. -/
def colon : UInt8 := 0x3a

/-- `'*'`. -/
def star : UInt8 := 0x2a

/-- `'\r'`. -/
def cr : UInt8 := 0x0d

/-- `'\n'`. -/
def lf : UInt8 := 0x0a

/-- `' '`. -/
def space : UInt8 := 0x20

/-- `"\r\n"`. -/
def crlf : Bytes := [cr, lf]

/-- `string_to_method`. -/
def stringToMethod (str : Bytes) : Option Method :=
  if str = text "GET" then some .get
  else if str = text "HEAD" then some .head
  else if str = text "POST" then some .post
  else if str = text "PUT" then some .put
  else if str = text "DELETE" then some .delete
  else if str = text "CONNECT" then some .connect
  else if str = text "OPTIONS" then some .options
  else if str = text "TRACE" then some .trace
  else if str = text "PATCH" then some .patch
  else none

/-! ### Classes of bytes -/

/-- `is_ows`: a space or a horizontal tab. -/
def isOws (c : UInt8) : Bool := c = 0x20 || c = 0x09

/-- A decimal digit. -/
def isDigit (c : UInt8) : Bool := 0x30 ≤ c && c ≤ 0x39

/-- A letter. -/
def isAlpha (c : UInt8) : Bool := (0x61 ≤ c && c ≤ 0x7a) || (0x41 ≤ c && c ≤ 0x5a)

/-- `is_hex_digit` and `connect_hex_digit`. -/
def isHexDigit (c : UInt8) : Bool :=
  isDigit c || (0x61 ≤ c && c ≤ 0x66) || (0x41 ≤ c && c ≤ 0x46)

/-- `hex_digit_value`. -/
def hexDigitValue (c : UInt8) : ℕ :=
  if isDigit c then c.toNat - 0x30
  else if 0x61 ≤ c && c ≤ 0x66 then c.toNat - 0x61 + 10
  else c.toNat - 0x41 + 10

/-- `is_tchar`. -/
def isTchar (c : UInt8) : Bool :=
  isDigit c || isAlpha c || c ∈ text "!#$%&'*+-.^_`|~"

/-- `std::tolower` in the C locale. -/
def toLower (c : UInt8) : UInt8 := if 0x41 ≤ c && c ≤ 0x5a then c + 0x20 else c

/-! ### Text operations -/

/-- `find("\r\n")`. -/
def findCrlf : Bytes → Option ℕ
  | [] => none
  | [_] => none
  | a :: b :: rest => if a = cr ∧ b = lf then some 0 else (findCrlf (b :: rest)).map (· + 1)

/-- `rfind` of a byte. -/
def rfind (c : UInt8) (s : Bytes) : Option ℕ :=
  (s.reverse.idxOf? c).map fun k => s.length - 1 - k

/-- `trim_ows`. -/
def trimOws (s : Bytes) : Bytes := (s.dropWhile isOws).rdropWhile isOws

/-- `ascii_iequals` and `case_insensitive_equal`. -/
def asciiIequals (a b : Bytes) : Bool := a.map toLower = b.map toLower

/-- The number written by decimal digits, most significant first. -/
def decimalValue (digits : Bytes) : ℕ :=
  digits.foldl (fun n c => n * 10 + (c.toNat - 0x30)) 0

/-- `std::from_chars` for an unsigned type with the largest value `max`: the number and what follows
its digits.  There is no result without a digit, and none when the number does not fit. -/
def fromChars (max : ℕ) (s : Bytes) : Option (ℕ × Bytes) :=
  let digits := s.takeWhile isDigit
  if digits.isEmpty then none
  else if max < decimalValue digits then none
  else some (decimalValue digits, s.dropWhile isDigit)

/-! ### Validators -/

/-- `is_valid_token`. -/
def isValidToken (value : Bytes) : Bool := !value.isEmpty && value.all isTchar

/-- `is_valid_header_name`. -/
def isValidHeaderName (name : Bytes) : Bool := isValidToken name

/-- A byte that `is_valid_header_value` lets pass. -/
def isFieldByte (c : UInt8) : Bool := !((c < 0x20 && c ≠ 0x09) || c = 0x7f)

/-- `is_valid_header_value`. -/
def isValidHeaderValue (value : Bytes) : Bool := value.all isFieldByte

/-- `has_request_target_forbidden_char`. -/
def hasRequestTargetForbiddenChar (value : Bytes) : Bool :=
  value.any fun c => c ≤ 0x20 || c = 0x7f

/-- `is_valid_request_target`. -/
def isValidRequestTarget (target : Bytes) : Bool :=
  !target.isEmpty && !hasRequestTargetForbiddenChar target

/-- `connect_host_char`. -/
def connectHostChar (c : UInt8) : Bool :=
  isAlpha c || isDigit c || c ∈ text "-._~!$&'()*+,;="

/-- The loop over a registered name, with its percent escapes. -/
def isRegName : Bytes → Bool
  | [] => true
  | c :: rest =>
    if c = 0x25 then
      match rest with
      | a :: b :: rest => isHexDigit a && isHexDigit b && isRegName rest
      | _ => false
    else connectHostChar c && isRegName rest

/-- An IP literal, without its brackets.  `inetPton6` is `inet_pton(AF_INET6, ...)`, which reads at
most `INET6_ADDRSTRLEN` bytes. -/
def isIpLiteral (inetPton6 : Bytes → Bool) (literal : Bytes) : Bool :=
  match literal with
  | [] => false
  | c :: rest =>
    if c = 0x76 || c = 0x56 then
      let version := rest.takeWhile isHexDigit
      match rest.dropWhile isHexDigit with
      | dot :: address =>
        !version.isEmpty && dot = 0x2e && !address.isEmpty &&
          address.all fun c => connectHostChar c || c = colon
      | [] => false
    else literal.length < 46 && inetPton6 literal

/-- `is_valid_connect_authority`. -/
def isValidConnectAuthority (inetPton6 : Bytes → Bool) (target : Bytes) : Bool :=
  match rfind colon target with
  | none => false
  | some separator =>
    let host := target.take separator
    let portText := target.drop (separator + 1)
    match host with
    | [] => false
    | first :: inner =>
      match fromChars 65535 portText with
      | some (port, []) =>
        if port = 0 then false
        else if first = 0x5b then
          3 ≤ host.length && host.getLast? = some 0x5d && isIpLiteral inetPton6 inner.dropLast
        else isRegName host
      | _ => false

/-- `is_valid_http_version`; the empty text passes. -/
def isValidHttpVersion (version : Bytes) : Bool :=
  version.isEmpty ||
    (version.take 5 = text "HTTP/" &&
      match version.drop 5 with
      | [major, dot, minor] => dot = 0x2e && isDigit major && isDigit minor
      | _ => false)

/-! ### Lines -/

theorem findCrlf_cons_cons (a b : UInt8) (rest : Bytes) :
    findCrlf (a :: b :: rest) =
      if a = cr ∧ b = lf then some 0 else (findCrlf (b :: rest)).map (· + 1) := by
  rw [findCrlf]

variable {s : Bytes} {n : ℕ}

/-- **The first line end stays where it is when the text grows.** -/
theorem findCrlf_append_of_some (h : findCrlf s = some n) (t : Bytes) :
    findCrlf (s ++ t) = some n := by
  induction s generalizing n with
  | nil => cases h
  | cons a s ih =>
    cases s with
    | nil => cases h
    | cons b rest =>
      rw [findCrlf_cons_cons] at h
      rw [cons_append, cons_append, findCrlf_cons_cons]
      split_ifs at h ⊢ with hab
      · exact h
      · obtain ⟨m, hm, rfl⟩ := Option.map_eq_some_iff.1 h
        have hrest := ih hm
        rw [cons_append] at hrest
        rw [hrest]
        rfl

/-- A line end has its two bytes within the text. -/
theorem findCrlf_lt_length (h : findCrlf s = some n) : n + 2 ≤ s.length := by
  induction s generalizing n with
  | nil => cases h
  | cons a s ih =>
    cases s with
    | nil => cases h
    | cons b rest =>
      rw [findCrlf_cons_cons] at h
      split_ifs at h with hab
      · cases h
        simp
      · obtain ⟨m, hm, rfl⟩ := Option.map_eq_some_iff.1 h
        have := ih hm
        simp only [length_cons] at this ⊢
        omega

/-- What `find` has found: the line, the line end and what follows. -/
theorem findCrlf_eq_some (h : findCrlf s = some n) : s = s.take n ++ crlf ++ s.drop (n + 2) := by
  induction s generalizing n with
  | nil => cases h
  | cons a s ih =>
    cases s with
    | nil => cases h
    | cons b rest =>
      rw [findCrlf_cons_cons] at h
      split_ifs at h with hab
      · obtain ⟨rfl, rfl⟩ := hab
        cases h
        rfl
      · obtain ⟨m, hm, rfl⟩ := Option.map_eq_some_iff.1 h
        have hrest := ih hm
        rw [take_succ_cons, cons_append, cons_append, drop_succ_cons,
          ← hrest]

/-- A line without a `'\r'` ends where its line end stands. -/
theorem findCrlf_line {line : Bytes} (h : cr ∉ line) (rest : Bytes) :
    findCrlf (line ++ crlf ++ rest) = some line.length := by
  induction line with
  | nil => simp [crlf, findCrlf]
  | cons a line ih =>
    rw [mem_cons, not_or] at h
    obtain ⟨ha, hline⟩ := h
    have hrest := ih hline
    cases line with
    | nil =>
      simp only [crlf, cons_append, nil_append, findCrlf_cons_cons] at hrest ⊢
      rw [if_neg fun hc => ha hc.1.symm]
      rfl
    | cons b line =>
      simp only [cons_append, findCrlf_cons_cons] at hrest ⊢
      rw [if_neg fun hc => ha hc.1.symm, hrest]
      rfl

/-- A text that has no line end gets one from more bytes no earlier than its last byte. -/
theorem length_le_of_findCrlf_append {t : Bytes} (hs : findCrlf s = none)
    (h : findCrlf (s ++ t) = some n) :
    s.length ≤ n ∨ (s.length = n + 1 ∧ s.getLast? = some cr) := by
  induction s generalizing n with
  | nil => exact .inl (Nat.zero_le n)
  | cons a s ih =>
    cases s with
    | nil =>
      cases t with
      | nil => cases h
      | cons b t =>
        simp only [cons_append, nil_append, findCrlf_cons_cons] at h
        split_ifs at h with hab
        · cases h
          exact .inr ⟨rfl, by rw [hab.1]; rfl⟩
        · obtain ⟨m, -, rfl⟩ := Option.map_eq_some_iff.1 h
          exact .inl (by simp)
    | cons b rest =>
      rw [findCrlf_cons_cons] at hs
      simp only [cons_append, findCrlf_cons_cons] at h
      split_ifs at hs h with hab
      rw [Option.map_eq_none_iff] at hs
      obtain ⟨m, hm, rfl⟩ := Option.map_eq_some_iff.1 h
      rcases ih hs hm with hle | ⟨hlen, hlast⟩
      · exact .inl (by simp only [length_cons] at hle ⊢; omega)
      · exact .inr ⟨by simp only [length_cons] at hlen ⊢; omega, by
          rw [getLast?_cons_cons]; exact hlast⟩

end Elio.Http
