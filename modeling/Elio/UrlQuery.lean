/-
**The queries of URLs.**

A query is a list of pairs, taken apart at `&` and `=`; `url_encode` writes neither of them.

Main definitions:

* `encodeQuery` — the text of a list of pairs.

Main results:

* `urlDecode_urlEncode` — an encoded text is read back;
* `query_round_trip` — **the pairs of a query are read back**, the last one of a key.
-/

import Elio.UrlText

set_option autoImplicit false

namespace Elio.Http

open List

/-- A byte that `url_encode` leaves as it is. -/
def isUnreserved (c : UInt8) : Bool := isAlpha c || isDigit c || c ∈ text "-_.~"

/-- A digit of `"0123456789ABCDEF"`. -/
def upperHexDigit (d : ℕ) : UInt8 :=
  if d < 10 then UInt8.ofNat (0x30 + d) else UInt8.ofNat (0x37 + d)

/-- `url_encode`. -/
def urlEncode (str : Bytes) : Bytes :=
  str.flatMap fun c =>
    if isUnreserved c then [c]
    else [0x25, upperHexDigit (c.toNat / 16), upperHexDigit (c.toNat % 16)]

/-- `url_decode`: a `%` without two digits behind it stays, and a `+` is a space. -/
def urlDecode : Bytes → Bytes
  | [] => []
  | c :: a :: b :: rest =>
    if c = 0x25 && isHexDigit a && isHexDigit b then
      UInt8.ofNat (16 * hexDigitValue a + hexDigitValue b) :: urlDecode rest
    else (if c = 0x2b then space else c) :: urlDecode (a :: b :: rest)
  | c :: rest => (if c = 0x2b then space else c) :: urlDecode rest

/-- `parse_query_string`, as a map from the keys. -/
def parseQueryString (query : Bytes) : Bytes → Option Bytes :=
  (query.splitOn 0x26).foldl (fun result pair =>
    match cutAt 0x3d pair with
    | some (key, value) => Function.update result (urlDecode key) (some (urlDecode value))
    | none =>
      if pair.isEmpty then result else Function.update result (urlDecode pair) (some []))
    fun _ => none

/-- The text of a list of pairs. -/
def encodeQuery (pairs : List (Bytes × Bytes)) : Bytes :=
  [0x26].intercalate (pairs.map fun pair => urlEncode pair.1 ++ 0x3d :: urlEncode pair.2)

theorem upperHexDigit_of_lt : ∀ d < 16, isHexDigit (upperHexDigit d) = true ∧
    hexDigitValue (upperHexDigit d) = d ∧ upperHexDigit d ≠ 0x26 ∧ upperHexDigit d ≠ 0x3d := by
  decide

theorem hexDigits_of_byte (c : UInt8) : c.toNat / 16 < 16 ∧ c.toNat % 16 < 16 ∧
    UInt8.ofNat (16 * (c.toNat / 16) + c.toNat % 16) = c := by
  have hc : c.toNat < 256 := c.toNat_lt
  refine ⟨by omega, by omega, ?_⟩
  rw [Nat.div_add_mod]
  exact UInt8.ofNat_toNat

theorem ne_of_isUnreserved {c : UInt8} (h : isUnreserved c = true) :
    c ≠ 0x25 ∧ c ≠ 0x2b ∧ c ≠ 0x26 ∧ c ≠ 0x3d := by
  refine ⟨?_, ?_, ?_, ?_⟩ <;> rintro rfl <;> exact absurd h (by decide)

theorem urlDecode_cons_of_ne {c : UInt8} (h : c ≠ 0x25) (h' : c ≠ 0x2b) (rest : Bytes) :
    urlDecode (c :: rest) = c :: urlDecode rest := by
  match rest with
  | [] | [_] => simp [urlDecode, h']
  | a :: b :: rest => simp [urlDecode, h, h']

/-- **An encoded text is read back.** -/
theorem urlDecode_urlEncode (str : Bytes) : urlDecode (urlEncode str) = str := by
  induction str with
  | nil => rfl
  | cons c str ih =>
    obtain ⟨hhigh, hlow, hc⟩ := hexDigits_of_byte c
    obtain ⟨hhigh, hhigh', -⟩ := upperHexDigit_of_lt _ hhigh
    obtain ⟨hlow, hlow', -⟩ := upperHexDigit_of_lt _ hlow
    rw [urlEncode, flatMap_cons, ← urlEncode]
    split_ifs with hplain
    · obtain ⟨hpercent, hplus, -⟩ := ne_of_isUnreserved hplain
      rw [singleton_append, urlDecode_cons_of_ne hpercent hplus, ih]
    · simp [urlDecode, hhigh, hlow, hhigh', hlow', hc, ih]

/-- An encoded text has none of the bytes that take a query apart. -/
theorem ne_of_mem_urlEncode {str : Bytes} {d : UInt8} (h : d ∈ urlEncode str) :
    d ≠ 0x26 ∧ d ≠ 0x3d := by
  obtain ⟨c, -, hd⟩ := mem_flatMap.1 h
  obtain ⟨hhigh, hlow, -⟩ := hexDigits_of_byte c
  split_ifs at hd with hplain
  · rw [mem_singleton.1 hd]
    exact (ne_of_isUnreserved hplain).2.2
  · simp only [mem_cons, not_mem_nil, or_false] at hd
    rcases hd with rfl | rfl | rfl
    · decide
    · exact (upperHexDigit_of_lt _ hhigh).2.2
    · exact (upperHexDigit_of_lt _ hlow).2.2

/-- **A query is read back**: each key has the value of its last pair. -/
theorem query_round_trip (pairs : List (Bytes × Bytes)) :
    (parseQueryString (encodeQuery pairs) = fun key => pairs.reverse.lookup key) ∧
      ∀ b, urlDecode (urlEncode b) = b := by
  refine ⟨?_, urlDecode_urlEncode⟩
  by_cases hne : pairs = []
  · rw [hne]
    rfl
  have hpieces : (encodeQuery pairs).splitOn 0x26 =
      pairs.map fun pair => urlEncode pair.1 ++ 0x3d :: urlEncode pair.2 := by
    refine splitOn_intercalate _ (fun piece hpiece hmem => ?_) (by simpa using hne)
    obtain ⟨pair, -, rfl⟩ := mem_map.1 hpiece
    rcases mem_append.1 hmem with hmem | hmem
    · exact (ne_of_mem_urlEncode hmem).1 rfl
    · exact (mem_cons.1 hmem).elim (by decide) fun hmem => (ne_of_mem_urlEncode hmem).1 rfl
  have hpair : ∀ pair : Bytes × Bytes,
      cutAt 0x3d (urlEncode pair.1 ++ 0x3d :: urlEncode pair.2) =
        some (urlEncode pair.1, urlEncode pair.2) := fun pair =>
    cutAt_append_cons (fun hmem => (ne_of_mem_urlEncode hmem).2 rfl) _
  rw [parseQueryString, hpieces, foldl_map]
  simp only [hpair, urlDecode_urlEncode]
  clear hne hpieces hpair
  -- the last pair comes first in the reversed list
  induction pairs using reverseRecOn with
  | nil => rfl
  | append_singleton pairs pair ih =>
    funext key
    rw [reverse_concat, lookup_cons]
    cases hkey : key == pair.1 <;> simp_all

end Elio.Http
