/-
**The header collection.**

`http/http_common.hpp` keeps the fields of a message in two maps whose keys compare without regard
to case: `headers_` holds one combined text for each name, and `header_values_` the values of the
single field lines.  The order of an `std::unordered_map` has no meaning, and neither has the order
of the entries of the lists that stand for the maps here; the first spelling of a name is kept as
its key, as in the code.

Main definitions:

* `Headers` — the collection;
* `Headers.set`, `Headers.add` — how fields get into it.

Main results:

* `Headers.add_eq` — when `add` does not throw;
* `Headers.contains_addField`, `Headers.getAll_addField_of_eq`,
  `Headers.addField_contentLength_of_present` — what a new field line changes;
* `Headers.digits_of_contentLength` — **a declared length is a string of digits**.
-/

import Elio.HttpCommon

set_option autoImplicit false

namespace Elio.Http

open List

/-- `headers`. -/
structure Headers where
  headers : List (Bytes × Bytes)
  headerValues : List (Bytes × List Bytes)
  deriving DecidableEq, Repr

/-- The `std::invalid_argument` of `set` and `add`. -/
inductive HeaderError where
  | invalidName
  | invalidValue
  | conflictingContentLength
  deriving DecidableEq, Repr

/-! ### Maps with case-insensitive keys -/

section Map

variable {α : Type*}

/-- `find` in a map. -/
def lookupField (name : Bytes) (map : List (Bytes × α)) : Option α :=
  (map.find? fun kv => asciiIequals kv.1 name).map Prod.snd

/-- `map[name] = value`: an entry keeps the key it was made with. -/
def assignField (name : Bytes) (value : α) : List (Bytes × α) → List (Bytes × α)
  | [] => [(name, value)]
  | kv :: rest =>
    if asciiIequals kv.1 name then (kv.1, value) :: rest else kv :: assignField name value rest

end Map

namespace Headers

/-- A collection without fields. -/
def empty : Headers := ⟨[], []⟩

/-- `get`: the empty text when there is no such field. -/
def get (h : Headers) (name : Bytes) : Bytes := (lookupField name h.headers).getD []

/-- `contains`. -/
def contains (h : Headers) (name : Bytes) : Bool := (lookupField name h.headers).isSome

/-- `get_all`. -/
def getAll (h : Headers) (name : Bytes) : List Bytes :=
  match lookupField name h.headerValues with
  | some values => values
  | none => (lookupField name h.headers).toList

/-- What `set` does with a name and a value that it accepts. -/
def setField (h : Headers) (name value : Bytes) : Headers where
  headers := assignField name value h.headers
  headerValues := assignField name [value] h.headerValues

/-- `set`. -/
def set (h : Headers) (name value : Bytes) : Except HeaderError Headers :=
  if !isValidHeaderName name then .error .invalidName
  else if !isValidHeaderValue value then .error .invalidValue
  else .ok (h.setField name value)

/-- What `add` does with a field line that it accepts.  A second `Content-Length` is dropped, a
second `Set-Cookie` is kept among the values only, and every other field is joined to the one
before. -/
def addField (h : Headers) (name value : Bytes) : Headers :=
  match lookupField name h.headers with
  | none =>
    { headers := assignField name value h.headers
      headerValues := assignField name [value] h.headerValues }
  | some existing =>
    if asciiIequals name (text "Content-Length") then h
    else
      { headers :=
          if asciiIequals name (text "Set-Cookie") then h.headers
          else assignField name (existing ++ text ", " ++ value) h.headers
        headerValues :=
          assignField name ((lookupField name h.headerValues).getD [existing] ++ [value])
            h.headerValues }

/-- `add`. -/
def add (h : Headers) (name value : Bytes) : Except HeaderError Headers :=
  if !isValidHeaderName name then .error .invalidName
  else if !isValidHeaderValue value then .error .invalidValue
  else
    match lookupField name h.headers with
    | none => .ok (h.addField name value)
    | some existing =>
      if asciiIequals name (text "Content-Length") && trimOws existing ≠ trimOws value then
        .error .conflictingContentLength
      else .ok (h.addField name value)

/-- `content_length`. -/
def contentLength (h : Headers) : Option ℕ :=
  let val := trimOws (h.get (text "Content-Length"))
  match val with
  | [] => none
  | first :: _ =>
    if first = 0x2b || first = 0x2d then none
    else
      match fromChars sizeMax val with
      | some (len, []) => some len
      | _ => none

/-- `is_chunked`: the last of the codings is `chunked`. -/
def isChunked (h : Headers) : Bool :=
  let te := h.get (text "Transfer-Encoding")
  if te.isEmpty then false
  else
    let last := match rfind 0x2c te with
      | none => te
      | some comma => te.drop (comma + 1)
    asciiIequals (trimOws last) (text "chunked")

/-- The loop of `keep_alive` over the tokens of `Connection`: what the first token that says
something says. -/
def keepAliveTokens : List Bytes → Option Bool
  | [] => none
  | token :: rest =>
    let token := trimOws token
    if asciiIequals token (text "close") then some false
    else if asciiIequals token (text "keep-alive") then some true
    else keepAliveTokens rest

/-- `keep_alive`. -/
def keepAlive (h : Headers) (httpVersion : Bytes) : Bool :=
  match keepAliveTokens ((h.get (text "Connection")).splitOn 0x2c) with
  | some answer => answer
  | none => httpVersion = text "1.1" || httpVersion = text "HTTP/1.1"

end Headers

/-! ### Names without regard to case -/

theorem asciiIequals_iff {a b : Bytes} : asciiIequals a b = true ↔ a.map toLower = b.map toLower := by
  simp [asciiIequals]

theorem asciiIequals_comm (a b : Bytes) : asciiIequals a b = asciiIequals b a := by
  rw [Bool.eq_iff_iff, asciiIequals_iff, asciiIequals_iff]
  exact eq_comm

theorem asciiIequals_congr {a b : Bytes} (h : asciiIequals a b = true) (c : Bytes) :
    asciiIequals a c = asciiIequals b c := by
  rw [Bool.eq_iff_iff, asciiIequals_iff, asciiIequals_iff, asciiIequals_iff.1 h]

section Map

variable {α : Type*}

theorem lookupField_cons (name : Bytes) (kv : Bytes × α) (map : List (Bytes × α)) :
    lookupField name (kv :: map) =
      if asciiIequals kv.1 name then some kv.2 else lookupField name map := by
  rw [lookupField, find?_cons]
  cases hkv : asciiIequals kv.1 name <;> simp [lookupField]

theorem lookupField_congr {a b : Bytes} (h : asciiIequals a b = true) (map : List (Bytes × α)) :
    lookupField a map = lookupField b map := by
  induction map with
  | nil => rfl
  | cons kv map ih =>
    rw [lookupField_cons, lookupField_cons, ih, asciiIequals_comm kv.1 a,
      asciiIequals_congr h kv.1, asciiIequals_comm b kv.1]

/-- An assignment is found under its name, and changes no other name. -/
theorem lookupField_assignField (name other : Bytes) (value : α) (map : List (Bytes × α)) :
    lookupField other (assignField name value map) =
      if asciiIequals name other then some value else lookupField other map := by
  induction map with
  | nil => rw [assignField, lookupField_cons]
  | cons kv map ih =>
    rw [assignField]
    by_cases hkv : asciiIequals kv.1 name = true
    · rw [if_pos hkv, lookupField_cons, lookupField_cons, asciiIequals_congr hkv other]
      split_ifs <;> rfl
    · rw [if_neg hkv, lookupField_cons, lookupField_cons, ih]
      by_cases hother : asciiIequals kv.1 other = true
      · -- the entry of `other` comes first, so `name` is not `other`
        have hne : asciiIequals name other = false := by
          rw [← Bool.not_eq_true]
          intro hname
          apply hkv
          rw [asciiIequals_comm kv.1 name, asciiIequals_congr hname kv.1,
            asciiIequals_comm other kv.1]
          exact hother
        rw [if_pos hother, if_pos hother, hne]
        rfl
      · rw [if_neg hother, if_neg hother]

end Map

namespace Headers

variable {h : Headers}

/-- `add` throws on an invalid name, on an invalid value and on a second length that differs; what
it does otherwise is `addField`. -/
theorem add_eq {name value : Bytes} (hname : isValidHeaderName name = true)
    (hval : isValidHeaderValue value = true)
    (hlen : asciiIequals name (text "Content-Length") = true →
      ∀ existing ∈ lookupField name h.headers, trimOws existing = trimOws value) :
    h.add name value = .ok (h.addField name value) := by
  rw [add, hname, hval]
  cases hget : lookupField name h.headers with
  | none => rfl
  | some existing =>
    by_cases hcl : asciiIequals name (text "Content-Length") = true
    · simp [hcl, hlen hcl existing hget]
    · simp [hcl]

theorem contains_addField (h : Headers) (name value other : Bytes) :
    (h.addField name value).contains other = (asciiIequals name other || h.contains other) := by
  rw [contains, addField]
  cases hget : lookupField name h.headers with
  | none =>
    rw [lookupField_assignField, contains]
    split_ifs with hname <;> simp [hname]
  | some existing =>
    -- a field that is there already
    have hpres : asciiIequals name other = true → h.contains other = true := by
      intro hname
      rw [contains, ← lookupField_congr hname, hget]
      rfl
    have horr : (asciiIequals name other || h.contains other) = h.contains other := by
      by_cases hname : asciiIequals name other = true
      · rw [hpres hname, Bool.or_true]
      · rw [Bool.not_eq_true] at hname
        rw [hname, Bool.false_or]
    rw [horr]
    split_ifs with hcl hcookie
    · rfl
    · rfl
    · rw [lookupField_assignField]
      split_ifs with hname
      · rw [hpres hname]
        rfl
      · rfl

variable {name other : Bytes}

theorem getAll_addField_of_ne
    (hname : asciiIequals name other = false) (value : Bytes) :
    (h.addField name value).getAll other = h.getAll other := by
  have hassign : ∀ {α : Type} (v : α) (map : List (Bytes × α)),
      lookupField other (assignField name v map) = lookupField other map := by
    intro α v map
    rw [lookupField_assignField, hname]
    rfl
  rw [getAll, getAll, addField]
  cases lookupField name h.headers with
  | none => simp only [hassign]
  | some existing => split_ifs <;> simp only [hassign]

theorem get_addField_of_ne
    (hname : asciiIequals name other = false) (value : Bytes) :
    (h.addField name value).get other = h.get other := by
  have hassign : ∀ (v : Bytes) (map : List (Bytes × Bytes)),
      lookupField other (assignField name v map) = lookupField other map := by
    intro v map
    rw [lookupField_assignField, hname]
    rfl
  rw [get, get, addField]
  cases lookupField name h.headers with
  | none => simp only [hassign]
  | some existing => split_ifs <;> simp only [hassign]

/-- The first field line of a name gives it its text. -/
theorem get_addField_of_absent
    (hname : asciiIequals name other = true) (habs : h.contains other = false)
    (value : Bytes) : (h.addField name value).get other = value := by
  have hget : lookupField name h.headers = none := by
    rw [lookupField_congr hname]
    simpa [contains] using habs
  rw [get, addField, hget]
  simp only [lookupField_assignField, hname]
  rfl

/-- A second `Content-Length` line changes nothing. -/
theorem addField_contentLength_of_present {name : Bytes}
    (hname : asciiIequals name (text "Content-Length") = true)
    (hpres : h.contains (text "Content-Length") = true) (value : Bytes) :
    h.addField name value = h := by
  rw [contains, ← lookupField_congr hname] at hpres
  obtain ⟨existing, hget⟩ := Option.isSome_iff_exists.1 hpres
  rw [addField, hget]
  exact if_pos hname

/-! ### The two maps -/

/-- The two maps have the same names. -/
def Synced (h : Headers) : Prop :=
  ∀ name, (lookupField name h.headers).isSome = (lookupField name h.headerValues).isSome

theorem synced_empty : Synced empty := fun _ => rfl

theorem Synced.addField (hsync : h.Synced) (name value : Bytes) :
    (h.addField name value).Synced := by
  intro other
  rw [Headers.addField]
  cases hget : lookupField name h.headers with
  | none =>
    simp only [lookupField_assignField]
    split_ifs
    · rfl
    · exact hsync other
  | some existing =>
    -- a name that was there in one map was there in both
    have hboth : asciiIequals name other = true → (lookupField other h.headers).isSome = true := by
      intro hname
      rw [← lookupField_congr hname, hget]
      rfl
    split_ifs with hlen hcookie
    · exact hsync other
    · rw [lookupField_assignField]
      split_ifs with hname
      · exact hboth hname
      · exact hsync other
    · rw [lookupField_assignField, lookupField_assignField]
      split_ifs
      · rfl
      · exact hsync other

/-- A new field line is the last value of its name; for `Content-Length` see
`addField_contentLength_of_present`. -/
theorem getAll_addField_of_eq (hsync : h.Synced)
    (hname : asciiIequals name other = true)
    (hlen : asciiIequals other (text "Content-Length") = false) (value : Bytes) :
    (h.addField name value).getAll other = h.getAll other ++ [value] := by
  have hlength' : asciiIequals name (text "Content-Length") = false := by
    rw [asciiIequals_congr hname, hlen]
  have hother : lookupField other h.headers = lookupField name h.headers :=
    (lookupField_congr hname _).symm
  have hothers : lookupField other h.headerValues = lookupField name h.headerValues :=
    (lookupField_congr hname _).symm
  have hsame := hsync name
  rw [getAll, getAll, hother, hothers, Headers.addField]
  cases hget : lookupField name h.headers with
  | none =>
    rw [hget] at hsame
    have hvals : lookupField name h.headerValues = none := by simpa using hsame.symm
    simp [lookupField_assignField, hname, hvals]
  | some existing =>
    rw [hget] at hsame
    obtain ⟨values, hvals⟩ := Option.isSome_iff_exists.1 hsame.symm
    simp [lookupField_assignField, hname, hvals, hlength']

/-! ### The declared length -/

/-- **A declared length is written in digits**, and it fits `size_t`. -/
theorem digits_of_contentLength {n : ℕ} (hlen : h.contentLength = some n) :
    trimOws (h.get (text "Content-Length")) ≠ [] ∧
      (trimOws (h.get (text "Content-Length"))).all isDigit = true ∧
      decimalValue (trimOws (h.get (text "Content-Length"))) = n ∧ n ≤ sizeMax := by
  rw [contentLength] at hlen
  generalize trimOws (h.get (text "Content-Length")) = val at hlen ⊢
  cases val with
  | nil => cases hlen
  | cons first rest =>
    simp only at hlen
    split_ifs at hlen
    rw [fromChars] at hlen
    split_ifs at hlen with hemp hmax
    cases hrest : (first :: rest).dropWhile isDigit with
    | cons c tail => simp [hrest] at hlen
    | nil =>
      -- nothing follows the digits, so all bytes are digits
      have hall : (first :: rest).takeWhile isDigit = first :: rest := by
        have := takeWhile_append_dropWhile (p := isDigit) (l := first :: rest)
        rwa [hrest, append_nil] at this
      rw [hall] at hmax
      simp only [hrest, hall, Option.some.injEq] at hlen
      refine ⟨cons_ne_nil _ _, ?_, hlen, by omega⟩
      rw [all_eq_true]
      intro c hc
      rw [← hall] at hc
      exact mem_takeWhile_imp hc

end Headers

theorem trimOws_trimOws (s : Bytes) : trimOws (trimOws s) = trimOws s := by
  have hdrop : (trimOws s).dropWhile isOws = trimOws s := by
    rw [trimOws]
    cases hs : s.dropWhile isOws with
    | nil => rfl
    | cons c rest =>
      have hc : ¬ isOws c = true := by
        have := head?_dropWhile_not isOws s
        rw [hs] at this
        simpa using this
      -- the first byte stays when the end is trimmed
      have hfst : (c :: rest).rdropWhile isOws = [] ∨
          ∃ tail, (c :: rest).rdropWhile isOws = c :: tail := by
        obtain ⟨t, ht⟩ := rdropWhile_prefix isOws (l := c :: rest)
        cases hr : (c :: rest).rdropWhile isOws with
        | nil => exact .inl rfl
        | cons d tail =>
          rw [hr] at ht
          exact .inr ⟨tail, by rw [(cons.inj ht).1]⟩
      rcases hfst with hfst | ⟨tail, hfst⟩
      · rw [hfst]
        rfl
      · rw [hfst, dropWhile_cons_of_neg hc]
  rw [trimOws, hdrop]
  exact rdropWhile_idempotent isOws _

end Elio.Http
