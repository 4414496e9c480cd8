/-
**URLs and the references that redirects give.**

`http/http_common.hpp` takes a URL apart and resolves a reference, the value of a `Location` field,
against the URL it was found at.  `http/detail/proxy_profile.hpp` decides which hosts may appear on
the connection to a proxy.  Both work on the bytes of the text from left to right, and so does the
model.

Main definitions:

* `Url.parse`, `Url.resolveReference` — a URL from a text, and from a reference;
* `validProxyHost`, `validProxyUriAuthority`, `validProxyTlsReference` — what a proxy may be asked
  for.
-/

import Elio.ResponsePlan

set_option autoImplicit false

namespace Elio.Http

/-- `url`.  A port of `0` stands for the default port of the scheme. -/
structure Url where
  scheme : Bytes
  host : Bytes
  port : ℕ
  path : Bytes
  query : Bytes
  fragment : Bytes
  userinfo : Bytes
  deriving DecidableEq, Repr

/-! ### Texts -/

/-- `find` of a text. -/
def findText (pattern : Bytes) : Bytes → Option ℕ
  | [] => if pattern.isEmpty then some 0 else none
  | c :: rest =>
    if pattern.isPrefixOf (c :: rest) then some 0 else (findText pattern rest).map (· + 1)

/-- `is_valid_url_input`. -/
def isValidUrlInput (value : Bytes) : Bool :=
  !value.isEmpty && !hasRequestTargetForbiddenChar value

/-- `is_supported_http_url_scheme`. -/
def isSupportedHttpUrlScheme (scheme : Bytes) : Bool :=
  scheme = text "http" || scheme = text "https"

/-- The loop of `has_uri_scheme`: a colon comes before anything that is not part of a scheme. -/
def hasSchemeColon : Bytes → Bool
  | [] => false
  | c :: rest =>
    if c = colon then true
    else if c ∈ text "/?#" then false
    else if !isAlpha c && !isDigit c && c ∉ text "+-." then false
    else hasSchemeColon rest

/-- `has_uri_scheme`. -/
def hasUriScheme (value : Bytes) : Bool :=
  match value with
  | [] => false
  | c :: _ => isAlpha c && hasSchemeColon value

/-- `parse_url_port`. -/
def parseUrlPort (value : Bytes) : Option ℕ :=
  match fromChars 65535 value with
  | some (port, []) => if port = 0 then none else some port
  | _ => none

/-! ### Paths -/

/-- One segment of the loop of `remove_dot_segments`, with the segments kept so far. -/
def pushSegment (absolute : Bool) (segments : List Bytes) (segment : Bytes) : List Bytes :=
  if segment.isEmpty || segment = text "." then segments
  else if segment = text ".." then
    if !segments.isEmpty && segments.getLast? ≠ some (text "..") then segments.dropLast
    else if !absolute then segments ++ [segment]
    else segments
  else segments ++ [segment]

/-- `remove_dot_segments`. -/
def removeDotSegments (path : Bytes) : Bytes :=
  if path.isEmpty then []
  else
    let absolute : Bool := path.head? = some slash
    let trailing : Bool :=
      path.getLast? = some slash ||
        (path = text "." || (text "/.").isSuffixOf path) ||
        (path = text ".." || (text "/..").isSuffixOf path)
    let segments := (path.splitOn slash).foldl (pushSegment absolute) []
    let result := (if absolute then [slash] else []) ++ [slash].intercalate segments
    let result :=
      if trailing && !result.isEmpty && result.getLast? ≠ some slash then result ++ [slash]
      else result
    if result.isEmpty && absolute then [slash] else result

/-- `merge_url_paths`. -/
def mergeUrlPaths (basePath referencePath : Bytes) : Bytes :=
  match rfind slash basePath with
  | none => slash :: referencePath
  | some last => basePath.take (last + 1) ++ referencePath

/-! ### URLs -/

/-- What stands before and after the first `c`, if there is one. -/
def cutAt (c : UInt8) (s : Bytes) : Option (Bytes × Bytes) :=
  (s.idxOf? c).map fun n => (s.take n, s.drop (n + 1))

namespace Url

/-- `path_with_query`. -/
def pathWithQuery (u : Url) : Bytes :=
  let path := if u.path.isEmpty then [slash] else u.path
  if u.query.isEmpty then path else path ++ text "?" ++ u.query

/-- `default_port`. -/
def defaultPort (u : Url) : ℕ := if u.scheme = text "https" then 443 else 80

/-- `is_secure`. -/
def isSecure (u : Url) : Bool := u.scheme = text "https"

/-- `host_authority`. -/
def hostAuthority (u : Url) : Bytes :=
  let host := if colon ∈ u.host then text "[" ++ u.host ++ text "]" else u.host
  if u.port ≠ 0 ∧ u.port ≠ u.defaultPort then host ++ text ":" ++ toDecimal u.port else host

/-- `authority`. -/
def authority (u : Url) : Bytes :=
  if u.userinfo.isEmpty then u.hostAuthority else u.userinfo ++ text "@" ++ u.hostAuthority

/-- `to_string`. -/
def toString (u : Url) : Bytes :=
  let result := u.scheme ++ text "://" ++ u.authority ++ u.pathWithQuery
  if u.fragment.isEmpty then result else result ++ text "#" ++ u.fragment

/-- `effective_port`. -/
def effectivePort (u : Url) : ℕ := if u.port ≠ 0 then u.port else u.defaultPort

/-- The end of `parse`: the host and the port. -/
def parseHostPort (str : Bytes) : Option (Bytes × ℕ) :=
  if str.head? = some 0x5b then
    -- an IPv6 literal in brackets
    match cutAt 0x5d (str.drop 1) with
    | none => none
    | some (host, []) => some (host, 0)
    | some (host, c :: port) =>
      if c = colon then (parseUrlPort port).map fun port => (host, port) else none
  else
    match rfind colon str with
    | none => some (str, 0)
    | some last =>
      match parseUrlPort (str.drop (last + 1)) with
      | none => none
      | some port => if colon ∈ str.take last then none else some (str.take last, port)

/-- `parse`, after the scheme. -/
def parseAfterScheme (scheme str : Bytes) : Option Url :=
  let (str, fragment) := (cutAt 0x23 str).getD (str, [])
  let (str, query) := (cutAt 0x3f str).getD (str, [])
  let (str, path) := match str.idxOf? slash with
    | some n => (str.take n, str.drop n)
    | none => (str, [slash])
  let (userinfo, str) := (cutAt 0x40 str).getD ([], str)
  match parseHostPort str with
  | none => none
  | some (host, port) =>
    if host.isEmpty then none
    else some { scheme, host, port, path, query, fragment, userinfo }

/-- `parse`. -/
def parse (str : Bytes) : Option Url :=
  if !isValidUrlInput str then none
  else
    match findText (text "://") str with
    | none => parseAfterScheme (text "http") str
    | some n => parseAfterScheme ((str.take n).map toLower) (str.drop (n + 3))

/-- `resolve_reference`. -/
def resolveReference (base : Url) (reference : Bytes) : Option Url :=
  if !isValidUrlInput reference then none
  else if hasUriScheme reference then
    (parse reference).map fun u => { u with path := removeDotSegments u.path }
  else if (text "//").isPrefixOf reference then
    (parse (base.scheme ++ text ":" ++ reference)).map fun u =>
      { u with path := removeDotSegments u.path }
  else
    let (pathAndQuery, fragment) := (cutAt 0x23 reference).getD (reference, [])
    let referenceQuery := (cutAt 0x3f pathAndQuery).map Prod.snd
    let referencePath := ((cutAt 0x3f pathAndQuery).map Prod.fst).getD pathAndQuery
    let path :=
      if referencePath.isEmpty then base.path
      else if referencePath.head? = some slash then removeDotSegments referencePath
      else removeDotSegments (mergeUrlPaths base.path referencePath)
    let query := if referencePath.isEmpty then referenceQuery.getD base.query
      else referenceQuery.getD []
    some { base with
      path := if path.isEmpty then [slash] else path
      query := query
      fragment := fragment }

end Url

/-! ### Proxies -/

/-- `valid_proxy_host`. -/
def validProxyHost (inetPton6 : Bytes → Bool) (host : Bytes) : Bool :=
  isValidUrlInput host &&
    if colon ∈ host then decide (host.length < 46) && inetPton6 host else isRegName host

/-- `valid_proxy_uri_authority`: brackets hold an IP literal. -/
def validProxyUriAuthority (inetPton6 : Bytes → Bool) (source : Bytes) (parsed : Url) : Bool :=
  let source := match findText (text "://") source with
    | some n => source.drop (n + 3)
    | none => if (text "//").isPrefixOf source then source.drop 2 else source
  let source := source.takeWhile fun c => c ∉ text "/?#"
  let source := ((cutAt 0x40 source).map Prod.snd).getD source
  validProxyHost inetPton6 parsed.host &&
    (source.head? ≠ some 0x5b || colon ∈ parsed.host)

/-- `proxy_unreserved_octet` of two bytes. -/
def proxyUnreservedOctet (a b : UInt8) : Option UInt8 :=
  if isHexDigit a && isHexDigit b then
    let octet := UInt8.ofNat (16 * hexDigitValue a + hexDigitValue b)
    if isAlpha octet || isDigit octet || octet ∈ text "-._~" then some octet else none
  else none

/-- The loop of `valid_proxy_tls_reference` over the percent escapes. -/
def validTlsEscapes (first : Bool) : Bytes → Bool
  | [] => true
  | c :: rest =>
    if c ≠ 0x25 then validTlsEscapes false rest
    else
      match rest with
      | a :: b :: rest =>
        match proxyUnreservedOctet a b with
        | none => false
        | some octet => if first && octet = 0x2e then false else validTlsEscapes false rest
      | _ => false

/-- `valid_proxy_tls_reference`. -/
def validProxyTlsReference (inetPton6 : Bytes → Bool) (host : Bytes) : Bool :=
  validProxyHost inetPton6 host && host.head? ≠ some 0x2e && validTlsEscapes true host

end Elio.Http
