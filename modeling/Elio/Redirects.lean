/-
**Following redirects.**

`http/http_client.hpp` sends a request and, when the answer is a redirect, builds a new request for
the location that the answer names.  It does so in two loops: `send_request` calls itself once the
whole answer is read, `with_response_impl` goes round as soon as the head of the answer is there.
What both share is `prepare_exchange`, which completes a request and writes it in the form its route
asks for, and `make_redirect`, which decides whether a redirect is followed and with what.

The server and the network are scripts here (`ExchangeTurn`): what became of the
connection and what answer came.  A run gives the exchanges that took place, each with its target,
what was sent and what was answered.  `FollowUp` says what one exchange may have of the
one before, and `FollowsSafely` what holds of a whole run.

Main definitions:

* `Client.prepareExchange`, `Client.makeRedirect` — one hop and the next;
* `Client.exchanges` — the loop over the hops;
* `FollowUp`, `FollowsSafely` — what redirects may do.

Main results:

* `Client.followUp_of_makeRedirect` — the exchange after a redirect;
* `redirects_follow_safely` — every run of the client.
-/

import Mathlib.Data.List.Chain
import Elio.Url

set_option autoImplicit false

namespace Elio.Http

open List

/-! ### Requests -/

/-- The `std::invalid_argument` of a request. -/
inductive InvalidArgument where
  | path
  | header (error : HeaderError)
  deriving DecidableEq, Repr

/-- `request`. -/
structure ClientRequest where
  method : Method
  path : Bytes
  query : Bytes
  version : Bytes
  headers : Headers
  body : Bytes
  expectContinue : Bool
  deriving DecidableEq, Repr

namespace ClientRequest

/-- The constructor of `request` from a method and a path. -/
def create (method : Method) (path : Bytes) : Except InvalidArgument ClientRequest :=
  if hasRequestTargetForbiddenChar path then .error .path
  else
    .ok {
      method, path, query := [], version := text "HTTP/1.1", headers := .empty, body := []
      expectContinue := false }

/-- `set_header`. -/
def setHeader (r : ClientRequest) (name value : Bytes) : Except InvalidArgument ClientRequest :=
  match r.headers.set name value with
  | .ok headers => .ok { r with headers }
  | .error e => .error (.header e)

/-- `set_host`. -/
def setHost (r : ClientRequest) (host : Bytes) : Except InvalidArgument ClientRequest :=
  r.setHeader (text "Host") host

/-- `set_content_type`. -/
def setContentType (r : ClientRequest) (type : Bytes) : Except InvalidArgument ClientRequest :=
  r.setHeader (text "Content-Type") type

/-- `set_body`. -/
def setBody (r : ClientRequest) (body : Bytes) : Except InvalidArgument ClientRequest :=
  { r with body }.setHeader (text "Content-Length") (toDecimal body.length)

/-- `set_expect_continue`. -/
def setExpectContinue (r : ClientRequest) : Except InvalidArgument ClientRequest :=
  { r with expectContinue := true }.setHeader (text "Expect") (text "100-continue")

/-- `content_type`. -/
def contentType (r : ClientRequest) : Bytes := r.headers.get (text "Content-Type")

/-- `path_with_query`. -/
def pathWithQuery (r : ClientRequest) : Bytes :=
  let path := if r.path.isEmpty then [slash] else r.path
  if r.query.isEmpty then path else path ++ text "?" ++ r.query

end ClientRequest

/-! ### The client -/

/-- What redirects read of `client_config`. -/
structure ClientConfig where
  maxRedirects : ℕ := 5
  followRedirects : Bool := true
  userAgent : Bytes := text "elio-http/1.0"
  deriving DecidableEq, Repr

/-- What a request reads of `proxy_profile`. -/
structure ProxyProfile where
  authorization : Bytes
  deriving DecidableEq, Repr

/-- `route_mode`. -/
inductive RouteMode where
  | direct
  | forwardProxy
  | connectTunnel
  deriving DecidableEq, Repr

/-- `client`, with the proxy of its transport. -/
structure Client where
  config : ClientConfig
  proxy : Option ProxyProfile
  inetPton6 : Bytes → Bool

/-- What happens to one exchange: the route of the connection that was acquired for it, the final
head that was read, and the body when it was read to its end and was not too large.  Cancellation,
deadlines and failures of the connection are a missing route, head or body. -/
structure ExchangeTurn where
  route : Option RouteMode
  head : Option (ℕ × Headers)
  body : Option Bytes
  deriving DecidableEq, Repr

/-- An exchange that took place: the target, the request line, fields and body of the request, and
the answer that the client acts on. -/
structure Exchange where
  target : Url
  method : Method
  wireTarget : Bytes
  fields : Headers
  body : Bytes
  answer : Option (ℕ × Headers)
  deriving DecidableEq, Repr

/-- How a call ends. -/
inductive ClientOutcome where
  | failed
  | thrown (error : InvalidArgument)
  | response (status : ℕ) (headers : Headers)
  deriving DecidableEq, Repr

/-- `is_auto_follow_redirect`. -/
def isAutoFollowRedirect (status : ℕ) : Bool :=
  status = 301 || status = 302 || status = 303 || status = 307 || status = 308

/-- The method of the request that follows a redirect. -/
def redirectMethod (status : ℕ) (method : Method) : Method :=
  if (status = 303 ∧ method ≠ .head) ∨ ((status = 301 ∨ status = 302) ∧ method = .post) then .get
  else method

namespace Client

/-- `request_wire_view::valid_authority`. -/
def validAuthority (c : Client) (target : Url) : Bool :=
  validProxyHost c.inetPton6 target.host &&
    (!target.isSecure || validProxyTlsReference c.inetPton6 target.host)

/-- The target and the fields that `request_wire_view::serialize` gives to a proxy that forwards the
request, or none when it throws. -/
def forwarded (proxy : ProxyProfile) (req : ClientRequest) (target : Url) (fields : Headers) :
    Option (Bytes × Headers) :=
  let serverOptions := req.path = text "*" && req.method = .options && req.query.isEmpty
  if target.scheme ≠ text "http" then none
  else if !serverOptions && ((!req.path.isEmpty && req.path.head? ≠ some slash) ||
      0x23 ∈ req.path || 0x23 ∈ req.query) then none
  else
    let wireTarget :=
      if serverOptions then req.pathWithQuery
      else text "http://" ++ target.hostAuthority ++ req.pathWithQuery
    match fields.set (text "Host") target.hostAuthority with
    | .error _ => none
    | .ok fields =>
      if proxy.authorization.isEmpty then some (wireTarget, fields)
      else
        match fields.set (text "Proxy-Authorization") proxy.authorization with
        | .error _ => none
        | .ok fields => some (wireTarget, fields)

/-- `request_wire_view::serialize`: the target and the fields for a route, or none when it throws.
-/
def projected (c : Client) (req : ClientRequest) (target : Url) (mode : RouteMode) :
    Option (Bytes × Headers) :=
  let fields := req.headers.remove (text "Proxy-Authorization")
  if mode ≠ .direct && !c.validAuthority target then none
  else if mode ≠ .direct && req.method = .connect then none
  else if mode ≠ .forwardProxy then some (req.pathWithQuery, fields)
  else c.proxy.bind fun proxy => forwarded proxy req target fields

/-- `serialize_headers_for`, up to the text itself: the fields that it writes, or none when it
throws.  An `Expect` without a body is not written. -/
def writtenFields (req : ClientRequest) (wireTarget : Bytes) (fields : Headers) : Option Headers :=
  let version := if req.version.isEmpty then text "HTTP/1.1" else req.version
  if !isValidRequestTarget wireTarget then none
  else if !isValidHttpVersion version then none
  else if req.expectContinue && req.body.isEmpty then some (fields.remove (text "Expect"))
  else some fields

/-- The fields that `prepare_exchange` adds to a request. -/
def completed (req : ClientRequest) (target : Url) : Except InvalidArgument ClientRequest := do
  let req ← (if (req.headers.get (text "Host")).isEmpty then req.setHost target.hostAuthority
    else pure req)
  if !req.headers.contains (text "Connection") then
    req.setHeader (text "Connection") (text "keep-alive")
  else pure req

/-- `prepare_exchange`: the request as it was completed and the exchange, or how the call ends. -/
def prepareExchange (c : Client) (req : ClientRequest) (target : Url) (route : Option RouteMode)
    (answer : Option (ℕ × Headers)) : Except ClientOutcome (ClientRequest × Exchange) :=
  if !isValidUrlInput target.hostAuthority || (c.proxy.isSome && !c.validAuthority target) ||
      !isValidRequestTarget req.pathWithQuery then .error .failed
  else if c.proxy.isSome && req.method = .connect then .error .failed
  else
    match route with
    | none => .error .failed
    | some mode =>
      match completed req target with
      | .error e => .error (.thrown e)
      | .ok req =>
        match c.projected req target mode with
        | none => .error .failed
        | some (wireTarget, fields) =>
          match writtenFields req wireTarget fields with
          | none => .error .failed
          | some fields =>
            .ok (req,
              { target, method := req.method, wireTarget, fields, body := req.body, answer })

/-- The first half of `make_redirect`: the target of the redirect, if it is followed. -/
def redirectUrl (c : Client) (target : Url) (status : ℕ) (response : Headers) (count : ℕ) :
    Option Url :=
  let location := response.get (text "Location")
  if !c.config.followRedirects || !isAutoFollowRedirect status || c.config.maxRedirects ≤ count then
    none
  else if location.isEmpty then none
  else if !isValidUrlInput location then none
  else
    match target.resolveReference location with
    | none => none
    | some url =>
      if c.proxy.isSome && (hasUriScheme location || (text "//").isPrefixOf location) &&
          !validProxyUriAuthority c.inetPton6 location url then none
      else if !isSupportedHttpUrlScheme url.scheme then none
      else if target.isSecure && !url.isSecure then none
      else some url

/-- The second half of `make_redirect`: the request that follows. -/
def redirectRequest (c : Client) (req : ClientRequest) (url : Url) (status : ℕ) :
    Except InvalidArgument ClientRequest := do
  let method := redirectMethod status req.method
  let r ← ClientRequest.create method url.pathWithQuery
  let r ← r.setHost url.hostAuthority
  let r ← (if !c.config.userAgent.isEmpty then r.setHeader (text "User-Agent") c.config.userAgent
    else pure r)
  -- the last of the three is `method_preserved`
  if status = 307 ∨ status = 308 ∨ (method = req.method ∧ status ≠ 303) then
    let r ← (if !req.body.isEmpty then r.setBody req.body
      else if req.headers.contentLength = some 0 then
        r.setHeader (text "Content-Length") (req.headers.get (text "Content-Length"))
      else pure r)
    let r ← (if !req.contentType.isEmpty then r.setContentType req.contentType else pure r)
    if !req.body.isEmpty && req.expectContinue then r.setExpectContinue else pure r
  else pure r

/-- `make_redirect`. -/
def makeRedirect (c : Client) (req : ClientRequest) (target : Url) (status : ℕ)
    (response : Headers) (count : ℕ) : Except InvalidArgument (Option (ClientRequest × Url)) :=
  match c.redirectUrl target status response count with
  | none => .ok none
  | some url =>
    match c.redirectRequest req url status with
    | .error e => .error e
    | .ok r => .ok (some (r, url))

/-- The loop over the hops.  `answer` says what of a turn the loop waits for before it looks at a
redirect.  There is no outcome when the turns end before the loop does. -/
def exchanges (c : Client) (answer : ExchangeTurn → Option (ℕ × Headers)) (count : ℕ)
    (req : ClientRequest) (target : Url) : List ExchangeTurn → List Exchange × Option ClientOutcome
  | [] => ([], none)
  | turn :: turns =>
    match c.prepareExchange req target turn.route (answer turn) with
    | .error outcome => ([], some outcome)
    | .ok (req, exchange) =>
      match exchange.answer with
      | none => ([exchange], some .failed)
      | some (status, response) =>
        match c.makeRedirect req target status response count with
        | .error e => ([exchange], some (.thrown e))
        | .ok none => ([exchange], some (.response status response))
        | .ok (some (redirected, url)) =>
          let (later, outcome) := exchanges c answer (count + 1) redirected url turns
          (exchange :: later, outcome)

/-- `send_request`: a redirect is followed when the whole answer has been read. -/
def sendRequest (c : Client) (count : ℕ) (req : ClientRequest) (target : Url)
    (turns : List ExchangeTurn) : List Exchange × Option ClientOutcome :=
  c.exchanges (fun turn => turn.body.bind fun _ => turn.head) count req target turns

/-- `send_result`. -/
def sendResult (c : Client) (req : ClientRequest) (target : Url) (turns : List ExchangeTurn) :
    List Exchange × Option ClientOutcome :=
  if !isSupportedHttpUrlScheme target.scheme then ([], some .failed)
  else c.sendRequest 0 req target turns

/-- `with_response_impl`: a redirect is followed when the head of the answer has been read. -/
def withResponse (c : Client) (req : ClientRequest) (target : Url) (turns : List ExchangeTurn) :
    List Exchange × Option ClientOutcome :=
  if !isSupportedHttpUrlScheme target.scheme then ([], some .failed)
  else c.exchanges ExchangeTurn.head 0 req target turns

/-- The request that `request_url_result` builds. -/
def urlRequest (c : Client) (method : Method) (url : Url) (body contentType : Bytes)
    (honorEmptyRepresentation : Bool) : Except InvalidArgument ClientRequest := do
  let r ← ClientRequest.create method url.pathWithQuery
  let r ← r.setHost url.hostAuthority
  let r ← (if !body.isEmpty || (honorEmptyRepresentation && !contentType.isEmpty) then do
      let r ← r.setBody body
      if !contentType.isEmpty then r.setContentType contentType else pure r
    else pure r)
  if !c.config.userAgent.isEmpty then r.setHeader (text "User-Agent") c.config.userAgent
  else pure r

/-- `request_url_result`. -/
def requestUrlResult (c : Client) (method : Method) (url body contentType : Bytes)
    (honorEmptyRepresentation : Bool) (turns : List ExchangeTurn) :
    List Exchange × Option ClientOutcome :=
  match Url.parse url with
  | none => ([], some .failed)
  | some parsed =>
    if c.proxy.isSome && !validProxyUriAuthority c.inetPton6 url parsed then ([], some .failed)
    else if !isSupportedHttpUrlScheme parsed.scheme then ([], some .failed)
    else if !c.config.userAgent.isEmpty && !isValidHeaderValue c.config.userAgent then
      ([], some .failed)
    else if !contentType.isEmpty && !isValidHeaderValue contentType then ([], some .failed)
    else
      match c.urlRequest method parsed body contentType honorEmptyRepresentation with
      | .error e => ([], some (.thrown e))
      | .ok req => c.sendRequest 0 req parsed turns

end Client

/-! ### What redirects may do -/

/-- The body goes along with a redirect of this status for a request with this method. -/
def KeepsBody (status : ℕ) (method : Method) : Prop :=
  status ≠ 303 ∧ ¬((status = 301 ∨ status = 302) ∧ method = .post)

instance (status : ℕ) (method : Method) : Decidable (KeepsBody status method) :=
  inferInstanceAs (Decidable (_ ∧ _))

/-- The fields that a follow-up request has of its own: its host, what the configuration says and,
on the way to a proxy, the credentials of the proxy. -/
def OwnField (c : Client) (target : Url) (field : Bytes × Bytes) : Prop :=
  field = (text "Host", target.hostAuthority) ∨
    field = (text "User-Agent", c.config.userAgent) ∨
    field = (text "Connection", text "keep-alive") ∨
    ∃ profile ∈ c.proxy, field = (text "Proxy-Authorization", profile.authorization)

/-- The fields that describe a body. -/
def BodyField (field : Bytes × Bytes) : Prop :=
  field.1 ∈ [text "Content-Length", text "Content-Type", text "Expect"]

/-- **One exchange after another.**  `next` follows the answer of `exchange`, a redirect with the
given status and fields. -/
structure FollowUp (c : Client) (exchange next : Exchange) (status : ℕ) (response : Headers) :
    Prop where
  answered : exchange.answer = some (status, response)
  redirect : status ∈ [301, 302, 303, 307, 308]
  resolved : exchange.target.resolveReference (response.get (text "Location")) = some next.target
  /-- `https` is not left. -/
  secure : exchange.target.isSecure → next.target.isSecure
  method_see_other : status = 303 → exchange.method ≠ .head → next.method = .get
  method_post : status = 301 ∨ status = 302 → exchange.method = .post → next.method = .get
  /-- Otherwise the method stays. -/
  method_kept : (status = 303 → exchange.method = .head) →
    (status = 301 ∨ status = 302 → exchange.method ≠ .post) → next.method = exchange.method
  body_kept : KeepsBody status exchange.method → next.body = exchange.body
  body_dropped : ¬KeepsBody status exchange.method → next.body = []
  fields : ∀ field ∈ next.fields.headers,
    OwnField c next.target field ∨ (KeepsBody status exchange.method ∧ BodyField field)

/-- **What holds of a call**: of its exchanges and, when there are turns for all the redirects it
may follow, of its end. -/
structure FollowsSafely (c : Client) (turns : List ExchangeTurn)
    (call : List Exchange × Option ClientOutcome) : Prop where
  bounded : call.1.length ≤ c.config.maxRedirects + 1
  ended : c.config.maxRedirects < turns.length → call.2.isSome = true
  schemes : ∀ exchange ∈ call.1, isSupportedHttpUrlScheme exchange.target.scheme = true
  secure : call.1.Pairwise fun exchange later =>
    exchange.target.isSecure = true → later.target.isSecure = true
  follows : call.1.IsChain fun exchange next =>
    ∃ status response, FollowUp c exchange next status response

/-! ### Fields of a follow-up request -/

/-- The names that a follow-up request may use. -/
def followUpNames : List Bytes :=
  [text "Host", text "User-Agent", text "Connection", text "Proxy-Authorization",
    text "Content-Length", text "Content-Type", text "Expect"]

theorem eq_of_asciiIequals_of_mem_followUpNames : ∀ a ∈ followUpNames, ∀ b ∈ followUpNames,
    asciiIequals a b = true → a = b := by
  decide

/-- A field that the request may carry after a redirect. -/
def Allowed (c : Client) (target : Url) (keeps : Prop) (field : Bytes × Bytes) : Prop :=
  OwnField c target field ∨ (keeps ∧ BodyField field)

section Fields

variable {c : Client} {target : Url} {keeps : Prop}

theorem Allowed.mem_followUpNames {field : Bytes × Bytes} (h : Allowed c target keeps field) :
    field.1 ∈ followUpNames := by
  rcases h with (rfl | rfl | rfl | ⟨profile, -, rfl⟩) | ⟨-, hbody⟩
  · exact mem_cons_self ..
  · exact mem_cons_of_mem _ (mem_cons_self ..)
  · exact mem_cons_of_mem _ (mem_cons_of_mem _ (mem_cons_self ..))
  · exact mem_of_mem_drop (i := 3) (mem_cons_self ..)
  · exact mem_of_mem_drop (i := 4) hbody

theorem allowed_assignField {name value : Bytes} {map : List (Bytes × Bytes)}
    (hnew : Allowed c target keeps (name, value))
    (hmap : ∀ field ∈ map, Allowed c target keeps field) :
    ∀ field ∈ assignField name value map, Allowed c target keeps field := by
  induction map with
  | nil => simpa [assignField] using hnew
  | cons first map ih =>
    obtain ⟨hfst, hrest⟩ := forall_mem_cons.1 hmap
    rw [assignField]
    split_ifs with hname
    · -- the entry keeps its key, and the key is the name
      have hkey : first.1 = name :=
        eq_of_asciiIequals_of_mem_followUpNames _ hfst.mem_followUpNames _
          hnew.mem_followUpNames hname
      rw [hkey]
      exact forall_mem_cons.2 ⟨hnew, hrest⟩
    · exact forall_mem_cons.2 ⟨hfst, ih hrest⟩

/-- All fields of a collection are allowed. -/
def Headers.OnlyAllowed (c : Client) (target : Url) (keeps : Prop) (h : Headers) : Prop :=
  ∀ field ∈ h.headers, Allowed c target keeps field

namespace Headers.OnlyAllowed

variable {h h' : Headers} {name value : Bytes}

theorem set (hset : h.set name value = .ok h') (hnew : Allowed c target keeps (name, value))
    (hall : h.OnlyAllowed c target keeps) : h'.OnlyAllowed c target keeps := by
  rw [Headers.set] at hset
  split_ifs at hset
  cases hset
  exact allowed_assignField hnew hall

theorem remove (hall : h.OnlyAllowed c target keeps) :
    (h.remove name).OnlyAllowed c target keeps :=
  fun _ hfield => hall _ (mem_of_mem_filter hfield)

end Headers.OnlyAllowed

/-- A request under construction: its method, its body, and only allowed fields. -/
structure Draft (c : Client) (target : Url) (keeps : Prop) (method : Method) (body : Bytes)
    (r : ClientRequest) : Prop where
  method_eq : r.method = method
  body_eq : r.body = body
  fields : r.headers.OnlyAllowed c target keeps

namespace Draft

variable {method : Method} {body : Bytes} {r r' : ClientRequest}

theorem setHeader {name value : Bytes} (hset : r.setHeader name value = .ok r')
    (hnew : Allowed c target keeps (name, value)) (h : Draft c target keeps method body r) :
    Draft c target keeps method body r' := by
  rw [ClientRequest.setHeader] at hset
  split at hset <;> cases hset
  next headers hheaders =>
    exact ⟨h.method_eq, h.body_eq, .set hheaders hnew h.fields⟩

theorem setBody {body' : Bytes} (hset : r.setBody body' = .ok r') (hkeeps : keeps)
    (h : Draft c target keeps method body r) : Draft c target keeps method body' r' :=
  setHeader hset (.inr ⟨hkeeps, mem_cons_self ..⟩) ⟨h.method_eq, rfl, h.fields⟩

theorem setExpectContinue (hset : r.setExpectContinue = .ok r') (hkeeps : keeps)
    (h : Draft c target keeps method body r) : Draft c target keeps method body r' :=
  setHeader hset (.inr ⟨hkeeps, mem_of_mem_drop (i := 2) (mem_cons_self ..)⟩)
    { h with }

/-- A step that may be left out. -/
theorem ite {p : Prop} [Decidable p] {step : Except InvalidArgument ClientRequest}
    (hstep : (if p then step else pure r) = .ok r')
    (hpos : p → step = .ok r' → Draft c target keeps method body r')
    (h : Draft c target keeps method body r) : Draft c target keeps method body r' := by
  split_ifs at hstep with hp
  · exact hpos hp hstep
  · cases hstep
    exact h

end Draft

end Fields

theorem bind_eq_ok {ε α β : Type} {x : Except ε α} {f : α → Except ε β} {b : β}
    (h : x >>= f = .ok b) : ∃ a, x = .ok a ∧ f a = .ok b := by
  cases x with
  | error e => cases h
  | ok a => exact ⟨a, rfl, h⟩

namespace Client

variable {c : Client} {req redirected : ClientRequest} {target url : Url} {status : ℕ}
  {response : Headers}

/-- The test of `make_redirect` for a body that goes along. -/
theorem keepsBody_iff {method : Method} (hredirect : isAutoFollowRedirect status = true) :
    (status = 307 ∨ status = 308 ∨ (redirectMethod status method = method ∧ status ≠ 303)) ↔
      KeepsBody status method := by
  have hstat : status = 301 ∨ status = 302 ∨ status = 303 ∨ status = 307 ∨ status = 308 := by
    simpa [isAutoFollowRedirect, or_assoc] using hredirect
  rcases hstat with rfl | rfl | rfl | rfl | rfl <;> cases method <;>
    simp [KeepsBody, redirectMethod]

/-- **The request after a redirect.** -/
theorem draft_redirectRequest (hredirect : isAutoFollowRedirect status = true)
    (h : c.redirectRequest req url status = .ok redirected) :
    Draft c url (KeepsBody status req.method) (redirectMethod status req.method)
      (if KeepsBody status req.method then req.body else []) redirected := by
  obtain ⟨r₀, hcreate, h⟩ := bind_eq_ok h
  obtain ⟨r₁, hhost, h⟩ := bind_eq_ok h
  obtain ⟨r₂, hagent, h⟩ := bind_eq_ok h
  have hr₀ : Draft c url (KeepsBody status req.method) (redirectMethod status req.method) [] r₀ := by
    rw [ClientRequest.create] at hcreate
    split_ifs at hcreate
    cases hcreate
    exact ⟨rfl, rfl, nofun⟩
  have hr₁ := hr₀.setHeader hhost (.inl (.inl rfl))
  have hr₂ := hr₁.ite hagent fun _ hagent => hr₁.setHeader hagent (.inl (.inr (.inl rfl)))
  simp only [keepsBody_iff hredirect] at h
  by_cases hkeeps : KeepsBody status req.method
  · rw [if_pos hkeeps] at h ⊢
    obtain ⟨r₃, hbody, h⟩ := bind_eq_ok h
    obtain ⟨r₄, htype, h⟩ := bind_eq_ok h
    -- the body, or the `Content-Length: 0` of a request without one
    have hr₃ : Draft c url (KeepsBody status req.method) (redirectMethod status req.method)
        req.body r₃ := by
      split_ifs at hbody with hemp hlen
      · exact hr₂.setBody hbody hkeeps
      all_goals
        have hnil : req.body = [] := by simpa using hemp
        rw [hnil]
      · exact hr₂.setHeader hbody (.inr ⟨hkeeps, mem_cons_self ..⟩)
      · cases hbody
        exact hr₂
    have hr₄ := hr₃.ite htype fun _ htype =>
      hr₃.setHeader htype (.inr ⟨hkeeps, mem_of_mem_drop (i := 1) (mem_cons_self ..)⟩)
    exact hr₄.ite h fun _ hexpect => hr₄.setExpectContinue hexpect hkeeps
  · rw [if_neg hkeeps] at h ⊢
    cases h
    exact hr₂

theorem redirectUrl_eq_some {count : ℕ} (h : c.redirectUrl target status response count = some url) :
    isAutoFollowRedirect status = true ∧ count < c.config.maxRedirects ∧
      target.resolveReference (response.get (text "Location")) = some url ∧
      isSupportedHttpUrlScheme url.scheme = true ∧
      (target.isSecure = true → url.isSecure = true) := by
  rw [redirectUrl] at h
  split_ifs at h with hfollow hemp hvalid
  split at h
  · cases h
  next resolved hresolve =>
    split_ifs at h with hproxy hscheme hsecure
    cases h
    simp only [Bool.or_eq_true, Bool.not_eq_true', decide_eq_true_eq, not_or, not_le,
      Bool.not_eq_false] at hfollow
    exact ⟨hfollow.1.2, hfollow.2, hresolve, by simpa using hscheme, by simpa using hsecure⟩

theorem makeRedirect_eq_ok {count : ℕ}
    (h : c.makeRedirect req target status response count = .ok (some (redirected, url))) :
    c.redirectUrl target status response count = some url ∧
      c.redirectRequest req url status = .ok redirected := by
  rw [makeRedirect] at h
  split at h
  · cases h
  next resolved hurl =>
    split at h
    · cases h
    next r hrequest =>
      cases h
      exact ⟨hurl, hrequest⟩

/-! ### One hop -/

section Hop

variable {keeps : Prop} {method : Method} {body : Bytes} {mode : RouteMode} {wireTarget : Bytes}
  {fields : Headers} {req' : ClientRequest} {exchange : Exchange} {route : Option RouteMode}
  {answer : Option (ℕ × Headers)}

theorem onlyAllowed_forwarded {proxy : ProxyProfile} {headers : Headers} (hproxy : proxy ∈ c.proxy)
    (hheaders : headers.OnlyAllowed c target keeps)
    (h : forwarded proxy req target headers = some (wireTarget, fields)) :
    fields.OnlyAllowed c target keeps := by
  simp only [forwarded] at h
  cases hhost : headers.set (text "Host") target.hostAuthority with
  | error e =>
    simp only [hhost] at h
    split_ifs at h
  | ok hosted =>
    have hhosted : hosted.OnlyAllowed c target keeps := .set hhost (.inl (.inl rfl)) hheaders
    simp only [hhost] at h
    cases hauthorized : hosted.set (text "Proxy-Authorization") proxy.authorization with
    | error e =>
      simp only [hauthorized] at h
      split_ifs at h
      all_goals
        cases h
        exact hhosted
    | ok authorized =>
      have hall : authorized.OnlyAllowed c target keeps :=
        .set hauthorized (.inl (.inr (.inr (.inr ⟨proxy, hproxy, rfl⟩)))) hhosted
      simp only [hauthorized] at h
      split_ifs at h
      all_goals
        cases h
        first
          | exact hhosted
          | exact hall

/-- What a route adds to the fields is allowed, and so is what it takes away. -/
theorem onlyAllowed_projected (hreq : req.headers.OnlyAllowed c target keeps)
    (h : c.projected req target mode = some (wireTarget, fields)) :
    fields.OnlyAllowed c target keeps := by
  simp only [projected] at h
  split_ifs at h
  · cases h
    exact hreq.remove
  · obtain ⟨proxy, hproxy, h⟩ := Option.bind_eq_some_iff.1 h
    exact onlyAllowed_forwarded hproxy hreq.remove h

theorem onlyAllowed_writtenFields {headers : Headers}
    (hheaders : headers.OnlyAllowed c target keeps)
    (h : writtenFields req wireTarget headers = some fields) :
    fields.OnlyAllowed c target keeps := by
  simp only [writtenFields] at h
  split_ifs at h
  all_goals
    cases h
    first
      | exact hheaders.remove
      | exact hheaders

theorem draft_completed (hreq : Draft c target keeps method body req)
    (h : completed req target = .ok req') : Draft c target keeps method body req' := by
  obtain ⟨hosted, hhost, h⟩ := bind_eq_ok h
  have hhosted := hreq.ite hhost fun _ hhost => hreq.setHeader hhost (.inl (.inl rfl))
  exact hhosted.ite h fun _ h => hhosted.setHeader h (.inl (.inr (.inr (.inl rfl))))

/-- An exchange that takes place has the target, the method and the body it is asked for, and the
fields of its route. -/
theorem prepareExchange_eq_ok
    (h : c.prepareExchange req target route answer = .ok (req', exchange)) :
    completed req target = .ok req' ∧ exchange.target = target ∧ exchange.method = req'.method ∧
      exchange.body = req'.body ∧ exchange.answer = answer ∧
      ∃ mode fields, c.projected req' target mode = some (exchange.wireTarget, fields) ∧
        writtenFields req' exchange.wireTarget fields = some exchange.fields := by
  simp only [prepareExchange] at h
  split_ifs at h
  cases route with
  | none => cases h
  | some mode =>
    simp only [] at h
    split at h
    · cases h
    next done hcompleted =>
      split at h
      · cases h
      next wireTarget fields hprojected =>
        split at h
        · cases h
        next written hwritten =>
          cases h
          exact ⟨hcompleted, rfl, rfl, rfl, rfl, mode, fields, hprojected, hwritten⟩

/-- **The exchange after a redirect** is one that `FollowUp` allows. -/
theorem followUp_of_makeRedirect {count : ℕ} {next : Exchange} {redirected' : ClientRequest}
    {nextRoute : Option RouteMode} {nextAnswer : Option (ℕ × Headers)}
    (hfst : c.prepareExchange req target route (some (status, response)) = .ok (req', exchange))
    (hredirect : c.makeRedirect req' target status response count = .ok (some (redirected, url)))
    (hnext : c.prepareExchange redirected url nextRoute nextAnswer = .ok (redirected', next)) :
    FollowUp c exchange next status response := by
  obtain ⟨-, htarget, hmeth, hbody, hanswer, -⟩ := prepareExchange_eq_ok hfst
  obtain ⟨hcompleted, hurl, hnextMethod, hnextBody, -, mode, fields, hprojected, hwritten⟩ :=
    prepareExchange_eq_ok hnext
  obtain ⟨hresolved, hrequest⟩ := makeRedirect_eq_ok hredirect
  obtain ⟨hfollow, -, hresolve, -, hsecure⟩ := redirectUrl_eq_some hresolved
  have hdraft := draft_completed (draft_redirectRequest hfollow hrequest) hcompleted
  rw [← hmeth, ← hbody] at hdraft
  rw [hdraft.method_eq] at hnextMethod
  rw [hdraft.body_eq] at hnextBody
  refine ⟨hanswer, ?_, by rw [htarget, hurl]; exact hresolve, by rw [htarget, hurl]; exact hsecure,
    ?_, ?_, ?_, ?_, ?_, ?_⟩
  · simpa [isAutoFollowRedirect, or_assoc] using hfollow
  · intro hstat hhead
    rw [hnextMethod, redirectMethod, if_pos (.inl ⟨hstat, hhead⟩)]
  · intro hstat hpost
    rw [hnextMethod, redirectMethod, if_pos (.inr ⟨hstat, hpost⟩)]
  · intro hhead hpost
    rw [hnextMethod, redirectMethod, if_neg]
    rintro (⟨hstat, hne⟩ | ⟨hstat, heq⟩)
    · exact hne (hhead hstat)
    · exact hpost hstat heq
  · intro hkeeps
    rw [hnextBody, if_pos hkeeps]
  · intro hdrops
    rw [hnextBody, if_neg hdrops]
  · rw [hurl]
    exact onlyAllowed_writtenFields (onlyAllowed_projected hdraft.fields hprojected) hwritten

end Hop

/-! ### All hops -/

variable {answer : ExchangeTurn → Option (ℕ × Headers)} {turns : List ExchangeTurn} {count : ℕ}

/-- What a turn of the loop can do: end the call before the exchange or after it, or follow a
redirect. -/
inductive Turned (c : Client) (answer : ExchangeTurn → Option (ℕ × Headers)) (count : ℕ)
    (req : ClientRequest) (target : Url) (turn : ExchangeTurn) (turns : List ExchangeTurn) :
    List Exchange × Option ClientOutcome → Prop
  | refused (outcome : ClientOutcome) : Turned c answer count req target turn turns ([], some outcome)
  | last {req' : ClientRequest} {exchange : Exchange} (outcome : ClientOutcome)
      (prepared : c.prepareExchange req target turn.route (answer turn) = .ok (req', exchange)) :
      Turned c answer count req target turn turns ([exchange], some outcome)
  | followed {req' redirected : ClientRequest} {exchange : Exchange} {status : ℕ}
      {response : Headers} {url : Url} {later : List Exchange × Option ClientOutcome}
      (prepared : c.prepareExchange req target turn.route (some (status, response)) =
        .ok (req', exchange))
      (redirect : c.makeRedirect req' target status response count = .ok (some (redirected, url)))
      (run : c.exchanges answer (count + 1) redirected url turns = later) :
      Turned c answer count req target turn turns (exchange :: later.1, later.2)

variable (c req target answer turns count) in
theorem turned (turn : ExchangeTurn) :
    Turned c answer count req target turn turns
      (c.exchanges answer count req target (turn :: turns)) := by
  rw [exchanges]
  cases hprep : c.prepareExchange req target turn.route (answer turn) with
  | error outcome => exact .refused outcome
  | ok prepared =>
    obtain ⟨req', exchange⟩ := prepared
    obtain ⟨-, -, -, -, hanswer, -⟩ := prepareExchange_eq_ok hprep
    simp only [hanswer]
    cases hgiven : answer turn with
    | none => exact .last .failed hprep
    | some given =>
      obtain ⟨status, response⟩ := given
      simp only []
      cases hredirect : c.makeRedirect req' target status response count with
      | error e => exact .last (.thrown e) hprep
      | ok next =>
        cases next with
        | none => exact .last (.response status response) hprep
        | some next =>
          rw [hgiven] at hprep
          exact .followed hprep hredirect rfl

theorem head_exchanges {exchange : Exchange}
    (h : exchange ∈ (c.exchanges answer count req target turns).1.head?) :
    ∃ route given req', c.prepareExchange req target route given = .ok (req', exchange) := by
  cases turns with
  | nil => cases h
  | cons turn turns =>
    have hturn := turned c req target answer turns count turn
    generalize c.exchanges answer count req target (turn :: turns) = call at h hturn
    cases hturn with
    | refused outcome => cases h
    | last outcome hprep | followed hprep =>
      cases h
      exact ⟨_, _, _, hprep⟩

variable (c req answer turns count) in
/-- **A run of the loop**, from any hop on. -/
theorem exchanges_follow (hscheme : isSupportedHttpUrlScheme target.scheme = true) :
    let call := c.exchanges answer count req target turns
    call.1.length ≤ c.config.maxRedirects - count + 1 ∧
      (c.config.maxRedirects - count < turns.length → call.2.isSome = true) ∧
      (∀ exchange ∈ call.1, isSupportedHttpUrlScheme exchange.target.scheme = true) ∧
      (target.isSecure = true → ∀ exchange ∈ call.1, exchange.target.isSecure = true) ∧
      (call.1.Pairwise fun exchange later =>
        exchange.target.isSecure = true → later.target.isSecure = true) ∧
      call.1.IsChain fun exchange next =>
        ∃ status response, FollowUp c exchange next status response := by
  -- by induction on the turns; a redirect uses up one of those that are allowed
  induction turns generalizing count req target with
  | nil => exact ⟨by simp [exchanges], by simp, by simp [exchanges], by simp [exchanges],
      by simp [exchanges], .nil⟩
  | cons turn turns ih =>
    have hturn := turned c req target answer turns count turn
    generalize c.exchanges answer count req target (turn :: turns) = call at hturn
    cases hturn with
    | refused outcome => simp
    | last outcome hprep =>
      obtain ⟨-, htarget, -⟩ := prepareExchange_eq_ok hprep
      simp [htarget, hscheme]
    | @followed req' redirected exchange status response url later hprep hredirect hrun =>
      obtain ⟨-, htarget, -⟩ := prepareExchange_eq_ok hprep
      obtain ⟨-, hcnt, -, hurl, hsecure⟩ :=
        redirectUrl_eq_some (makeRedirect_eq_ok hredirect).1
      obtain ⟨hlen, hended, hschemes, hstays, hpairs, hchain⟩ :=
        ih redirected (count + 1) hurl
      rw [hrun] at hlen hended hschemes hstays hpairs hchain
      refine ⟨?_, ?_, ?_, ?_, ?_, ?_⟩
      · rw [length_cons]
        omega
      · intro hturns
        rw [length_cons] at hturns
        exact hended (by omega)
      · exact forall_mem_cons.2 ⟨by rw [htarget]; exact hscheme, hschemes⟩
      · intro htls
        exact forall_mem_cons.2 ⟨by rw [htarget]; exact htls, hstays (hsecure htls)⟩
      · refine pairwise_cons.2 ⟨fun next hnext htls => ?_, hpairs⟩
        rw [htarget] at htls
        exact hstays (hsecure htls) next hnext
      · refine isChain_cons.2 ⟨fun next hnext => ?_, hchain⟩
        rw [← hrun] at hnext
        obtain ⟨route, given, redirected', hnextPrepare⟩ := head_exchanges hnext
        exact ⟨status, response, followUp_of_makeRedirect hprep hredirect hnextPrepare⟩

theorem followsSafely_exchanges (hscheme : isSupportedHttpUrlScheme target.scheme = true) :
    FollowsSafely c turns (c.exchanges answer 0 req target turns) := by
  obtain ⟨hlen, hended, hschemes, -, hpairs, hchain⟩ :=
    exchanges_follow c req answer turns 0 hscheme
  exact ⟨hlen, hended, hschemes, hpairs, hchain⟩

theorem followsSafely_refused (outcome : ClientOutcome) :
    FollowsSafely c turns ([], some outcome) :=
  ⟨Nat.zero_le _, fun _ => rfl, by simp, .nil, .nil⟩

end Client

/-- **Redirects are bounded and carry nothing along that they must not.**  For every client, every
request, and everything that the servers answer: a call makes at most `max_redirects + 1` exchanges
and ends; its targets are `http` or `https`, and never `http` once one was `https`; and each
exchange after the first follows from the one before as `FollowUp` says. -/
theorem redirects_follow_safely (c : Client) (turns : List ExchangeTurn) :
    (∀ req target, FollowsSafely c turns (c.sendResult req target turns)) ∧
      (∀ req target, FollowsSafely c turns (c.withResponse req target turns)) ∧
      ∀ method url body contentType honor,
        FollowsSafely c turns (c.requestUrlResult method url body contentType honor turns) := by
  refine ⟨fun req target => ?_, fun req target => ?_, fun method url body contentType honor => ?_⟩
  · rw [Client.sendResult]
    split_ifs with hscheme
    · exact Client.followsSafely_refused _
    · exact Client.followsSafely_exchanges (by simpa using hscheme)
  · rw [Client.withResponse]
    split_ifs with hscheme
    · exact Client.followsSafely_refused _
    · exact Client.followsSafely_exchanges (by simpa using hscheme)
  · rw [Client.requestUrlResult]
    cases Url.parse url with
    | none => exact Client.followsSafely_refused _
    | some parsed =>
      simp only []
      split_ifs with hproxy hscheme hagent htype
      · exact Client.followsSafely_refused _
      · exact Client.followsSafely_refused _
      · exact Client.followsSafely_refused _
      · exact Client.followsSafely_refused _
      · cases c.urlRequest method parsed body contentType honor with
        | error e => exact Client.followsSafely_refused _
        | ok req => exact Client.followsSafely_exchanges (by simpa using hscheme)

-- a `POST` to `https://a/x` that is answered with `303` and a relative location
example :
    let c : Client := ⟨{ maxRedirects := 1 }, none, fun _ => false⟩
    let found : Headers := Headers.empty.setField (text "Location") (text "../y?z")
    let call := c.requestUrlResult .post (text "https://a/x") (text "body") (text "text/plain") true
      [⟨some .direct, some (303, found), some []⟩, ⟨some .direct, some (200, .empty), some []⟩]
    call.1.map (fun exchange => (exchange.method, exchange.wireTarget, exchange.body)) =
        [(.post, text "/x", text "body"), (.get, text "/y?z", [])] ∧
      call.2 = some (.response 200 .empty) := by
  decide +kernel

end Elio.Http
