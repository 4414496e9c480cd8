/-
**The path router of the HTTP server.**

`http/http_server.hpp` compiles the pattern of a route into segments when the route is added, and
asks the routes in registration order for the first one that takes a request.  `route::match`
decides and captures in one loop: it writes a parameter into the caller's map as soon as the segment
before it has matched, and does not take it back when a later segment fails.  The map is shared by
all routes that one `find_route` tries.

The module models both loops as they are written, the map included, and compares them with what a
pattern means: both texts cut at `'/'`, a literal equal to its component, `":name"` against one
non-empty component, a final `"*"` against the one or more components that are left.

Main definitions:

* `PatternMatches`, `captures` — what a pattern takes and what it captures;
* `reached` — what an attempt has captured by the time it ends;
* `OnlyOwnKeys` — no attempt before the first route that takes the path has left a key that this
  route does not capture itself.

Main results:

* `Route.matchPath_eq` — **an attempt answers what the pattern means, and writes what it has
  reached**;
* `addRoute_ok_iff` — **a pattern is refused exactly when a `"*"` is not its last component**;
* `params_eq_captures_iff` — **the map holds the captures of the route found, and nothing else,
  exactly when no earlier attempt has left a foreign key**;
* `routeRequest_eq` — what the server then does with a request;
* `find_route_dispatch` — dispatch is its specification whenever `OnlyOwnKeys` holds;
* `stray_capture` — two routes and a path for which the map has a key of the route that did not
  match.
-/

import Elio.HttpCommon
import Mathlib.Data.List.Basic
import Mathlib.Logic.Function.Basic

set_option autoImplicit false

namespace Elio.Http

open List

/-! ### Routes and their segments -/

/-- `enum class segment_kind`. -/
inductive SegmentKind where
  | literal
  | param
  | wildcard
  deriving DecidableEq, Repr

/-- `route_segment`: the value is the literal text or the name of the parameter. -/
structure RouteSegment where
  kind : SegmentKind
  value : Bytes
  deriving DecidableEq, Repr

/-- `route`, for handlers of any type. -/
structure Route (H : Type*) where
  httpMethod : Method
  pattern : Bytes
  segments : List RouteSegment
  paramNames : List Bytes
  handler : H
  deriving DecidableEq, Repr

/-- The `std::unordered_map` of path parameters: the value stored under a key, if there is one. -/
abbrev Params := Bytes → Option Bytes

namespace Params

/-- A map without keys. -/
def empty : Params := fun _ => none

/-- `params[key] = value`. -/
def set (params : Params) (key value : Bytes) : Params := Function.update params key (some value)

/-- The writes `kvs`, in order. -/
def write (params : Params) (kvs : List (Bytes × Bytes)) : Params :=
  kvs.foldl (fun p kv => p.set kv.1 kv.2) params

/-- The map that holds exactly the pairs `kvs`; of two pairs with one key, the later. -/
def ofList (kvs : List (Bytes × Bytes)) : Params := fun key => kvs.reverse.lookup key

end Params

/-! ### Matching a path -/

/-- The splitting loop: `comp` is what stands between `start` and the current byte. -/
def componentsFrom (comp : Bytes) : Bytes → List Bytes
  | [] => [comp]
  | c :: rest =>
    if c = slash then comp :: componentsFrom [] rest
    else componentsFrom (comp ++ [c]) rest

/-- The components of a path, split on `'/'`. -/
def components (path : Bytes) : List Bytes := componentsFrom [] path

/-- The matching loop of `route::match`: the answer, and the map as the loop leaves it. -/
def matchFrom : List RouteSegment → List Bytes → Params → Bool × Params
  -- no more segments: every component must be consumed
  | [], comps, params => (comps.isEmpty, params)
  | seg :: segs, comps, params =>
    if seg.kind = .wildcard then (!comps.isEmpty, params)
    else
      match comps with
      | [] => (false, params)
      | comp :: rest =>
        if seg.kind = .literal then
          if comp ≠ seg.value then (false, params) else matchFrom segs rest params
        else
          if comp.isEmpty then (false, params)
          else matchFrom segs rest (params.set seg.value comp)

variable {H : Type*}

/-- `route::match`. -/
def Route.matchPath (r : Route H) (path : Bytes) (params : Params) : Bool × Params :=
  matchFrom r.segments (components path) params

/-! ### Adding a route -/

/-- What the router throws. -/
inductive RouterError where
  | invalidArgument (what : String)
  deriving DecidableEq, Repr

/-- One component of a pattern; `atEnd` says that the pattern ends with it. -/
def compileComponent (comp : Bytes) (atEnd : Bool) : Except RouterError RouteSegment :=
  if comp.head? = some colon then .ok ⟨.param, comp.tail⟩
  else if comp = [star] then
    if atEnd then .ok ⟨.wildcard, []⟩
    else .error (.invalidArgument "HTTP route wildcard must be the final path segment")
  else .ok ⟨.literal, comp⟩

/-- The route after a segment has been appended to it; `param_names` collects the parameters. -/
def Route.push (r : Route H) (seg : RouteSegment) : Route H :=
  { r with
    segments := r.segments ++ [seg]
    paramNames := if seg.kind = .param then r.paramNames ++ [seg.value] else r.paramNames }

/-- The loop of `add_route`, which splits the pattern as `match` splits the path. -/
def Route.compileFrom (r : Route H) (comp : Bytes) : Bytes → Except RouterError (Route H)
  | [] =>
    match compileComponent comp true with
    | .error e => .error e
    | .ok seg => .ok (r.push seg)
  | c :: rest =>
    if c = slash then
      match compileComponent comp false with
      | .error e => .error e
      | .ok seg => (r.push seg).compileFrom [] rest
    else r.compileFrom (comp ++ [c]) rest

/-- `router`: its routes, in registration order, and the handler for CONNECT. -/
structure Router (H : Type*) where
  routes : List (Route H)
  connectHandler : Option H

/-- A call of `add_route`. -/
structure Registration (H : Type*) where
  method : Method
  pattern : Bytes
  handler : H
  deriving DecidableEq, Repr

/-- The route that `add_route` starts from. -/
def Registration.blank (reg : Registration H) : Route H where
  httpMethod := reg.method
  pattern := reg.pattern
  segments := []
  paramNames := []
  handler := reg.handler

/-- The call that a route comes from. -/
def Route.registration (r : Route H) : Registration H where
  method := r.httpMethod
  pattern := r.pattern
  handler := r.handler

namespace Router

/-- `add_route`. -/
def addRoute (router : Router H) (reg : Registration H) : Except RouterError (Router H) :=
  match reg.blank.compileFrom [] reg.pattern with
  | .error e => .error e
  | .ok r => .ok { router with routes := router.routes ++ [r] }

/-- The router after the calls `regs` of `add_route`.  A call that throws leaves it as it was. -/
def registered (regs : List (Registration H)) : Router H :=
  regs.foldl (fun router reg => (router.addRoute reg).toOption.getD router)
    { routes := [], connectHandler := none }

/-- The loop of `find_route`: every route of the method is tried on the one map `params`. -/
def findFrom (m : Method) (path : Bytes) : List (Route H) → Params → Option (Route H) × Params
  | [], params => (none, params)
  | r :: rest, params =>
    if r.httpMethod = m then
      match r.matchPath path params with
      | (true, params') => (some r, params')
      | (false, params') => findFrom m path rest params'
    else findFrom m path rest params

/-- `find_route`: the route, if there is one, and the map as the call leaves it. -/
def findRoute (router : Router H) (m : Method) (path : Bytes) (params : Params) :
    Option (Route H) × Params :=
  findFrom m path router.routes params

end Router

/-- Who answers a request, and the path parameters in its context. -/
inductive Dispatch (H : Type*) where
  | connect (handler : H)
  | connectNotConfigured
  | route (handler : H) (params : Params)
  | notFoundHandler (handler : H)
  | notFound

/-- `route_request`.  A CONNECT request goes to its own handler, whatever its target is. -/
def routeRequest (router : Router H) (notFoundHandler : Option H) (m : Method) (path : Bytes) :
    Dispatch H :=
  if m = .connect then
    match router.connectHandler with
    | some handler => .connect handler
    | none => .connectNotConfigured
  else
    match router.findRoute m path .empty with
    | (some r, params) => .route r.handler params
    | (none, _) =>
      match notFoundHandler with
      | some handler => .notFoundHandler handler
      | none => .notFound

/-! ### What a pattern means -/

/-- A component of a path against a component of a pattern other than the final `"*"`. -/
def Fits (pc : Bytes × Bytes) : Prop :=
  if pc.1.head? = some colon then pc.2 ≠ [] else pc.1 = pc.2

instance : DecidablePred Fits := fun pc =>
  inferInstanceAs (Decidable (if pc.1.head? = some colon then pc.2 ≠ [] else pc.1 = pc.2))

/-- The components `ps` of a pattern take the components `cs` of a path. -/
def ComponentsMatch (ps cs : List Bytes) : Prop :=
  if ps.getLast? = some [star] then
    ps.length ≤ cs.length ∧ ∀ pc ∈ ps.dropLast.zip cs, Fits pc
  else ps.length = cs.length ∧ ∀ pc ∈ ps.zip cs, Fits pc

instance (ps cs : List Bytes) : Decidable (ComponentsMatch ps cs) :=
  inferInstanceAs (Decidable (if ps.getLast? = some [star] then
    ps.length ≤ cs.length ∧ ∀ pc ∈ ps.dropLast.zip cs, Fits pc
    else ps.length = cs.length ∧ ∀ pc ∈ ps.zip cs, Fits pc))

/-- A pattern takes a path. -/
def PatternMatches (pattern path : Bytes) : Prop :=
  ComponentsMatch (pattern.splitOn slash) (path.splitOn slash)

instance (pattern path : Bytes) : Decidable (PatternMatches pattern path) :=
  inferInstanceAs (Decidable (ComponentsMatch _ _))

/-- A `"*"` stands at the end of a pattern only. -/
def FinalWildcard (ps : List Bytes) : Prop := [star] ∉ ps.dropLast

instance (ps : List Bytes) : Decidable (FinalWildcard ps) :=
  inferInstanceAs (Decidable ([star] ∉ ps.dropLast))

/-- What a component of a pattern captures from its component of the path. -/
def capture (pc : Bytes × Bytes) : Option (Bytes × Bytes) :=
  if pc.1.head? = some colon then some (pc.1.tail, pc.2) else none

/-- **The captures of a pattern**: name and component for each of its parameters. -/
def captures (pattern path : Bytes) : List (Bytes × Bytes) :=
  ((pattern.splitOn slash).zip (path.splitOn slash)).filterMap capture

/-- The captures of the leading components that fit. -/
def reachedComponents (ps cs : List Bytes) : List (Bytes × Bytes) :=
  ((ps.zip cs).takeWhile fun pc => pc.1 ≠ [star] ∧ Fits pc).filterMap capture

/-- **What an attempt has captured when it ends**, whether it has matched or not. -/
def reached (pattern path : Bytes) : List (Bytes × Bytes) :=
  reachedComponents (pattern.splitOn slash) (path.splitOn slash)

/-- The calls of `add_route` that have added a route. -/
def accepted (regs : List (Registration H)) : List (Registration H) :=
  regs.filter fun reg => FinalWildcard (reg.pattern.splitOn slash)

/-- A registration takes a request. -/
def Registration.Takes (reg : Registration H) (m : Method) (path : Bytes) : Prop :=
  reg.method = m ∧ PatternMatches reg.pattern path

instance (reg : Registration H) (m : Method) (path : Bytes) : Decidable (reg.Takes m path) :=
  inferInstanceAs (Decidable (_ ∧ _))

/-- **The route that is to answer**: the first registration that takes the request. -/
def firstTaker (regs : List (Registration H)) (m : Method) (path : Bytes) :
    Option (Registration H) :=
  (accepted regs).find? fun reg => reg.Takes m path

/-- The registrations that are tried before it: those of the method, up to the first taker. -/
def triedBefore (regs : List (Registration H)) (m : Method) (path : Bytes) :
    List (Registration H) :=
  ((accepted regs).takeWhile fun reg => ¬ reg.Takes m path).filter fun reg => reg.method = m

/-- No registration tried before the first taker has captured a key, by the time it fails, that is
not a key of the first taker. -/
def OnlyOwnKeys (regs : List (Registration H)) (m : Method) (path : Bytes) : Prop :=
  ∀ found ∈ firstTaker regs m path, ∀ reg ∈ triedBefore regs m path,
    ∀ kv ∈ reached reg.pattern path, kv.1 ∈ (captures found.pattern path).map Prod.fst

instance (regs : List (Registration H)) (m : Method) (path : Bytes) :
    Decidable (OnlyOwnKeys regs m path) :=
  inferInstanceAs (Decidable (∀ found ∈ firstTaker regs m path, ∀ reg ∈ triedBefore regs m path,
    ∀ kv ∈ reached reg.pattern path, kv.1 ∈ (captures found.pattern path).map Prod.fst))

/-! ### The map of parameters -/

namespace Params

@[simp] theorem write_nil (params : Params) : params.write [] = params := rfl

@[simp] theorem write_cons (params : Params) (kv : Bytes × Bytes) (kvs : List (Bytes × Bytes)) :
    params.write (kv :: kvs) = (params.set kv.1 kv.2).write kvs := rfl

theorem write_append (params : Params) (kvs kvs' : List (Bytes × Bytes)) :
    params.write (kvs ++ kvs') = (params.write kvs).write kvs' :=
  foldl_append

/-- What a key holds after the writes: the last value written, or what it held before. -/
theorem write_apply (params : Params) (kvs : List (Bytes × Bytes)) (key : Bytes) :
    params.write kvs key = (ofList kvs key).or (params key) := by
  induction kvs generalizing params with
  | nil => rfl
  | cons kv kvs ih =>
    rw [write_cons, ih]
    -- the head of the list is the earliest write, so it is looked up last
    have hhead : ofList (kv :: kvs) key = (ofList kvs key).or (ofList [kv] key) := by
      simp [ofList, lookup_append]
    rw [hhead, Option.or_assoc]
    obtain ⟨name, value⟩ := kv
    by_cases hkey : key = name
    · subst hkey
      simp [set, ofList]
    · have hne : (key == name) = false := by simpa using hkey
      simp [set, ofList, lookup_cons, hne, hkey]

theorem write_empty (kvs : List (Bytes × Bytes)) : empty.write kvs = ofList kvs := by
  funext key
  rw [write_apply]
  simp [empty]

theorem ofList_eq_none_iff (kvs : List (Bytes × Bytes)) (key : Bytes) :
    ofList kvs key = none ↔ key ∉ kvs.map Prod.fst := by
  simp only [ofList, lookup_eq_none_iff, mem_reverse, mem_map]
  grind

/-- Writes `own` over writes `stray` leave exactly `own`, if and only if every key of `stray` is a
key of `own`. -/
theorem write_write_eq_iff (stray own : List (Bytes × Bytes)) :
    (empty.write stray).write own = ofList own ↔
      ∀ kv ∈ stray, kv.1 ∈ own.map Prod.fst := by
  constructor
  · intro heq kv hkv
    by_contra hown
    have hnone := (ofList_eq_none_iff own kv.1).2 hown
    have hkey := congrFun heq kv.1
    rw [write_apply, hnone, Option.none_or, write_empty, ofList_eq_none_iff] at hkey
    exact hkey (mem_map_of_mem hkv)
  · intro hkeys
    funext key
    rw [write_apply]
    cases hown : ofList own key with
    | some value => rfl
    | none =>
      rw [Option.none_or, write_empty, ofList_eq_none_iff]
      rw [ofList_eq_none_iff] at hown
      rintro hmem
      obtain ⟨kv, hkv, rfl⟩ := mem_map.1 hmem
      exact hown (hkeys kv hkv)

end Params

/-! ### Splitting -/

theorem componentsFrom_ne_nil (comp text : Bytes) : componentsFrom comp text ≠ [] := by
  induction text generalizing comp with
  | nil => simp [componentsFrom]
  | cons c rest ih =>
    rw [componentsFrom]
    split_ifs
    · simp
    · exact ih (comp ++ [c])

theorem componentsFrom_eq (comp text : Bytes) :
    componentsFrom comp text = (text.splitOn slash).modifyHead (comp ++ ·) := by
  induction text generalizing comp with
  | nil => simp [componentsFrom]
  | cons c rest ih =>
    rw [componentsFrom, splitOn_cons_eq_if_modifyHead]
    by_cases hc : c = slash
    · have hid : (([] : Bytes) ++ ·) = id := rfl
      rw [if_pos hc, if_pos (by simpa using hc), ih, hid]
      simp
    · simp [hc, ih, Function.comp_def]

/-- The splitting loop cuts at every `'/'`. -/
theorem components_eq (path : Bytes) : components path = path.splitOn slash := by
  have hid : (([] : Bytes) ++ ·) = id := rfl
  rw [components, componentsFrom_eq, hid, modifyHead_id, id]

/-! ### Compiling a pattern -/

/-- The segment of a component of a pattern. -/
def segmentOf (p : Bytes) : RouteSegment :=
  if p.head? = some colon then ⟨.param, p.tail⟩
  else if p = [star] then ⟨.wildcard, []⟩
  else ⟨.literal, p⟩

theorem compileComponent_true (p : Bytes) : compileComponent p true = .ok (segmentOf p) := by
  rw [compileComponent, segmentOf, if_pos rfl]
  split_ifs <;> rfl

variable {p path : Bytes}

theorem compileComponent_false_of_ne (h : p ≠ [star]) :
    compileComponent p false = .ok (segmentOf p) := by
  rw [compileComponent, segmentOf]
  split_ifs <;> rfl

theorem compileComponent_star :
    compileComponent [star] false =
      .error (.invalidArgument "HTTP route wildcard must be the final path segment") := rfl

/-- The components `ps`, compiled and appended to a route. -/
def Route.pushAll (r : Route H) (ps : List Bytes) : Route H :=
  ps.foldl (fun r p => r.push (segmentOf p)) r

theorem Route.pushAll_segments (r : Route H) (ps : List Bytes) :
    (r.pushAll ps).segments = r.segments ++ ps.map segmentOf := by
  induction ps generalizing r with
  | nil => simp [pushAll]
  | cons p ps ih =>
    have hstep : r.pushAll (p :: ps) = (r.push (segmentOf p)).pushAll ps := rfl
    rw [hstep, ih]
    simp [push]

theorem Route.pushAll_registration (r : Route H) (ps : List Bytes) :
    (r.pushAll ps).registration = r.registration := by
  induction ps generalizing r with
  | nil => rfl
  | cons p ps ih => exact ih (r.push (segmentOf p))

/-- The compiling loop throws at the first `"*"` that is not the last component, and otherwise
compiles every component. -/
theorem Route.compileFrom_eq (r : Route H) (comp text : Bytes) :
    r.compileFrom comp text =
      if FinalWildcard (componentsFrom comp text) then .ok (r.pushAll (componentsFrom comp text))
      else .error (.invalidArgument "HTTP route wildcard must be the final path segment") := by
  induction text generalizing r comp with
  | nil => simp [compileFrom, componentsFrom, compileComponent_true, FinalWildcard, pushAll]
  | cons c rest ih =>
    rw [compileFrom, componentsFrom]
    by_cases hc : c = slash
    · rw [if_pos hc, if_pos hc]
      have hlast : (comp :: componentsFrom [] rest).dropLast =
          comp :: (componentsFrom [] rest).dropLast :=
        dropLast_cons_of_ne_nil (componentsFrom_ne_nil [] rest)
      by_cases hstar : comp = [star]
      · -- a wildcard before a slash
        subst hstar
        simp [compileComponent_star, FinalWildcard, hlast]
      · have hfinal : FinalWildcard (comp :: componentsFrom [] rest) ↔
            FinalWildcard (componentsFrom [] rest) := by
          simp [FinalWildcard, hlast, Ne.symm hstar]
        simp only [compileComponent_false_of_ne hstar, ih, hfinal]
        rfl
    · rw [if_neg hc, if_neg hc, ih]

/-- The route that a call of `add_route` adds. -/
def Registration.compiled (reg : Registration H) : Route H :=
  reg.blank.pushAll (reg.pattern.splitOn slash)

@[simp] theorem Registration.compiled_segments (reg : Registration H) :
    reg.compiled.segments = (reg.pattern.splitOn slash).map segmentOf := by
  rw [compiled, Route.pushAll_segments]
  rfl

@[simp] theorem Registration.compiled_registration (reg : Registration H) :
    reg.compiled.registration = reg := by
  rw [compiled, Route.pushAll_registration]
  rfl

@[simp] theorem Registration.compiled_httpMethod (reg : Registration H) :
    reg.compiled.httpMethod = reg.method :=
  congrArg Registration.method reg.compiled_registration

@[simp] theorem Registration.compiled_pattern (reg : Registration H) :
    reg.compiled.pattern = reg.pattern :=
  congrArg Registration.pattern reg.compiled_registration

theorem Router.addRoute_eq (router : Router H) (reg : Registration H) :
    router.addRoute reg =
      if FinalWildcard (reg.pattern.splitOn slash) then
        .ok { router with routes := router.routes ++ [reg.compiled] }
      else .error (.invalidArgument "HTTP route wildcard must be the final path segment") := by
  have hsplit : componentsFrom [] reg.pattern = reg.pattern.splitOn slash := components_eq _
  rw [addRoute, Route.compileFrom_eq, hsplit]
  split_ifs <;> rfl

/-- **A pattern is refused exactly when a `"*"` is not its last component.** -/
theorem addRoute_ok_iff (router : Router H) (reg : Registration H) :
    (router.addRoute reg).toOption.isSome ↔ FinalWildcard (reg.pattern.splitOn slash) := by
  rw [Router.addRoute_eq]
  split_ifs with h <;> simp [h, Except.toOption]

theorem Router.registered_append (regs : List (Registration H)) (reg : Registration H) :
    registered (regs ++ [reg]) = ((registered regs).addRoute reg).toOption.getD (registered regs) := by
  rw [registered, foldl_append]
  rfl

/-- The router holds the accepted registrations, compiled, in their order. -/
theorem Router.registered_routes (regs : List (Registration H)) :
    (registered regs).routes = (accepted regs).map Registration.compiled := by
  -- the induction runs from the last registration, as the fold does
  induction regs using reverseRecOn with
  | nil => rfl
  | append_singleton regs reg ih =>
    have haccepted : accepted (regs ++ [reg]) = accepted regs ++ accepted [reg] :=
      filter_append regs [reg]
    rw [registered_append, addRoute_eq, haccepted, map_append, ← ih]
    by_cases hfinal : FinalWildcard (reg.pattern.splitOn slash)
    · simp [hfinal, Except.toOption, accepted]
    · simp [hfinal, Except.toOption, accepted]

/-! ### One attempt -/

theorem segmentOf_wildcard : segmentOf [star] = ⟨.wildcard, []⟩ := rfl

theorem segmentOf_of_ne (h : p ≠ [star]) : (segmentOf p).kind ≠ .wildcard := by
  rw [segmentOf]
  split_ifs <;> simp

variable {ps : List Bytes}

theorem FinalWildcard.of_cons (h : FinalWildcard (p :: ps)) : FinalWildcard ps := by
  cases ps with
  | nil => simp [FinalWildcard]
  | cons q qs =>
    simp only [FinalWildcard, dropLast_cons_cons, mem_cons, not_or] at h ⊢
    exact h.2

theorem FinalWildcard.eq_nil_of_star (h : FinalWildcard ([star] :: ps)) : ps = [] := by
  cases ps with
  | nil => rfl
  | cons q qs => simp [FinalWildcard] at h

theorem componentsMatch_star (cs : List Bytes) : ComponentsMatch [[star]] cs ↔ cs ≠ [] := by
  cases cs <;> simp [ComponentsMatch]

theorem componentsMatch_nil (cs : List Bytes) : ComponentsMatch [] cs ↔ cs = [] := by
  cases cs <;> simp [ComponentsMatch]

theorem not_componentsMatch_nil (p : Bytes) (ps : List Bytes) : ¬ ComponentsMatch (p :: ps) [] := by
  simp [ComponentsMatch]

/-- A component that is not a wildcard takes one component of the path. -/
theorem componentsMatch_cons (hp : p ≠ [star]) (ps : List Bytes) (c : Bytes) (cs : List Bytes) :
    ComponentsMatch (p :: ps) (c :: cs) ↔ Fits (p, c) ∧ ComponentsMatch ps cs := by
  cases ps with
  | nil =>
    simp [ComponentsMatch, hp, and_comm, eq_comm]
  | cons q qs =>
    simp only [ComponentsMatch, getLast?_cons_cons, dropLast_cons_cons, length_cons,
      zip_cons_cons, forall_mem_cons]
    split_ifs
    · rw [Nat.add_le_add_iff_right]
      tauto
    · rw [Nat.add_right_cancel_iff]
      tauto

theorem reachedComponents_cons_of_fits {c : Bytes} (hp : p ≠ [star]) (hfits : Fits (p, c))
    (ps cs : List Bytes) :
    reachedComponents (p :: ps) (c :: cs) =
      (capture (p, c)).toList ++ reachedComponents ps cs := by
  have hhead : (decide (p ≠ [star] ∧ Fits (p, c))) = true := by simp [hp, hfits]
  rw [reachedComponents, zip_cons_cons, takeWhile_cons, if_pos hhead]
  cases hcap : capture (p, c) <;> simp [hcap, reachedComponents]

theorem reachedComponents_cons_of_not {c : Bytes} (h : ¬ (p ≠ [star] ∧ Fits (p, c)))
    (ps cs : List Bytes) : reachedComponents (p :: ps) (c :: cs) = [] := by
  have hhead : (decide (p ≠ [star] ∧ Fits (p, c))) = false := by simpa using h
  rw [reachedComponents, zip_cons_cons, takeWhile_cons, hhead]
  rfl

/-- One turn of the matching loop at a component that is not a wildcard. -/
theorem matchFrom_cons (hp : p ≠ [star]) (segs : List RouteSegment) (c : Bytes) (cs : List Bytes)
    (params : Params) :
    matchFrom (segmentOf p :: segs) (c :: cs) params =
      if Fits (p, c) then matchFrom segs cs (params.write (capture (p, c)).toList)
      else (false, params) := by
  by_cases hparam : p.head? = some colon
  · by_cases hemp : c = []
    · simp [matchFrom, segmentOf, Fits, hparam, hemp]
    · simp [matchFrom, segmentOf, Fits, capture, hparam, hemp]
  · by_cases heq : p = c
    · subst heq
      simp [matchFrom, segmentOf, Fits, capture, hparam, hp]
    · simp [matchFrom, segmentOf, Fits, hparam, hp, heq, Ne.symm heq]

/-- The matching loop decides whether the components match, and leaves in the map what the fitting
components before the end of the loop have captured. -/
theorem matchFrom_eq (hps : FinalWildcard ps) (cs : List Bytes) (params : Params) :
    matchFrom (ps.map segmentOf) cs params =
      (decide (ComponentsMatch ps cs), params.write (reachedComponents ps cs)) := by
  induction ps generalizing cs params with
  | nil => cases cs <;> simp [matchFrom, componentsMatch_nil, reachedComponents]
  | cons p ps ih =>
    by_cases hp : p = [star]
    · -- the wildcard is the last segment: the loop ends here
      subst hp
      obtain rfl := hps.eq_nil_of_star
      cases cs <;>
        simp [matchFrom, segmentOf_wildcard, componentsMatch_star, reachedComponents]
    · cases cs with
      | nil =>
        simp [matchFrom, segmentOf_of_ne hp, not_componentsMatch_nil, reachedComponents]
      | cons c cs =>
        rw [map_cons, matchFrom_cons hp]
        by_cases hfits : Fits (p, c)
        · rw [ih hps.of_cons, reachedComponents_cons_of_fits hp hfits,
            Params.write_append]
          simp [componentsMatch_cons hp, hfits]
        · rw [reachedComponents_cons_of_not (by simp [hfits])]
          simp [componentsMatch_cons hp, hfits]

variable {reg : Registration H}

/-- **An attempt answers what the pattern means, and writes what it has reached.** -/
theorem Route.matchPath_eq
    (hreg : FinalWildcard (reg.pattern.splitOn slash)) (path : Bytes) (params : Params) :
    reg.compiled.matchPath path params =
      (decide (PatternMatches reg.pattern path), params.write (reached reg.pattern path)) := by
  rw [matchPath, Registration.compiled_segments, components_eq, matchFrom_eq hreg]
  rfl

/-- An attempt that matches has reached all captures of its pattern. -/
theorem reachedComponents_of_match {cs : List Bytes} (hps : FinalWildcard ps)
    (hmatch : ComponentsMatch ps cs) : reachedComponents ps cs = (ps.zip cs).filterMap capture := by
  induction ps generalizing cs with
  | nil => rfl
  | cons p ps ih =>
    cases cs with
    | nil => exact absurd hmatch (not_componentsMatch_nil p ps)
    | cons c cs =>
      by_cases hp : p = [star]
      · -- the last pair has the wildcard, which captures nothing
        subst hp
        obtain rfl := hps.eq_nil_of_star
        rfl
      · obtain ⟨hfits, hrest⟩ := (componentsMatch_cons hp ps c cs).1 hmatch
        rw [reachedComponents_cons_of_fits hp hfits, ih hps.of_cons hrest]
        cases hcap : capture (p, c) <;> simp [hcap]

/-! ### The search -/

/-- What the attempts at the registrations `regs` write, up to and with the first that takes the
request. -/
def attempted (m : Method) (path : Bytes) (regs : List (Registration H)) : List (Bytes × Bytes) :=
  ((regs.takeWhile fun reg => ¬ reg.Takes m path).filter fun reg => reg.method = m).flatMap
      (fun reg => reached reg.pattern path) ++
    ((regs.find? fun reg => reg.Takes m path).map fun reg => reached reg.pattern path).getD []

variable {m : Method}

theorem attempted_cons_of_takes (h : reg.Takes m path) (regs : List (Registration H)) :
    attempted m path (reg :: regs) = reached reg.pattern path := by
  simp [attempted, h]

theorem attempted_cons_of_not (h : ¬ reg.Takes m path) (regs : List (Registration H)) :
    attempted m path (reg :: regs) =
      (if reg.method = m then reached reg.pattern path else []) ++ attempted m path regs := by
  by_cases hm : reg.method = m <;> simp [attempted, h, hm]

variable {regs : List (Registration H)}

/-- The search finds the first registration that takes the request, and leaves in the map what every
attempt on the way has written. -/
theorem Router.findFrom_eq
    (hregs : ∀ reg ∈ regs, FinalWildcard (reg.pattern.splitOn slash)) (m : Method) (path : Bytes)
    (params : Params) :
    findFrom m path (regs.map Registration.compiled) params =
      ((regs.find? fun reg => reg.Takes m path).map Registration.compiled,
        params.write (attempted m path regs)) := by
  induction regs generalizing params with
  | nil => rfl
  | cons reg regs ih =>
    obtain ⟨hreg, hrest⟩ := forall_mem_cons.1 hregs
    rw [map_cons, findFrom, Registration.compiled_httpMethod, Route.matchPath_eq hreg]
    by_cases hm : reg.method = m
    · rw [if_pos hm]
      by_cases hmatch : PatternMatches reg.pattern path
      · have htakes : reg.Takes m path := ⟨hm, hmatch⟩
        simp [hmatch, htakes, attempted_cons_of_takes]
      · -- the attempt fails, and its writes stay
        have hnot : ¬ reg.Takes m path := fun h => hmatch h.2
        simp [hmatch, hnot, attempted_cons_of_not, hm, ih hrest, Params.write_append]
    · have hnot : ¬ reg.Takes m path := fun h => hm h.1
      simp [hm, hnot, attempted_cons_of_not, ih hrest]

theorem finalWildcard_of_mem_accepted
    (h : reg ∈ accepted regs) : FinalWildcard (reg.pattern.splitOn slash) := by
  simpa using (mem_filter.1 h).2

theorem findRoute_eq (regs : List (Registration H)) (m : Method) (path : Bytes) (params : Params) :
    (Router.registered regs).findRoute m path params =
      ((firstTaker regs m path).map Registration.compiled,
        params.write (attempted m path (accepted regs))) := by
  rw [Router.findRoute, Router.registered_routes,
    Router.findFrom_eq fun _ => finalWildcard_of_mem_accepted]
  rfl

/-- The route that is found has reached its captures, whatever was tried before it. -/
theorem attempted_of_found {found : Registration H} (hfound : firstTaker regs m path = some found) :
    attempted m path (accepted regs) =
      (triedBefore regs m path).flatMap (fun reg => reached reg.pattern path) ++
        captures found.pattern path := by
  have htakes : found.Takes m path := by simpa using find?_some hfound
  have hfinal := finalWildcard_of_mem_accepted (mem_of_find?_eq_some hfound)
  have hown : reached found.pattern path = captures found.pattern path :=
    reachedComponents_of_match hfinal htakes.2
  rw [firstTaker] at hfound
  rw [attempted, hfound, ← hown]
  rfl

/-- **The map holds the captures of the route found, and nothing else, exactly when no earlier
attempt has left a foreign key.** -/
theorem params_eq_captures_iff {found : Registration H}
    (hfound : firstTaker regs m path = some found) :
    ((Router.registered regs).findRoute m path .empty).2 = .ofList (captures found.pattern path) ↔
      OnlyOwnKeys regs m path := by
  rw [findRoute_eq, attempted_of_found hfound, Params.write_append, Params.write_write_eq_iff]
  constructor
  · intro hkeys found' hfound' reg hreg kv hkv
    obtain rfl : found = found' := Option.some.inj (hfound.symm.trans hfound')
    exact hkeys kv (mem_flatMap.2 ⟨reg, hreg, hkv⟩)
  · intro hkeys kv hkv
    obtain ⟨reg, hreg, hkv⟩ := mem_flatMap.1 hkv
    exact hkeys found hfound reg hreg kv hkv

/-- **Dispatch is its specification.**  The route that `find_route` returns is the first
registration of the method whose pattern takes the path, and none when there is none; and when no
attempt before it has left a key of its own, the map holds exactly the captures of that route. -/
theorem find_route_dispatch (regs : List (Registration H)) (m : Method) (path : Bytes)
    (honly : OnlyOwnKeys regs m path) :
    ((Router.registered regs).findRoute m path .empty).1.map Route.registration =
        firstTaker regs m path ∧
      ∀ r ∈ ((Router.registered regs).findRoute m path .empty).1,
        ((Router.registered regs).findRoute m path .empty).2 =
          .ofList (captures r.pattern path) := by
  constructor
  · rw [findRoute_eq]
    simp [Function.comp_def]
  · intro r hr
    simp only [findRoute_eq, Option.mem_def, Option.map_eq_some_iff] at hr
    obtain ⟨found, hfound, rfl⟩ := hr
    rw [Registration.compiled_pattern]
    exact (params_eq_captures_iff hfound).2 honly

/-- A request other than CONNECT goes to the handler of the first taker, in a context that holds its
captures. -/
theorem routeRequest_eq (regs : List (Registration H)) (notFoundHandler : Option H) (path : Bytes)
    (hm : m ≠ .connect) (honly : OnlyOwnKeys regs m path) :
    routeRequest (.registered regs) notFoundHandler m path =
      match firstTaker regs m path, notFoundHandler with
      | some found, _ => .route found.handler (.ofList (captures found.pattern path))
      | none, some handler => .notFoundHandler handler
      | none, none => .notFound := by
  simp only [routeRequest, if_neg hm]
  cases hfound : firstTaker regs m path with
  | some found =>
    have hparams := (params_eq_captures_iff hfound).2 honly
    have hhandler : found.compiled.handler = found.handler :=
      congrArg Registration.handler found.compiled_registration
    rw [findRoute_eq, hfound] at hparams ⊢
    exact congrArg₂ Dispatch.route hhandler hparams
  | none =>
    rw [findRoute_eq, hfound]
    cases notFoundHandler <;> rfl

/-- The routes `/u/:a` and `/:b`, asked for `/v`: the second answers, and the first has failed
before it could capture anything. -/
theorem find_route_dispatch_users :
    let regs : List (Registration ℕ) := [⟨.get, text "/u/:a", 0⟩, ⟨.get, text "/:b", 1⟩]
    let found := (Router.registered regs).findRoute .get (text "/v") .empty
    OnlyOwnKeys regs .get (text "/v") ∧
      found.1.map Route.registration = some ⟨.get, text "/:b", 1⟩ ∧
      found.2 (text "b") = some (text "v") ∧ found.2 (text "a") = none := by
  intro regs found
  have honly : OnlyOwnKeys regs .get (text "/v") := by decide
  obtain ⟨hroute, hparams⟩ := find_route_dispatch regs .get (text "/v") honly
  exact ⟨honly, hroute, rfl, rfl⟩

/-- With the routes `/:a/x` and `/:b/y`, a GET of `/v/y` is answered by the second route, and the
map it gets also holds the capture `a` of the first. -/
theorem stray_capture :
    let regs : List (Registration ℕ) := [⟨.get, text "/:a/x", 0⟩, ⟨.get, text "/:b/y", 1⟩]
    let found := (Router.registered regs).findRoute .get (text "/v/y") .empty
    let own := Params.ofList (captures (text "/:b/y") (text "/v/y"))
    firstTaker regs .get (text "/v/y") = some ⟨.get, text "/:b/y", 1⟩ ∧
      found.1.map Route.registration = some ⟨.get, text "/:b/y", 1⟩ ∧
      found.2 (text "a") = some (text "v") ∧ own (text "a") = none ∧ found.2 ≠ own := by
  intro regs found own
  have hleft : found.2 (text "a") = some (text "v") := rfl
  have hown : own (text "a") = none := rfl
  refine ⟨rfl, rfl, hleft, hown, ?_⟩
  intro heq
  rw [heq] at hleft
  exact absurd hleft (Option.some_ne_none _).symm

end Elio.Http
