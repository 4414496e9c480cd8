/-
**The bounded connection pool as a transition system.**

`http/detail/bounded_pool.hpp` admits connections within seven limits.  A slot is a `permit`: it is
made when a dial is allowed or an idle connection is taken, it is held by the caller of `acquire`,
and it ends when it is reset or when the connection is retained as an idle one.  Requests that
cannot be served wait in one queue over all routes, and whatever may have freed a slot runs
`dispatch`, which serves the queue from its front.

The parties are operations: one call of `acquire`.  An operation is used once.  One step is one
critical section of the mutex of the pool, or a step of an operation between two of them.  What a
critical section puts into a `change` is dealt with outside of it: the connections it retired are
permits with the place `retired` from then on, which are reset in steps of their own, and the
waiters it notified have `notified` set until their `ready` is.  Connections are left out but for
the time of their last use.

`routes` is in the order in which the hash map is traversed.  An insertion may leave it in any
order, which the label of the step gives.  Buckets are shared pointers in the source; here they are
numbers that are not used again.  `arrived` and `granted` record the order in which operations came
to be queued or served, and the order in which they were served.  No step reads them.

Main definitions:

* `acquire` — one turn of the loop of `acquire_owned`;
* `system` — the transition system.
-/

import Elio.TransitionSystem
import Mathlib

set_option autoImplicit false

namespace Elio.BoundedPool

/-! ### The pool -/

/-- `pool_limits`. -/
structure Limits where
  maxIdlePerRoute : ℕ := 6
  maxIdleTotal : ℕ := 64
  maxLivePerRoute : ℕ := 12
  maxLiveTotal : ℕ := 128
  maxDialsTotal : ℕ := 16
  maxWaitersTotal : ℕ := 256
  maxRouteBuckets : ℕ := 128
  deriving DecidableEq, Repr

/-- What the pool is constructed with. -/
structure Config where
  limits : Limits
  idleTimeout : ℤ
  deriving DecidableEq, Repr

/-- `bucket`: the idle connections, oldest first, are the times of their last use. -/
structure Bucket where
  live : ℕ
  waiting : ℕ
  idle : List ℤ
  deriving DecidableEq, Repr

def Bucket.empty : Bucket := ⟨0, 0, []⟩

/-- Where a permit is. -/
inductive Place (ι : Type*)
  /-- In `selected` of the waiter of the operation. -/
  | selected (i : ι)
  /-- In `recovered` of the `departure` of the operation. -/
  | recovered (i : ι)
  /-- With the caller of the operation. -/
  | leased (i : ι)
  /-- With a connection that is to be closed. -/
  | retired
  deriving DecidableEq, Repr

/-- `permit`. -/
structure Permit (ι : Type*) where
  route : ℕ
  dialing : Bool
  place : Place ι
  deriving DecidableEq, Repr

/-- A queued `waiter`. -/
structure Waiter (ι : Type*) where
  op : ι
  route : ℕ
  deriving DecidableEq, Repr

/-- `state`, with the permits that are out. -/
structure Pool (κ ι : Type*) where
  routes : List (κ × ℕ)
  buckets : ℕ → Bucket
  nextBucket : ℕ
  waiters : List (Waiter ι)
  live : ℕ
  idle : ℕ
  dialing : ℕ
  closing : Bool
  permits : List (Permit ι)

variable {κ ι : Type*}

namespace Pool

/-- Change one bucket. -/
def modify (p : Pool κ ι) (b : ℕ) (f : Bucket → Bucket) : Pool κ ι :=
  { p with buckets := Function.update p.buckets b (f (p.buckets b)) }

/-- The first `n` idle connections of a bucket receive their permits and leave it. -/
def detach (p : Pool κ ι) (b n : ℕ) : Pool κ ι :=
  { p.modify b fun k => { k with idle := k.idle.drop n } with
    permits := List.replicate n ⟨b, false, .retired⟩ ++ p.permits }

end Pool

/-! ### The functions of the source -/

/-- `prune_empty`. -/
def pruneEmpty (p : Pool κ ι) : Pool κ ι :=
  { p with
    routes := p.routes.filter fun r =>
      ¬((p.buckets r.2).live = 0 ∧ (p.buckets r.2).waiting = 0) }

/-- How many connections at the front of a bucket have been idle for too long. -/
def expiredCount (cfg : Config) (now : ℤ) (k : Bucket) : ℕ :=
  (k.idle.takeWhile fun lastUse => cfg.idleTimeout ≤ now - lastUse).length

/-- The loops of `expire`.  The second component counts what was retired. -/
def expireRoutes (cfg : Config) (now : ℤ) : List (κ × ℕ) → Pool κ ι × ℕ → Pool κ ι × ℕ
  | [], c => c
  | r :: rest, (p, retired) =>
    let n := expiredCount cfg now (p.buckets r.2)
    expireRoutes cfg now rest ({ p.detach r.2 n with idle := p.idle - n }, retired + n)

/-- `expire`. -/
def expire (cfg : Config) (now : ℤ) (p : Pool κ ι) : Pool κ ι × ℕ :=
  let c := expireRoutes cfg now p.routes (p, 0)
  (pruneEmpty c.1, c.2)

/-- The first route with an idle connection gives it up. -/
def retireOne (p : Pool κ ι) : Pool κ ι × ℕ :=
  match p.routes.find? fun r => (p.buckets r.2).idle ≠ [] with
  | some r => ({ p.detach r.2 1 with idle := p.idle - 1 }, 1)
  | none => (p, 0)

/-- `available`: the answer, the pool afterwards, and how many connections were retired. -/
def available (limits : Limits) (b : ℕ) (p : Pool κ ι) : Bool × Pool κ ι × ℕ :=
  if (p.buckets b).idle ≠ [] then (true, p, 0)
  else if limits.maxLivePerRoute ≤ (p.buckets b).live ∨ limits.maxDialsTotal ≤ p.dialing then
    (false, p, 0)
  else
    let c := if limits.maxLiveTotal ≤ p.live then retireOne p else (p, 0)
    (c.1.live < limits.maxLiveTotal, c)

/-- `reserve`: the permit goes to `place`. -/
def reserve (b : ℕ) (place : Place ι) (p : Pool κ ι) : Pool κ ι :=
  if (p.buckets b).idle = [] then
    { p.modify b fun k => { k with live := k.live + 1 } with
      live := p.live + 1
      dialing := p.dialing + 1
      permits := ⟨b, true, place⟩ :: p.permits }
  else
    { p.modify b fun k => { k with idle := k.idle.tail } with
      idle := p.idle - 1
      permits := ⟨b, false, place⟩ :: p.permits }

/-- The waiter `w` at the front of the queue is served. -/
def grantTo (w : Waiter ι) (rest : List (Waiter ι)) (p : Pool κ ι) : Pool κ ι :=
  reserve w.route (.selected w.op)
    ({ p with waiters := rest }.modify w.route fun k => { k with waiting := k.waiting - 1 })

/-- The loop of `dispatch` over the queue.  The second component is who was served. -/
def dispatchLoop (limits : Limits) : List (Waiter ι) → Pool κ ι → Pool κ ι × List ι
  | [], p => (p, [])
  | w :: rest, p =>
    let c := available limits w.route p
    if c.1 then
      let d := dispatchLoop limits rest (grantTo w rest c.2.1)
      (d.1, w.op :: d.2)
    else (c.2.1, [])

/-- `dispatch`. -/
def dispatch (cfg : Config) (now : ℤ) (p : Pool κ ι) : Pool κ ι × List ι :=
  let q := (expire cfg now p).1
  let d := dispatchLoop cfg.limits q.waiters q
  (pruneEmpty d.1, d.2)

variable [DecidableEq ι]

namespace Pool

/-- The permit changes. -/
def replace (p : Pool κ ι) (x y : Permit ι) : Pool κ ι :=
  { p with permits := y :: p.permits.erase x }

/-- `permit::reset`, before `dispatch`. -/
def giveBack (p : Pool κ ι) (x : Permit ι) : Pool κ ι :=
  { p.modify x.route fun k => { k with live := k.live - 1 } with
    dialing := if x.dialing then p.dialing - 1 else p.dialing
    live := p.live - 1
    permits := p.permits.erase x }

/-- The connection of a permit becomes an idle one. -/
def keep (p : Pool κ ι) (x : Permit ι) (lastUse : ℤ) : Pool κ ι :=
  { p.modify x.route fun k => { k with idle := k.idle ++ [lastUse] } with
    idle := p.idle + 1
    permits := p.permits.erase x }

/-- The first permit at a place. -/
def at? (p : Pool κ ι) (place : Place ι) : Option (Permit ι) :=
  p.permits.find? (·.place = place)

/-- A waiter leaves the queue. -/
def unlink (p : Pool κ ι) (i : ι) : Pool κ ι :=
  match p.waiters.find? (·.op = i) with
  | some w =>
    { p with waiters := p.waiters.erase w }.modify w.route fun k =>
      { k with waiting := k.waiting - 1 }
  | none => p

end Pool

/-- `permit::reset`. -/
def reset (cfg : Config) (now : ℤ) (x : Permit ι) (p : Pool κ ι) : Pool κ ι × List ι :=
  dispatch cfg now (p.giveBack x)

/-- `permit::dial_complete`. -/
def dialComplete (cfg : Config) (now : ℤ) (x : Permit ι) (p : Pool κ ι) : Pool κ ι × List ι :=
  if x.dialing then
    dispatch cfg now { p.replace x { x with dialing := false } with dialing := p.dialing - 1 }
  else (p, [])

/-- `retain`.  When it is refused the permit stays with the caller. -/
def retain (cfg : Config) (lastUse now : ℤ) (x : Permit ι) (p : Pool κ ι) : Pool κ ι × List ι :=
  if p.closing ∨ x.dialing ∨ cfg.limits.maxIdlePerRoute ≤ (p.buckets x.route).idle.length ∨
      cfg.limits.maxIdleTotal ≤ p.idle then (p, [])
  else dispatch cfg now (p.keep x lastUse)

/-- The first loop of `clear`: every idle connection is retired. -/
def detachAll : List (κ × ℕ) → Pool κ ι → Pool κ ι
  | [], p => p
  | r :: rest, p => detachAll rest (p.detach r.2 (p.buckets r.2).idle.length)

/-- The second loop of `clear`: every waiter leaves the queue. -/
def flush : List (Waiter ι) → Pool κ ι → Pool κ ι
  | [], p => p
  | w :: rest, p =>
    flush rest ({ p with waiters := rest }.modify w.route fun k =>
      { k with waiting := k.waiting - 1 })

/-- `clear`: the pool, who was served, and who was shut down. -/
def clear (cfg : Config) (now : ℤ) (close : Bool) (p : Pool κ ι) : Pool κ ι × List ι × List ι :=
  let q := pruneEmpty { detachAll p.routes p with idle := 0, closing := p.closing || close }
  if q.closing then (pruneEmpty (flush q.waiters q), [], q.waiters.map (·.op))
  else
    let d := dispatch cfg now q
    (d.1, d.2, [])

/-! ### `acquire` -/

/-- The errors `acquire` returns. -/
inductive Error
  /-- `ECANCELED` -/
  | cancelled
  /-- `ETIMEDOUT` -/
  | timedOut
  /-- `ESHUTDOWN` -/
  | shutdown
  /-- `EAGAIN` -/
  | again
  /-- `ENOTSUP` -/
  | notSupported
  deriving DecidableEq, Repr

/-- What a turn of the loop of `acquire_owned` comes to. -/
inductive Turn
  | again
  | failed (e : Error)
  | granted
  | queued
  deriving DecidableEq, Repr

/-- The call of an operation, and whether it is made on a scheduler. -/
structure Call (κ : Type*) where
  key : κ
  scheduled : Bool
  deriving DecidableEq, Repr

/-- The operation is queued, unless the limits rule out that it is ever served or the queue is
full. -/
def enqueue (limits : Limits) (scheduled : Bool) (i : ι) (b : ℕ) (p : Pool κ ι) : Turn × Pool κ ι :=
  if limits.maxLivePerRoute = 0 ∨ limits.maxLiveTotal = 0 ∨
      (limits.maxDialsTotal = 0 ∧ (p.buckets b).idle = []) ∨
      limits.maxWaitersTotal ≤ p.waiters.length then
    (.failed .again, pruneEmpty p)
  else if ¬scheduled then (.failed .notSupported, pruneEmpty p)
  else
    (.queued, { p.modify b fun k => { k with waiting := k.waiting + 1 } with
      waiters := p.waiters ++ [⟨i, b⟩] })

/-- The bucket of the route is known, and the turn has retired `retired` connections so far. -/
def admission (limits : Limits) (scheduled : Bool) (i : ι) (b retired : ℕ) (p : Pool κ ι) :
    Turn × Pool κ ι :=
  if p.waiters = [] then
    let c := available limits b p
    if c.1 then (.granted, reserve b (.leased i) c.2.1)
    else if retired + c.2.2 ≠ 0 then (.again, c.2.1)
    else enqueue limits scheduled i b c.2.1
  else enqueue limits scheduled i b p

/-- A bucket with nothing but idle connections gives them up. -/
def evict (p : Pool κ ι) : Pool κ ι × ℕ :=
  match p.routes.find? fun r =>
      (p.buckets r.2).waiting = 0 ∧ (p.buckets r.2).live = (p.buckets r.2).idle.length with
  | some r =>
    let n := (p.buckets r.2).idle.length
    ({ p.detach r.2 n with idle := p.idle - n }, n)
  | none => (p, 0)

/-- `routes.emplace`: the new bucket, and the order in which the map is traversed afterwards. -/
def emplace (order : List (κ × ℕ)) (p : Pool κ ι) : Pool κ ι :=
  { p with
    routes := order
    buckets := Function.update p.buckets p.nextBucket .empty
    nextBucket := p.nextBucket + 1 }

variable [DecidableEq κ]

/-- One turn of the loop of `acquire_owned`.  There is none with an `order` that the map cannot
have. -/
def acquire (cfg : Config) (now : ℤ) (call : Call κ) (order : List (κ × ℕ)) (i : ι)
    (p : Pool κ ι) : Option (Turn × Pool κ ι) :=
  if p.closing then some (.failed .shutdown, p)
  else
    let c := expire cfg now p
    match c.1.routes.find? (·.1 = call.key) with
    | some r => some (admission cfg.limits call.scheduled i r.2 c.2 c.1)
    | none =>
      if cfg.limits.maxRouteBuckets = 0 then some (.failed .again, c.1)
      else if cfg.limits.maxRouteBuckets ≤ c.1.routes.length then
        -- the map keeps its size until the permits of what was retired are reset
        let d := evict c.1
        if c.2 + d.2 ≠ 0 then some (.again, d.1) else some (.failed .again, d.1)
      else if order.Perm ((call.key, c.1.nextBucket) :: c.1.routes) then
        some (admission cfg.limits call.scheduled i c.1.nextBucket c.2 (emplace order c.1))
      else none

/-! ### The transition system -/

/-- How an operation ends. -/
inductive Result
  | granted
  | failed (e : Error)
  /-- The wait has thrown, or the frame was destroyed. -/
  | abandoned
  deriving DecidableEq, Repr

/-- What the wait for `ready` returns. -/
inductive Outcome
  | completed
  | cancelled
  | timedOut
  | abandoned
  deriving DecidableEq, Repr

/-- Program locations of an operation. -/
inductive Pc
  | idle
  /-- About to enter a turn of the loop. -/
  | loop
  /-- Queued, and waiting for `ready`. -/
  | waiting
  /-- The wait has completed. -/
  | collect
  /-- About to enter `~departure`. -/
  | leave (r : Result)
  /-- `~departure` has recovered a grant. -/
  | recover (r : Result)
  | done (r : Result)
  deriving DecidableEq, Repr

/-- One operation and its waiter. -/
structure Op where
  pc : Pc
  error : Option Error
  notified : Bool
  ready : Bool
  outcome : Option Outcome
  deriving DecidableEq, Repr

def Op.fresh : Op := ⟨.idle, none, false, false, none⟩

/-- The pool and all operations on it. -/
structure State (κ ι : Type*) where
  pool : Pool κ ι
  ops : ι → Op
  /-- Operations in the order in which they were queued or served at once. -/
  arrived : List ι
  /-- Operations in the order in which they were served. -/
  granted : List ι

namespace State

/-- Replace the record of one operation. -/
def modify (s : State κ ι) (i : ι) (f : Op → Op) : State κ ι :=
  { s with ops := Function.update s.ops i (f (s.ops i)) }

/-- Move one operation to another location. -/
def goto (s : State κ ι) (i : ι) (pc : Pc) : State κ ι := s.modify i fun o => { o with pc := pc }

/-- The critical section ends with the pool `d.1`, and has served the operations `d.2`. -/
def settle (s : State κ ι) (d : Pool κ ι × List ι) : State κ ι :=
  { s with
    pool := d.1
    ops := fun i => if i ∈ d.2 then { s.ops i with notified := true } else s.ops i
    granted := s.granted ++ d.2 }

end State

/-- What happens next.  `now` is what the clock says in the critical section. -/
inductive Label (κ ι : Type*)
  /-- `acquire` is called; the token may be cancelled, or the deadline over, before anything else.
  -/
  | start (i : ι) (early : Option Outcome)
  /-- A turn of the loop of `acquire_owned`. -/
  | acquire (i : ι) (now : ℤ) (order : List (κ × ℕ))
  /-- `change::notify` comes to the waiter. -/
  | notify (i : ι)
  /-- The wait for `ready` returns. -/
  | wake (i : ι) (outcome : Outcome)
  /-- The critical section after a wait that has completed. -/
  | collect (i : ι)
  /-- `~departure`. -/
  | depart (i : ι) (now : ℤ)
  /-- The grant that `~departure` has recovered is reset. -/
  | recover (i : ι) (now : ℤ)
  /-- The connection of that grant is closed later. -/
  | retire (i : ι)
  | dialComplete (x : Permit ι) (now : ℤ)
  | retain (x : Permit ι) (lastUse now : ℤ)
  | reset (x : Permit ι) (now : ℤ)
  | clear (close : Bool) (now : ℤ)
  deriving DecidableEq, Repr

/-- The location after the wait for `ready`. -/
def Outcome.next : Outcome → Pc
  | .completed => .collect
  | .cancelled => .leave (.failed .cancelled)
  | .timedOut => .leave (.failed .timedOut)
  | .abandoned => .leave .abandoned

/-- The permit is with a caller. -/
def Place.isLeased : Place ι → Bool
  | .leased _ => true
  | _ => false

/-- A turn of the loop. -/
def acquireStep (cfg : Config) (calls : ι → Call κ) (s : State κ ι) (i : ι) (now : ℤ)
    (order : List (κ × ℕ)) : Option (State κ ι) :=
  (acquire cfg now (calls i) order i s.pool).map fun c =>
    match c with
    | (.again, p) => { s with pool := p }
    | (.failed e, p) => { s with pool := p }.goto i (.leave (.failed e))
    | (.granted, p) =>
      { s with pool := p, arrived := s.arrived ++ [i], granted := s.granted ++ [i] }.goto i
        (.leave .granted)
    | (.queued, p) => { s with pool := p, arrived := s.arrived ++ [i] }.goto i .waiting

/-- After a wait that has completed. -/
def collect (s : State κ ι) (i : ι) : Option (State κ ι) :=
  match (s.ops i).error with
  | some e => some (s.goto i (.leave (.failed e)))
  | none =>
    (s.pool.at? (.selected i)).map fun x =>
      { s with pool := s.pool.replace x { x with place := .leased i } }.goto i (.leave .granted)

/-- `~departure`. -/
def depart (cfg : Config) (s : State κ ι) (i : ι) (now : ℤ) (r : Result) : State κ ι :=
  let p := s.pool.unlink i
  match p.at? (.selected i) with
  | some x =>
    (s.settle (dispatch cfg now (p.replace x { x with place := .recovered i }))).goto i (.recover r)
  | none => (s.settle (dispatch cfg now p)).goto i (.done r)

def step (cfg : Config) (calls : ι → Call κ) (s : State κ ι) : Label κ ι → Option (State κ ι)
  | .start i early =>
    if (s.ops i).pc = .idle then
      match early with
      | none => some (s.goto i .loop)
      | some .cancelled => some (s.goto i (.done (.failed .cancelled)))
      | some .timedOut => some (s.goto i (.done (.failed .timedOut)))
      | some _ => none
    else none
  | .acquire i now order =>
    if (s.ops i).pc = .loop then acquireStep cfg calls s i now order else none
  | .notify i =>
    if (s.ops i).notified then some (s.modify i fun o => { o with ready := true }) else none
  | .wake i outcome =>
    if (s.ops i).pc = .waiting ∧ (outcome = .completed → (s.ops i).ready) then
      some (s.modify i fun o => { o with outcome := some outcome, pc := outcome.next })
    else none
  | .collect i => if (s.ops i).pc = .collect then collect s i else none
  | .depart i now =>
    match (s.ops i).pc with
    | .leave r => some (depart cfg s i now r)
    | _ => none
  | .recover i now =>
    match (s.ops i).pc, s.pool.at? (.recovered i) with
    | .recover r, some x => some ((s.settle (reset cfg now x s.pool)).goto i (.done r))
    | _, _ => none
  | .retire i =>
    match (s.ops i).pc, s.pool.at? (.recovered i) with
    | .recover r, some x =>
      some ({ s with pool := s.pool.replace x { x with place := .retired } }.goto i (.done r))
    | _, _ => none
  | .dialComplete x now =>
    if x ∈ s.pool.permits ∧ x.place.isLeased then some (s.settle (dialComplete cfg now x s.pool))
    else none
  | .retain x lastUse now =>
    if x ∈ s.pool.permits ∧ x.place.isLeased then
      some (s.settle (retain cfg lastUse now x s.pool))
    else none
  | .reset x now =>
    if x ∈ s.pool.permits ∧ (x.place.isLeased ∨ x.place = .retired) then
      some (s.settle (reset cfg now x s.pool))
    else none
  | .clear close now =>
    let c := clear cfg now close s.pool
    some { s.settle (c.1, c.2.1) with
      ops := fun i =>
        if i ∈ c.2.2 then { s.ops i with error := some .shutdown, notified := true }
        else (s.settle (c.1, c.2.1)).ops i }

/-- An empty pool. -/
def Pool.initial : Pool κ ι where
  routes := []
  buckets := fun _ => .empty
  nextBucket := 0
  waiters := []
  live := 0
  idle := 0
  dialing := 0
  closing := false
  permits := []

def State.initial : State κ ι := ⟨.initial, fun _ => .fresh, [], []⟩

/-- **The pool.** -/
def system (cfg : Config) (calls : ι → Call κ) : TransitionSystem (State κ ι) (Label κ ι) where
  init s := s = .initial
  step := step cfg calls

end Elio.BoundedPool
