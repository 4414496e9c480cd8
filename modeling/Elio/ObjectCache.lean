/-
**The object cache as a transition system.**

`sync/object_cache.hpp` keeps one object per key.  `get` finds the entry of its key and counts one
more borrow, or waits for the party that is constructing the object, or constructs it itself;
entries that are evicted, that have expired or whose construction failed leave the index, and the
next `get` makes a new one.  A borrow is dropped, or released: `borrow::release()` takes the entry
out of the index, waits until its own borrow is the last one, and moves the object out.

The parties are operations: one `get` together with whatever is done with the borrow it returns.  An
operation is used once, `ι` is any finite type of them, and each constructs at most one entry, so
the entry is named by the operation that constructs it.  One step is one access to an atomic, one
critical section of a shard, or one critical section of a waiter slot; the plain members next to it
go with it. The parties run while the cache is alive, so `internals_.lock()` succeeds.

`releasedBy` records which operation was the first to request the release of an entry, and
`obtained` whose object a release returned.  No step reads them.

Main definitions:

* `Config` — the shards, the durations, and what each operation asks for;
* `system` — the transition system.
-/

import Elio.TransitionSystem
import Elio.PartyTotal
import Elio.CompletionSlot
import Mathlib.Data.Int.Init

set_option autoImplicit false

namespace Elio.ObjectCache

/-- The configuration of the cache, and what each operation asks for.  Durations and times are in
nanoseconds. -/
structure Config (κ ι : Type*) where
  /-- `Hash{}(key) & shard_mask_`. -/
  shardFor : κ → ℕ
  reclaimDelay : ℤ
  defaultTtl : ℤ
  /-- The key an operation asks for. -/
  key : ι → κ
  /-- The time to live it gives to an entry it constructs. -/
  ttl : ι → ℤ

/-- `entry::state`. -/
inductive Status
  | constructing
  | ready
  | failed
  deriving DecidableEq, Repr

/-- `entry`.  Its key and its `ttl_` are those of the operation it is named by, and it is in the
reclaim list of its shard when that list contains it. -/
structure Entry (ι : Type*) where
  status : Status
  refcount : ℤ
  /-- `value_` is not null. -/
  value : Bool
  readyEvent : Bool
  forceEvict : Bool
  createdAt : ℤ
  releaseRequested : Bool
  releaseWaiter : CompletionSlot ι
  idleSince : ℤ
  /-- History: the operation that requested the release. -/
  releasedBy : Option ι
  deriving DecidableEq, Repr

/-- `std::make_shared<entry>()`. -/
def Entry.fresh {ι : Type*} (now : ℤ) : Entry ι where
  status := .constructing
  refcount := 0
  value := false
  readyEvent := false
  forceEvict := false
  createdAt := now
  releaseRequested := false
  releaseWaiter := .empty
  idleSince := 0
  releasedBy := none

/-- Program locations of an operation, with the entry it works on. -/
inductive Pc (ι : Type*)
  | idle
  /-- `get_impl`: the first critical section. -/
  | lookup
  /-- `get_impl`: `ready_event_.wait()`. -/
  | waitReady (e : ι)
  /-- `get_impl`: the load of `state_` after the wait. -/
  | readState (e : ι)
  /-- `get_impl`: the second critical section. -/
  | recheck (e : ι)
  /-- `get_impl`: the constructor runs. -/
  | construct (e : ι)
  /-- The object is there: `value_`, and `refcount_.fetch_add(1)`. -/
  | addRef (e : ι)
  /-- `state_.store(ready)`. -/
  | publish (e : ι)
  /-- `ready_event_.set()`. -/
  | signal (e : ι)
  /-- The constructor threw: `state_.store(failed)`. -/
  | failState (e : ι)
  /-- `ready_event_.set()` after a failure. -/
  | failSignal (e : ι)
  /-- The critical section after a failure. -/
  | failErase (e : ι)
  | holding (e : ι)
  /-- `mark_evict`: `force_evict_.exchange(true)`. -/
  | markEvict (e : ι)
  /-- `mark_evict`: `remove_from_index`. -/
  | evictIndex (e : ι)
  /-- `release`: `release_requested_.exchange(true)`. -/
  | request (e : ι)
  /-- `release`: `remove_from_index`. -/
  | unindex (e : ι)
  /-- `release`: the load of `refcount_`. -/
  | checkCount (e : ι)
  /-- `release_awaitable::await_ready`. -/
  | awaitReady (e : ι)
  /-- `release_awaitable::await_suspend`: `register_waiter`. -/
  | register (e : ι)
  | suspended (e : ι)
  /-- The destructor of `release_awaitable`: `remove`. -/
  | unregister (e : ι)
  /-- `release`: the object is moved out. -/
  | moveValue (e : ι)
  /-- `release`: `refcount_.fetch_sub(1)`. -/
  | decrement (e : ι)
  /-- `borrow::reset`: `refcount_.fetch_sub(1)`. -/
  | drop (e : ι)
  /-- `borrow::reset`: `release_waiter_.take()`. -/
  | take (e : ι)
  /-- `borrow::reset`: `wake.claim()`. -/
  | claim (e : ι) (lease : Option ℕ)
  /-- `borrow::reset`: `runtime::schedule_handle`. -/
  | schedule (w : ι)
  /-- `borrow::reset`: the load of `force_evict_`. -/
  | forceCheck (e : ι)
  /-- `borrow::reset`: `enqueue_for_reclaim`. -/
  | enqueue (e : ι)
  | done
  deriving DecidableEq, Repr

/-- One operation. -/
structure Op (ι : Type*) where
  pc : Pc ι
  /-- Its coroutine has been scheduled and may resume. -/
  scheduled : Bool
  /-- History: the entry whose object `release()` moved out. -/
  obtained : Option ι
  deriving DecidableEq, Repr

/-- Operations before their call. -/
def Op.fresh {ι : Type*} : Op ι where
  pc := .idle
  scheduled := false
  obtained := none

/-- The cache and all operations on it. -/
structure State (κ ι : Type*) where
  /-- The maps of all shards. -/
  index : κ → Option ι
  /-- The reclaim list of each shard, head first. -/
  reclaim : ℕ → List ι
  /-- `steady_now_ns()`. -/
  clock : ℤ
  entries : ι → Entry ι
  ops : ι → Op ι

variable {κ ι : Type*} [DecidableEq κ] [DecidableEq ι]

namespace State

/-- Replace the record of one operation. -/
@[simps entries index]
def modify (s : State κ ι) (i : ι) (f : Op ι → Op ι) : State κ ι :=
  { s with ops := Function.update s.ops i (f (s.ops i)) }

/-- Move one operation to another location. -/
def goto (s : State κ ι) (i : ι) (pc : Pc ι) : State κ ι :=
  s.modify i fun o => { o with pc := pc }

/-- Replace one entry. -/
@[simps ops index]
def modifyEntry (s : State κ ι) (e : ι) (f : Entry ι → Entry ι) : State κ ι :=
  { s with entries := Function.update s.entries e (f (s.entries e)) }

end State

variable (cfg : Config κ ι)

/-! ### The index and the reclaim lists -/

/-- `reclaim_unlink`. -/
@[simps ops entries]
def reclaimUnlink (s : State κ ι) (e : ι) : State κ ι :=
  { s with
    reclaim := fun n =>
      if n = cfg.shardFor (cfg.key e) then (s.reclaim n).erase e else s.reclaim n }

/-- `reclaim_push_back`. -/
def reclaimPushBack (s : State κ ι) (e : ι) : State κ ι :=
  { s with
    reclaim := fun n => if n = cfg.shardFor (cfg.key e) then s.reclaim n ++ [e] else s.reclaim n }

/-- Erase the key of an entry from the index, if it still maps to that entry. -/
@[simps ops entries]
def eraseIfIndexed (s : State κ ι) (e : ι) : State κ ι :=
  { s with
    index := fun k => if k = cfg.key e ∧ s.index k = some e then none else s.index k }

/-- `remove_from_index`. -/
def removeFromIndex (s : State κ ι) (e : ι) : State κ ι :=
  eraseIfIndexed cfg (reclaimUnlink cfg s e) e

/-- The time to live of an entry; none when it is not positive. -/
def entryTtl (e : ι) : ℤ := if 0 < cfg.ttl e then cfg.ttl e else cfg.defaultTtl

/-- `is_ttl_expired`, at the time `now`. -/
def isTtlExpired (s : State κ ι) (now : ℤ) (e : ι) : Bool :=
  0 < entryTtl cfg e ∧ entryTtl cfg e ≤ now - (s.entries e).createdAt

/-- `enqueue_for_reclaim`. -/
def enqueueForReclaim (s : State κ ι) (e : ι) : State κ ι :=
  if s.index (cfg.key e) ≠ some e then s
  else if 0 < (s.entries e).refcount then s
  else if e ∈ s.reclaim (cfg.shardFor (cfg.key e)) then s
  else if (s.entries e).forceEvict then s
  else
    reclaimPushBack cfg (s.modifyEntry e fun E => { E with idleSince := s.clock }) e

/-- The entry is evicted: it leaves the index and is not reclaimed. -/
def evictEntry (s : State κ ι) (e : ι) : State κ ι :=
  removeFromIndex cfg (s.modifyEntry e fun E => { E with forceEvict := true }) e

/-- `evict`. -/
def evict (s : State κ ι) (k : κ) : State κ ι :=
  match s.index k with
  | none => s
  | some e => evictEntry cfg s e

/-- `sweep_expired`, one entry of the reclaim list. -/
def sweepEntry (now : ℤ) (s : State κ ι) (cur : ι) : State κ ι :=
  if 0 < (s.entries cur).refcount then reclaimUnlink cfg s cur
  else if isTtlExpired cfg s now cur ∨ cfg.reclaimDelay ≤ now - (s.entries cur).idleSince then
    reclaimUnlink cfg (eraseIfIndexed cfg s cur) cur
  else s

/-- `sweep_expired`, the first critical section of a shard. -/
def sweepReclaim (s : State κ ι) (shard : ℕ) (now : ℤ) : State κ ι :=
  (s.reclaim shard).foldl (sweepEntry cfg now) s

/-- The second critical section of a shard evicts the entry. -/
def sweepsTtl (s : State κ ι) (shard : ℕ) (now : ℤ) (e : ι) : Bool :=
  cfg.shardFor (cfg.key e) = shard ∧ s.index (cfg.key e) = some e ∧
    (s.entries e).status = .ready ∧ isTtlExpired cfg s now e

/-- `sweep_expired`, the second critical section of a shard. -/
def sweepTtl (s : State κ ι) (shard : ℕ) (now : ℤ) : State κ ι :=
  { s with
    index := fun k =>
      match s.index k with
      | none => none
      | some e => if k = cfg.key e ∧ sweepsTtl cfg s shard now e then none else some e
    reclaim := fun n =>
      if n = shard then (s.reclaim n).filter fun e => !sweepsTtl cfg s shard now e else s.reclaim n
    entries := fun e =>
      if sweepsTtl cfg s shard now e then { s.entries e with forceEvict := true }
      else s.entries e }

/-! ### `get_impl` -/

/-- A new entry for the key, to be constructed by the operation. -/
def create (s : State κ ι) (i : ι) : State κ ι :=
  { s with index := fun k => if k = cfg.key i then some i else s.index k }.modifyEntry i
    (fun _ => .fresh s.clock) |>.goto i (.construct i)

/-- The entry is borrowed. -/
def borrow (s : State κ ι) (i e : ι) : State κ ι :=
  (reclaimUnlink cfg (s.modifyEntry e fun E => { E with refcount := E.refcount + 1 }) e).goto i
    (.holding e)

/-- The first critical section. -/
def lookup (s : State κ ι) (i : ι) : State κ ι :=
  match s.index (cfg.key i) with
  | none => create cfg s i
  | some e =>
    match (s.entries e).status with
    | .ready =>
      if isTtlExpired cfg s s.clock e then create cfg (evictEntry cfg s e) i
      else borrow cfg s i e
    | .failed => create cfg (eraseIfIndexed cfg s e) i
    | .constructing => s.goto i (.waitReady e)

/-- After the wait for another constructor: `get` throws when the construction failed. -/
def readState (s : State κ ι) (i e : ι) : State κ ι :=
  if (s.entries e).status = .ready then s.goto i (.recheck e) else s.goto i .done

/-- The second critical section: an entry that has left the index is not borrowed, and `get` starts
again. -/
def recheck (s : State κ ι) (i e : ι) : State κ ι :=
  if s.index (cfg.key i) = some e then borrow cfg s i e else s.goto i .lookup

/-- The object is constructed; the constructor's own borrow is counted before the entry is ready. -/
def addRef (s : State κ ι) (i e : ι) : State κ ι :=
  (s.modifyEntry e fun E => { E with value := true, refcount := E.refcount + 1 }).goto i
    (.publish e)

def publish (s : State κ ι) (i e : ι) : State κ ι :=
  (s.modifyEntry e fun E => { E with status := .ready }).goto i (.signal e)

def signal (s : State κ ι) (i e : ι) : State κ ι :=
  (s.modifyEntry e fun E => { E with readyEvent := true }).goto i (.holding e)

def failState (s : State κ ι) (i e : ι) : State κ ι :=
  (s.modifyEntry e fun E => { E with status := .failed }).goto i (.failSignal e)

def failSignal (s : State κ ι) (i e : ι) : State κ ι :=
  (s.modifyEntry e fun E => { E with readyEvent := true }).goto i (.failErase e)

def failErase (s : State κ ι) (i e : ι) : State κ ι := (eraseIfIndexed cfg s e).goto i .done

/-! ### `borrow` -/

/-- `mark_evict`: the flag; only the first to set it takes the entry out of the index. -/
def markEvict (s : State κ ι) (i e : ι) : State κ ι :=
  (s.modifyEntry e fun E => { E with forceEvict := true }).goto i
    (if (s.entries e).forceEvict then .holding e else .evictIndex e)

def evictIndex (s : State κ ι) (i e : ι) : State κ ι := (removeFromIndex cfg s e).goto i (.holding e)

/-- `release`: only the first request goes on; the others return null, and their borrow lives on. -/
def request (s : State κ ι) (i e : ι) : State κ ι :=
  if (s.entries e).releaseRequested then s.goto i (.holding e)
  else
    (s.modifyEntry e fun E => { E with releaseRequested := true, releasedBy := some i }).goto i
      (.unindex e)

def unindex (s : State κ ι) (i e : ι) : State κ ι := (removeFromIndex cfg s e).goto i (.checkCount e)

def checkCount (s : State κ ι) (i e : ι) : State κ ι :=
  s.goto i (if 1 < (s.entries e).refcount then .awaitReady e else .moveValue e)

def awaitReady (s : State κ ι) (i e : ι) : State κ ι :=
  s.goto i (if (s.entries e).refcount = 1 then .unregister e else .register e)

/-- `await_suspend`: registers unless the borrow has become the last one. -/
def register (s : State κ ι) (i e : ι) : State κ ι :=
  let r := (s.entries e).releaseWaiter.registerWaiter i ((s.entries e).refcount = 1)
  (s.modifyEntry e fun E => { E with releaseWaiter := r.1 }).goto i
    (if r.2 then .suspended e else .unregister e)

def unregister (s : State κ ι) (i e : ι) : State κ ι :=
  (s.modifyEntry e fun E => { E with releaseWaiter := E.releaseWaiter.remove i }).goto i
    (.moveValue e)

/-- `release`: the object is moved out of the entry. -/
def moveValue (s : State κ ι) (i e : ι) : State κ ι :=
  (s.modifyEntry e fun E => { E with value := false }).modify i fun o =>
    { o with pc := .decrement e, obtained := if (s.entries e).value then some e else none }

def decrement (s : State κ ι) (i e : ι) : State κ ι :=
  (s.modifyEntry e fun E => { E with refcount := E.refcount - 1 }).goto i .done

/-- `reset`: who leaves one borrow behind looks for a release that waits; who leaves none hands the
entry over for reclamation. -/
def drop (s : State κ ι) (i e : ι) : State κ ι :=
  (s.modifyEntry e fun E => { E with refcount := E.refcount - 1 }).goto i
    (if (s.entries e).refcount = 2 then .take e
    else if (s.entries e).refcount = 1 then .forceCheck e
    else .done)

def takeWaiter (s : State κ ι) (i e : ι) : State κ ι :=
  (s.modifyEntry e fun E => { E with releaseWaiter := E.releaseWaiter.take.1 }).goto i
    (.claim e (s.entries e).releaseWaiter.take.2)

/-- `if (waiter) runtime::schedule_handle(waiter)`. -/
def Pc.afterClaim {ι : Type*} : Option ι → Pc ι
  | none => .done
  | some w => .schedule w

/-- `wake.claim()`, of an empty lease or of one for a generation. -/
def claimWaiter (s : State κ ι) (i e : ι) (lease : Option ℕ) : State κ ι :=
  match lease with
  | none => s.goto i .done
  | some g =>
    (s.modifyEntry e fun E => { E with releaseWaiter := (E.releaseWaiter.claim g).1 }).goto i
      (.afterClaim ((s.entries e).releaseWaiter.claim g).2)

def scheduleHandle (s : State κ ι) (i w : ι) : State κ ι :=
  (s.modify w fun o => { o with scheduled := true }).goto i .done

def forceCheck (s : State κ ι) (i e : ι) : State κ ι :=
  s.goto i (if (s.entries e).forceEvict then .done else .enqueue e)

def enqueue (s : State κ ι) (i e : ι) : State κ ι := (enqueueForReclaim cfg s e).goto i .done

/-! ### The transition system -/

/-- What happens next. -/
inductive Label (κ ι : Type*)
  /-- The operation calls `get`. -/
  | get (i : ι)
  /-- The operation takes its next step. -/
  | act (i : ι)
  /-- The constructor of an operation returns an object, or throws. -/
  | constructed (i : ι) (ok : Bool)
  /-- A holder drops its borrow. -/
  | dropBorrow (i : ι)
  /-- A holder calls `release`. -/
  | release (i : ι)
  /-- A holder calls `mark_evict`. -/
  | markEvict (i : ι)
  | evict (k : κ)
  /-- One critical section of `sweep_expired`, for the time it read at its start. -/
  | sweepReclaim (shard : ℕ) (now : ℤ)
  | sweepTtl (shard : ℕ) (now : ℤ)
  /-- Time passes. -/
  | tick (d : ℕ)
  deriving DecidableEq, Repr

/-- The next step of an operation. -/
def act (s : State κ ι) (i : ι) : Option (State κ ι) :=
  match (s.ops i).pc with
  | .idle | .construct _ | .holding _ | .done => none
  | .lookup => some (lookup cfg s i)
  | .waitReady e => if (s.entries e).readyEvent then some (s.goto i (.readState e)) else none
  | .readState e => some (readState s i e)
  | .recheck e => some (recheck cfg s i e)
  | .addRef e => some (addRef s i e)
  | .publish e => some (publish s i e)
  | .signal e => some (signal s i e)
  | .failState e => some (failState s i e)
  | .failSignal e => some (failSignal s i e)
  | .failErase e => some (failErase cfg s i e)
  | .markEvict e => some (markEvict s i e)
  | .evictIndex e => some (evictIndex cfg s i e)
  | .request e => some (request s i e)
  | .unindex e => some (unindex cfg s i e)
  | .checkCount e => some (checkCount s i e)
  | .awaitReady e => some (awaitReady s i e)
  | .register e => some (register s i e)
  | .suspended e => if (s.ops i).scheduled then some (s.goto i (.unregister e)) else none
  | .unregister e => some (unregister s i e)
  | .moveValue e => some (moveValue s i e)
  | .decrement e => some (decrement s i e)
  | .drop e => some (drop s i e)
  | .take e => some (takeWaiter s i e)
  | .claim e lease => some (claimWaiter s i e lease)
  | .schedule w => some (scheduleHandle s i w)
  | .forceCheck e => some (forceCheck s i e)
  | .enqueue e => some (enqueue cfg s i e)

/-- A holder goes on to `pc`. -/
def leaveHolding (s : State κ ι) (i : ι) (next : ι → Pc ι) : Option (State κ ι) :=
  match (s.ops i).pc with
  | .holding e => some (s.goto i (next e))
  | _ => none

/-- The constructor of an operation ends. -/
def endConstruct (s : State κ ι) (i : ι) (ok : Bool) : Option (State κ ι) :=
  match (s.ops i).pc with
  | .construct e => some (s.goto i (if ok then .addRef e else .failState e))
  | _ => none

def step (s : State κ ι) : Label κ ι → Option (State κ ι)
  | .get i => if (s.ops i).pc = .idle then some (s.goto i .lookup) else none
  | .act i => act cfg s i
  | .constructed i ok => endConstruct s i ok
  | .dropBorrow i => leaveHolding s i .drop
  | .release i => leaveHolding s i .request
  | .markEvict i => leaveHolding s i .markEvict
  | .evict k => some (evict cfg s k)
  | .sweepReclaim shard now => if now ≤ s.clock then some (sweepReclaim cfg s shard now) else none
  | .sweepTtl shard now => if now ≤ s.clock then some (sweepTtl cfg s shard now) else none
  | .tick d => some { s with clock := s.clock + d }

/-- An empty cache and no calls yet. -/
def State.initial : State κ ι where
  index := fun _ => none
  reclaim := fun _ => []
  clock := 0
  entries := fun _ => .fresh 0
  ops := fun _ => .fresh

/-- **The object cache.** -/
def system (cfg : Config κ ι) : TransitionSystem (State κ ι) (Label κ ι) where
  init s := s = .initial
  step := step cfg

end Elio.ObjectCache
