/-
**The coroutine mutex as a transition system.**

`sync/mutex.hpp` keeps the lock in one atomic word, `state_`, and the waiting operations in an
intrusive list guarded by `internal_mutex_`.  Ownership is handed directly to a queued waiter: the
waiter does not compete for the word when it resumes.  A hand-off can meet a cancellation or the
destruction of the waiter's frame, and `recover_cancelled_handoff_locked` then passes the lock on.

The parties of the system are operations: one call of `lock()`, `lock(token)` or `try_lock()`
together with the `unlock()` that ends it.  An operation is used once, and `ι` is any finite type of
them, so every run of any number of coroutines is a run of this system.  Every access to `state_`
and to the wake state of another operation is a step of its own, and `internal_mutex_` is an
exclusive lock: what runs under it is a `Cs` location, held by the party named in `internalMutex`.

`enqueued` and `grants` record the order in which operations entered the queue and the order in
which the lock was handed to them.  No step reads them.

Main definitions:

* `recoverCancelledHandoffLocked` — the hand-off;
* `system` — the transition system.
-/

import Elio.TransitionSystem
import Elio.PartyTotal
import Elio.WakeState
import Mathlib.Data.List.Nodup

set_option autoImplicit false

namespace Elio.Mutex

/-- The call an operation makes. -/
inductive Call
  | lock
  | lockToken
  | tryLock
  deriving DecidableEq, Repr

/-- How an operation ended. -/
inductive Outcome
  /-- It acquired the mutex and unlocked it. -/
  | released
  /-- `lock(token)` returned `cancelled`. -/
  | cancelled
  /-- `try_lock()` returned `false`. -/
  | refused
  /-- The frame was destroyed while it was suspended. -/
  | destroyed
  deriving DecidableEq, Repr

/-- Locations inside `internal_mutex_`. -/
inductive Cs
  /-- `await_suspend_non_cancellable_impl`: the second compare-exchange, else enqueue. -/
  | suspend
  /-- `await_suspend_cancellable_impl`: `was_cancelled`. -/
  | check
  /-- The compare-exchange on `state_`. -/
  | acquire
  /-- The word was taken: `claim_wake_state`. -/
  | claim
  /-- The word is held: `set_handle_blocked` and `push_back`. -/
  | publish
  /-- `unblock_after_publish`. -/
  | unblock
  /-- The loop of `recover_cancelled_handoff_locked`, called on the way to `out`. -/
  | recover (out : Outcome)
  /-- `await_resume_impl` after a cancellation: leave the queue. -/
  | unlink
  /-- `~lock_waiter`. -/
  | destroy
  deriving DecidableEq, Repr

/-- Program locations of an operation. -/
inductive Pc (ι : Type*)
  | idle
  /-- `await_ready_impl` of a cancellable wait: `was_cancelled`. -/
  | readyCheck
  /-- `try_lock`. -/
  | ready
  /-- `await_ready_impl` of a cancellable wait after `try_lock`: `claim_wake_state`. -/
  | readyClaim
  /-- `await_suspend_non_cancellable_impl` before its allocation: the first compare-exchange. -/
  | retry
  /-- About to acquire `internal_mutex_`. -/
  | enter (c : Cs)
  | locked (c : Cs)
  | parked
  /-- `schedule_wake_state` of the operation `w`, after `internal_mutex_` was released. -/
  | schedule (w : ι) (out : Outcome)
  | holding
  | done (out : Outcome)
  deriving DecidableEq, Repr

/-- The values of `state_`. -/
inductive Word (ι : Type*)
  | null
  | one
  | awaiter (i : ι)
  deriving DecidableEq, Repr

/-- One operation: its awaiter and its wake state. -/
structure Op (ι : Type*) where
  call : Call
  pc : Pc ι
  wake : WakeState
  suspended : Bool
  resumed : Bool
  grantPending : Bool
  deriving DecidableEq, Repr

/-- The mutex and all operations on it. -/
structure State (ι : Type*) where
  word : Word ι
  internalMutex : Option ι
  waiters : List ι
  ops : ι → Op ι
  /-- History of `push_back`, oldest first. -/
  enqueued : List ι
  /-- History of hand-offs, oldest first. -/
  grants : List ι

/-- Operations before their call. -/
def Op.fresh {ι : Type*} : Op ι where
  call := .tryLock
  pc := .idle
  wake := .idle
  suspended := false
  resumed := false
  grantPending := false

/-- The wait takes part in cancellation. -/
def Op.cancellable {ι : Type*} (o : Op ι) : Bool := o.call = .lockToken

variable {ι : Type*} [DecidableEq ι]

namespace State

/-- Replace the record of one operation. -/
@[simps word internalMutex waiters enqueued grants]
def modify (s : State ι) (i : ι) (f : Op ι → Op ι) : State ι :=
  { s with ops := Function.update s.ops i (f (s.ops i)) }

/-- Move one operation to another location. -/
def goto (s : State ι) (i : ι) (pc : Pc ι) : State ι := s.modify i fun o => { o with pc := pc }

/-- Leave `internal_mutex_`. -/
@[simps -fullyApplied]
def release (s : State ι) : State ι := { s with internalMutex := none }

end State

/-! ### The functions of the source -/

/-- `await_resume_impl`, up to the removal of a cancelled waiter from the queue. -/
def Op.awaitResume {ι : Type*} (o : Op ι) : Op ι :=
  if o.cancellable ∧ o.wake.wasCancelled then
    { o with pc := if o.suspended then .enter .unlink else .done .cancelled }
  else
    { o with resumed := true, grantPending := false, suspended := false, pc := .holding }

def awaitResume (s : State ι) (i : ι) : State ι := s.modify i Op.awaitResume

/-- The call is made. -/
def start (s : State ι) (i : ι) (c : Call) : State ι :=
  s.modify i fun o => { o with call := c, pc := if c = .lockToken then .readyCheck else .ready }

/-- `await_ready_impl` of a cancellable wait: a wait that is already cancelled completes. -/
def readyCheck (s : State ι) (i : ι) : State ι :=
  if (s.ops i).wake.wasCancelled then awaitResume s i else s.goto i .ready

/-- `try_lock`, called by the user or by `await_ready_impl`. -/
def tryLock (s : State ι) (i : ι) : State ι :=
  if s.word = .null then
    let s := { s with word := .one }
    match (s.ops i).call with
    | .lock => awaitResume s i
    | .lockToken => s.goto i .readyClaim
    | .tryLock => s.goto i .holding
  else
    match (s.ops i).call with
    | .lock => s.goto i .retry
    | .lockToken => s.goto i (.enter .check)
    | .tryLock => s.goto i (.done .refused)

/-- `await_ready_impl` of a cancellable wait after `try_lock` succeeded. -/
def readyClaim (s : State ι) (i : ι) : State ι :=
  if (s.ops i).wake.claimNotification.2 ≠ .rejected then
    awaitResume (s.modify i fun o => { o with wake := o.wake.claimNotification.1 }) i
  else
    s.goto i (.enter (.recover .cancelled))

/-- `await_suspend_non_cancellable_impl` before its allocation. -/
def retry (s : State ι) (i : ι) : State ι :=
  if s.word = .null then awaitResume { s with word := .awaiter i } i
  else s.goto i (.enter .suspend)

/-- `await_suspend_non_cancellable_impl` under `internal_mutex_`. -/
def suspend (s : State ι) (i : ι) : State ι :=
  if s.word = .null then awaitResume { s with word := .awaiter i }.release i
  else
    { s with waiters := s.waiters ++ [i], enqueued := s.enqueued ++ [i] }.release.modify i fun o =>
      { o with wake := o.wake.setHandle, suspended := true, pc := .parked }

/-- `await_suspend_cancellable_impl`: `was_cancelled`. -/
def check (s : State ι) (i : ι) : State ι :=
  if (s.ops i).wake.wasCancelled then awaitResume s.release i else s.goto i (.locked .acquire)

/-- `await_suspend_cancellable_impl`: the compare-exchange. -/
def acquire (s : State ι) (i : ι) : State ι :=
  if s.word = .null then { s with word := .awaiter i }.goto i (.locked .claim)
  else s.goto i (.locked .publish)

/-- `await_suspend_cancellable_impl`: the wait selects its own completion. -/
def claim (s : State ι) (i : ι) : State ι :=
  if (s.ops i).wake.claimNotification.2 ≠ .rejected then
    awaitResume (s.release.modify i fun o => { o with wake := o.wake.claimNotification.1 }) i
  else
    s.goto i (.locked (.recover .cancelled))

/-- `await_suspend_cancellable_impl`: publish the waiter. -/
def publish (s : State ι) (i : ι) : State ι :=
  if (s.ops i).wake.setHandleBlocked.2 then
    { s with waiters := s.waiters ++ [i], enqueued := s.enqueued ++ [i] }.modify i fun o =>
      { o with wake := o.wake.setHandleBlocked.1, suspended := true, pc := .locked .unblock }
  else
    awaitResume s.release i

/-- `await_suspend_cancellable_impl`: close the publication window. -/
def unblock (s : State ι) (i : ι) : State ι :=
  if (s.ops i).wake.unblockAfterPublish.2 then
    s.release.modify i fun o => { o with wake := o.wake.unblockAfterPublish.1, pc := .parked }
  else
    awaitResume ({ s with waiters := s.waiters.erase i }.release.modify i fun o =>
      { o with suspended := false }) i

/-- The lock is reserved for the waiter.  Only a cancellable waiter is claimed: the others stay
`waiting` until they are scheduled. -/
def Op.grant {ι : Type*} (o : Op ι) : Op ι :=
  { o with
    wake := if o.cancellable then o.wake.claimNotification.1 else o.wake
    grantPending := true }

/-- The live waiter `w` at the head of the queue receives the lock, which stays taken. -/
def handOff (s : State ι) (i w : ι) (rest : List ι) (out : Outcome) : State ι :=
  ({ s with waiters := rest, word := .one, grants := s.grants ++ [w] }.release.modify w
    Op.grant).goto i (.schedule w out)

/-- One turn of the loop of `recover_cancelled_handoff_locked`.  A waiter whose cancellation won is
dropped; the next live one receives the lock; with none left the lock becomes free. -/
def recoverCancelledHandoffLocked (s : State ι) (i : ι) (out : Outcome) : State ι :=
  match s.waiters with
  | [] => { s with word := .null }.release.goto i (.done out)
  | w :: rest =>
    if (s.ops w).cancellable ∧ (s.ops w).wake.claimNotification.2 = .rejected then
      { s with waiters := rest }
    else
      handOff s i w rest out

/-- `schedule_wake_state` after `internal_mutex_` was released. -/
def scheduleWakeState (s : State ι) (i w : ι) (out : Outcome) : State ι :=
  (s.modify w fun o => { o with wake := o.wake.scheduleSelected.1 }).goto i (.done out)

/-- `await_resume_impl` after a cancellation, under `internal_mutex_`. -/
def unlink (s : State ι) (i : ι) : State ι :=
  { s with waiters := s.waiters.erase i }.release.modify i fun o =>
    { o with suspended := false, pc := .done .cancelled }

/-- `~lock_waiter` under `internal_mutex_`. -/
def destroy (s : State ι) (i : ι) : State ι :=
  if i ∈ s.waiters then
    { s with waiters := s.waiters.erase i }.release.modify i fun o =>
      { o with wake := o.wake.abandon, pc := .done .destroyed }
  else if (s.ops i).grantPending ∧ ¬(s.ops i).resumed then
    s.modify i fun o =>
      { o with wake := o.wake.abandon, grantPending := false, pc := .locked (.recover .destroyed) }
  else
    s.release.modify i fun o => { o with wake := o.wake.abandon, pc := .done .destroyed }

/-! ### The transition system -/

/-- What happens next. -/
inductive Label (ι : Type*)
  /-- The operation makes its call. -/
  | start (i : ι) (c : Call)
  /-- The operation takes its next step; a holder calls `unlock()`, a parked operation resumes. -/
  | act (i : ι)
  /-- The cancellation token fires: the compare-exchange of `request_cancel`. -/
  | cancel (i : ι)
  /-- `request_cancel` goes on to `schedule_claimed`. -/
  | scheduleCancel (i : ι)
  /-- The frame of a suspended operation is destroyed. -/
  | destroy (i : ι)
  deriving DecidableEq, Repr

/-- The code at a location inside `internal_mutex_`. -/
def actLocked (s : State ι) (i : ι) : Cs → State ι
  | .suspend => suspend s i
  | .check => check s i
  | .acquire => acquire s i
  | .claim => claim s i
  | .publish => publish s i
  | .unblock => unblock s i
  | .recover out => recoverCancelledHandoffLocked s i out
  | .unlink => unlink s i
  | .destroy => destroy s i

/-- The next step of an operation. -/
def act (s : State ι) (i : ι) : Option (State ι) :=
  match (s.ops i).pc with
  | .idle | .done _ => none
  | .readyCheck => some (readyCheck s i)
  | .ready => some (tryLock s i)
  | .readyClaim => some (readyClaim s i)
  | .retry => some (retry s i)
  | .enter c =>
    if s.internalMutex = none then some ({ s with internalMutex := some i }.goto i (.locked c))
    else none
  | .locked c => some (actLocked s i c)
  | .parked => if (s.ops i).wake.canResume then some (awaitResume s i) else none
  | .schedule w out => some (scheduleWakeState s i w out)
  | .holding => some (s.goto i (.enter (.recover .released)))

/-- The operation has been called and has not ended. -/
def Op.active {ι : Type*} (o : Op ι) : Bool :=
  match o.pc with
  | .idle | .done _ => false
  | _ => true

def step (s : State ι) : Label ι → Option (State ι)
  | .start i c => if (s.ops i).pc = .idle then some (start s i c) else none
  | .act i => act s i
  | .cancel i =>
    if (s.ops i).active ∧ (s.ops i).cancellable then
      some (s.modify i fun o => { o with wake := o.wake.requestCancel.1 })
    else none
  | .scheduleCancel i =>
    if (s.ops i).wake = .cancellationClaimed then
      some (s.modify i fun o => { o with wake := o.wake.scheduleClaimed.1 })
    else none
  | .destroy i => if (s.ops i).pc = .parked then some (s.goto i (.enter .destroy)) else none

/-- An unlocked mutex and no calls yet. -/
def State.initial : State ι where
  word := .null
  internalMutex := none
  waiters := []
  ops := fun _ => .fresh
  enqueued := []
  grants := []

/-- **The mutex.** -/
def system (ι : Type*) [DecidableEq ι] : TransitionSystem (State ι) (Label ι) where
  init s := s = .initial
  step := step

end Elio.Mutex
