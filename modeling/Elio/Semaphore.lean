/-
**The coroutine semaphore as a transition system.**

`sync/semaphore.hpp` keeps its permits in `count_` and the waiting operations in an intrusive list,
both guarded by `mutex_`.  A permit given to a queued waiter never passes through `count_`: the
waiter is marked `grant_pending` and resumes as its holder.  When the waiter turns out to be
cancelled, or its frame is destroyed before it resumes, `recover_cancelled_handoff_locked` passes
the permit to another waiter or puts it back.

The parties are operations: one call of `acquire()`, `acquire(token)`, `try_acquire()` or
`release(n)`.  An operation is used once and `ι` is any finite type of them.  `mutex_` is an
exclusive lock.  What runs under it is one step for each access to a wake state, which other
parties reach without the lock; `release(n)` takes one step for each waiter it looks at.

`count_` is an `int`.  It is an integer here: that it stays within the range of an `int` is the
caller's precondition (`semaphore::release`), and `Elio/SemaphoreInvariant.lean` derives the bound
from that precondition.  `initialCount` and `released` record the permits given to the constructor
and those given out by `release`; `granted` records that an operation was handed a permit.  No step
reads them.

Main definitions:

* `recoverCancelledHandoffLocked`, `release` — the two ways a permit leaves its holder;
* `system` — the transition system.
-/

import Elio.TransitionSystem
import Elio.PartyTotal
import Elio.WakeState
import Mathlib.Data.List.Nodup

set_option autoImplicit false

namespace Elio.Semaphore

/-- The call an operation makes. -/
inductive Call
  | acquire
  | acquireToken
  | tryAcquire
  | release (n : ℕ)
  deriving DecidableEq, Repr

/-- How an operation ended without a permit. -/
inductive Outcome
  /-- `acquire(token)` returned `cancelled`. -/
  | cancelled
  /-- `try_acquire()` returned `false`. -/
  | refused
  /-- The frame was destroyed while it was suspended. -/
  | destroyed
  /-- `release(n)` returned. -/
  | released
  deriving DecidableEq, Repr

/-- Locations inside `mutex_`. -/
inductive Cs (ι : Type*)
  /-- `try_acquire`. -/
  | tryAcquire
  /-- `await_ready_impl` of a cancellable wait: select completion, then debit. -/
  | readyClaim
  /-- `await_suspend_non_cancellable_impl`: debit, else enqueue. -/
  | suspend
  /-- `await_suspend_cancellable_impl`: `was_cancelled`. -/
  | check
  /-- The debit. -/
  | acquire
  /-- A permit was debited: `claim_wake_state`. -/
  | claim
  /-- There is no permit: `set_handle_blocked` and `push_back`. -/
  | publish
  /-- `unblock_after_publish`. -/
  | unblock
  /-- `recover_cancelled_handoff_locked`, called on the way to `out`. -/
  | recover (out : Outcome)
  /-- The loop of `release`. -/
  | release (remaining : ℕ) (toSchedule : List ι)
  /-- `await_resume_impl` after a cancellation: leave the queue. -/
  | unlink
  /-- `~acquire_waiter`. -/
  | destroy
  deriving DecidableEq, Repr

/-- Program locations of an operation. -/
inductive Pc (ι : Type*)
  | idle
  /-- `await_ready_impl` of a cancellable wait: `was_cancelled`. -/
  | readyCheck
  /-- About to acquire `mutex_`. -/
  | enter (c : Cs ι)
  | locked (c : Cs ι)
  | parked
  /-- `schedule_wake_states`, after `mutex_` was released. -/
  | schedule (toSchedule : List ι) (out : Outcome)
  /-- The acquisition completed: its caller has a permit. -/
  | holding
  | done (out : Outcome)
  deriving DecidableEq, Repr

/-- One operation: its awaiter and its wake state. -/
structure Op (ι : Type*) where
  call : Call
  pc : Pc ι
  wake : WakeState
  suspended : Bool
  resumed : Bool
  grantPending : Bool
  /-- History: a permit was handed to this operation. -/
  granted : Bool
  deriving DecidableEq, Repr

/-- The semaphore and all operations on it. -/
structure State (ι : Type*) where
  count : ℤ
  mutex : Option ι
  waiters : List ι
  ops : ι → Op ι
  /-- The permits the semaphore was made with. -/
  initialCount : ℕ
  /-- History: the permits `release` has given out. -/
  released : ℕ

/-- Operations before their call. -/
def Op.fresh {ι : Type*} : Op ι where
  call := .tryAcquire
  pc := .idle
  wake := .idle
  suspended := false
  resumed := false
  grantPending := false
  granted := false

/-- The wait takes part in cancellation. -/
def Op.cancellable {ι : Type*} (o : Op ι) : Bool := o.call = .acquireToken

variable {ι : Type*} [DecidableEq ι]

namespace State

/-- Replace the record of one operation. -/
@[simps count mutex waiters initialCount released]
def modify (s : State ι) (i : ι) (f : Op ι → Op ι) : State ι :=
  { s with ops := Function.update s.ops i (f (s.ops i)) }

/-- Move one operation to another location. -/
def goto (s : State ι) (i : ι) (pc : Pc ι) : State ι := s.modify i fun o => { o with pc := pc }

/-- Leave `mutex_`. -/
@[simps -fullyApplied]
def unlock (s : State ι) : State ι := { s with mutex := none }

end State

/-! ### The functions of the source -/

/-- `await_resume_impl`, up to the removal of a cancelled waiter from the queue. -/
def Op.awaitResume {ι : Type*} (o : Op ι) : Op ι :=
  if o.cancellable ∧ o.wake.wasCancelled then
    { o with pc := if o.suspended then .enter .unlink else .done .cancelled }
  else
    { o with resumed := true, grantPending := false, suspended := false, pc := .holding }

def awaitResume (s : State ι) (i : ι) : State ι := s.modify i Op.awaitResume

/-- The first location of a call. -/
def Call.entry {ι : Type*} : Call → Pc ι
  | .acquire | .tryAcquire => .enter .tryAcquire
  | .acquireToken => .readyCheck
  | .release n => .enter (.release n [])

/-- The call is made. -/
def start (s : State ι) (i : ι) (c : Call) : State ι :=
  s.modify i fun o => { o with call := c, pc := c.entry }

/-- `await_ready_impl` of a cancellable wait: a wait that is already cancelled completes. -/
def readyCheck (s : State ι) (i : ι) : State ι :=
  if (s.ops i).wake.wasCancelled then awaitResume s i else s.goto i (.enter .readyClaim)

/-- `try_acquire`, called by the user or by `await_ready_impl`. -/
def tryAcquire (s : State ι) (i : ι) : State ι :=
  if 0 < s.count then awaitResume { s with count := s.count - 1 }.unlock i
  else
    match (s.ops i).call with
    | .acquire => s.unlock.goto i (.enter .suspend)
    | _ => s.unlock.goto i (.done .refused)

/-- `await_ready_impl` of a cancellable wait: completion is selected before the permit is
debited. -/
def readyClaim (s : State ι) (i : ι) : State ι :=
  if s.count = 0 then s.unlock.goto i (.enter .check)
  else if (s.ops i).wake.claimNotification.2 = .rejected then awaitResume s.unlock i
  else
    awaitResume ({ s with count := s.count - 1 }.unlock.modify i fun o =>
      { o with wake := o.wake.claimNotification.1 }) i

/-- `await_suspend_non_cancellable_impl` under `mutex_`. -/
def suspend (s : State ι) (i : ι) : State ι :=
  if 0 < s.count then awaitResume { s with count := s.count - 1 }.unlock i
  else
    { s with waiters := s.waiters ++ [i] }.unlock.modify i fun o =>
      { o with wake := o.wake.setHandle, suspended := true, pc := .parked }

/-- `await_suspend_cancellable_impl`: `was_cancelled`. -/
def check (s : State ι) (i : ι) : State ι :=
  if (s.ops i).wake.wasCancelled then awaitResume s.unlock i else s.goto i (.locked .acquire)

/-- `await_suspend_cancellable_impl`: the debit. -/
def acquire (s : State ι) (i : ι) : State ι :=
  if 0 < s.count then { s with count := s.count - 1 }.goto i (.locked .claim)
  else s.goto i (.locked .publish)

/-- `await_suspend_cancellable_impl`: the wait selects its own completion. -/
def claim (s : State ι) (i : ι) : State ι :=
  if (s.ops i).wake.claimNotification.2 ≠ .rejected then
    awaitResume (s.unlock.modify i fun o => { o with wake := o.wake.claimNotification.1 }) i
  else
    s.goto i (.locked (.recover .cancelled))

/-- `await_suspend_cancellable_impl`: publish the waiter. -/
def publish (s : State ι) (i : ι) : State ι :=
  if (s.ops i).wake.setHandleBlocked.2 then
    { s with waiters := s.waiters ++ [i] }.modify i fun o =>
      { o with wake := o.wake.setHandleBlocked.1, suspended := true, pc := .locked .unblock }
  else
    awaitResume s.unlock i

/-- `await_suspend_cancellable_impl`: close the publication window. -/
def unblock (s : State ι) (i : ι) : State ι :=
  if (s.ops i).wake.unblockAfterPublish.2 then
    s.unlock.modify i fun o => { o with wake := o.wake.unblockAfterPublish.1, pc := .parked }
  else
    awaitResume ({ s with waiters := s.waiters.erase i }.unlock.modify i fun o =>
      { o with suspended := false }) i

/-- `claim_waiter_locked` passes over the waiter: its cancellation won. -/
def Op.rejects {ι : Type*} (o : Op ι) : Bool :=
  o.cancellable ∧ o.wake.claimNotification.2 = .rejected

/-- `claim_waiter_locked` reserves a permit for the waiter.  Only a cancellable waiter is claimed:
the others stay `waiting` until they are scheduled. -/
def Op.grant {ι : Type*} (o : Op ι) : Op ι :=
  { o with
    wake := if o.cancellable then o.wake.claimNotification.1 else o.wake
    grantPending := true
    granted := true }

/-- One turn of `recover_cancelled_handoff_locked`: the loop of `claim_waiter_locked` looks at the
head of the queue; with nobody left the permit returns to `count_`. -/
def recoverCancelledHandoffLocked (s : State ι) (i : ι) (out : Outcome) : State ι :=
  match s.waiters with
  | [] => { s with count := s.count + 1 }.unlock.goto i (.schedule [] out)
  | w :: rest =>
    if (s.ops w).rejects then { s with waiters := rest }
    else ({ s with waiters := rest }.unlock.modify w Op.grant).goto i (.schedule [w] out)

/-- One turn of the loop of `release`, or its end. -/
def release (s : State ι) (i : ι) (remaining : ℕ) (toSchedule : List ι) : State ι :=
  match remaining, s.waiters with
  | remaining + 1, w :: rest =>
    if (s.ops w).rejects then { s with waiters := rest }
    else
      ({ s with waiters := rest, released := s.released + 1 }.modify w Op.grant).goto i
        (.locked (.release remaining (toSchedule ++ [w])))
  | remaining, _ =>
    { s with count := s.count + remaining, released := s.released + remaining }.unlock.goto i
      (.schedule toSchedule .released)

/-- `schedule_wake_states`, one state at a time. -/
def scheduleWakeStates (s : State ι) (i : ι) (out : Outcome) : List ι → State ι
  | [] => s.goto i (.done out)
  | w :: rest =>
    (s.modify w fun o => { o with wake := o.wake.scheduleSelected.1 }).goto i (.schedule rest out)

/-- `await_resume_impl` after a cancellation, under `mutex_`. -/
def unlink (s : State ι) (i : ι) : State ι :=
  { s with waiters := s.waiters.erase i }.unlock.modify i fun o =>
    { o with suspended := false, pc := .done .cancelled }

/-- `~acquire_waiter` under `mutex_`. -/
def destroy (s : State ι) (i : ι) : State ι :=
  if i ∈ s.waiters then
    { s with waiters := s.waiters.erase i }.unlock.modify i fun o =>
      { o with wake := o.wake.abandon, pc := .done .destroyed }
  else if (s.ops i).grantPending ∧ ¬(s.ops i).resumed then
    s.modify i fun o =>
      { o with wake := o.wake.abandon, grantPending := false, pc := .locked (.recover .destroyed) }
  else
    s.unlock.modify i fun o => { o with wake := o.wake.abandon, pc := .done .destroyed }

/-! ### The transition system -/

/-- What happens next. -/
inductive Label (ι : Type*)
  /-- The operation makes its call. -/
  | start (i : ι) (c : Call)
  /-- The operation takes its next step; a parked operation resumes. -/
  | act (i : ι)
  /-- The cancellation token fires: the compare-exchange of `request_cancel`. -/
  | cancel (i : ι)
  /-- `request_cancel` goes on to `schedule_claimed`. -/
  | scheduleCancel (i : ι)
  /-- The frame of a suspended operation is destroyed. -/
  | destroy (i : ι)
  deriving DecidableEq, Repr

/-- The code at a location inside `mutex_`. -/
def actLocked (s : State ι) (i : ι) : Cs ι → State ι
  | .tryAcquire => tryAcquire s i
  | .readyClaim => readyClaim s i
  | .suspend => suspend s i
  | .check => check s i
  | .acquire => acquire s i
  | .claim => claim s i
  | .publish => publish s i
  | .unblock => unblock s i
  | .recover out => recoverCancelledHandoffLocked s i out
  | .release remaining toSchedule => release s i remaining toSchedule
  | .unlink => unlink s i
  | .destroy => destroy s i

/-- The next step of an operation. -/
def act (s : State ι) (i : ι) : Option (State ι) :=
  match (s.ops i).pc with
  | .idle | .holding | .done _ => none
  | .readyCheck => some (readyCheck s i)
  | .enter c =>
    if s.mutex = none then some ({ s with mutex := some i }.goto i (.locked c)) else none
  | .locked c => some (actLocked s i c)
  | .parked => if (s.ops i).wake.canResume then some (awaitResume s i) else none
  | .schedule toSchedule out => some (scheduleWakeStates s i out toSchedule)

/-- The operation has been called and has not ended. -/
def Op.active {ι : Type*} (o : Op ι) : Bool :=
  match o.pc with
  | .idle | .holding | .done _ => false
  | _ => true

def step (s : State ι) : Label ι → Option (State ι)
  | .start i c => if (s.ops i).pc = .idle then some (start s i c) else none
  | .act i => act s i
  | .cancel i =>
    if (s.ops i).active ∧ (s.ops i).cancellable then
      some (s.modify i fun o => { o with wake := o.wake.requestCancel.1 })
    else none
  | .scheduleCancel i =>
    if (s.ops i).wake = .cancellationClaimed then
      some (s.modify i fun o => { o with wake := o.wake.scheduleClaimed.1 })
    else none
  | .destroy i => if (s.ops i).pc = .parked then some (s.goto i (.enter .destroy)) else none

/-- A semaphore made with `n` permits, and no calls yet. -/
def State.initial (n : ℕ) : State ι where
  count := n
  mutex := none
  waiters := []
  ops := fun _ => .fresh
  initialCount := n
  released := 0

/-- `INT_MAX`. -/
def intMax : ℤ := 2 ^ 31 - 1

/-- **The semaphore.**  The constructor takes a non-negative `int`. -/
def system (ι : Type*) [DecidableEq ι] : TransitionSystem (State ι) (Label ι) where
  init s := ∃ n : ℕ, n ≤ intMax ∧ s = .initial n
  step := step

end Elio.Semaphore
