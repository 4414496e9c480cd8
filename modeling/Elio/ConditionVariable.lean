/-
**The coroutine condition variable as a transition system.**

`sync/condition_variable.hpp` keeps the waiting operations in an intrusive list guarded by
`internal_mutex_`.  A wait enters the list while its wake state is `blocked`, then releases the lock
of the user, and only then becomes schedulable.  In that window a notification or a cancellation
completes the wait inline.  A notification takes waiters from the front of the list, passes over
those whose cancellation has won, and schedules what it has selected after `internal_mutex_` was
released.

The parties are operations: one call of a `wait`, of `notify_one()` or of `notify_all()`.  An
operation is used once, and `ι` is any finite type of them.  A wait is made with one of the mutexes
of `Elio.Mutex`, whose steps are steps of this system, with a lock of the user's own that keeps the
contract of the generic overloads, or with no lock.

`found` records the waiters that a notification finds when it enters `internal_mutex_`, and
`published` that a wait was put into the list.  No step reads them.

Main definitions:

* `notify` — one turn of the loops of `notify_one` and `notify_all`;
* `system` — the transition system.
-/

import Elio.Mutex
import Mathlib.Data.Fintype.Basic

set_option autoImplicit false

namespace Elio.ConditionVariable

open Function (update)

/-- The lock a wait is made with. -/
inductive Lock (κ μ : Type*)
  /-- The mutex `k`, which the caller holds through the operation `held`; `relock` is the operation
  that locks it again. -/
  | mutex (k : κ) (held relock : μ)
  /-- A lock with a synchronous `lock()`. -/
  | synchronous (k : κ)
  /-- `wait_unlocked`. -/
  | unlocked
  deriving DecidableEq, Repr

/-- The call an operation makes. -/
inductive Call (κ μ : Type*)
  | wait (lock : Lock κ μ) (cancellable : Bool)
  | notifyOne
  | notifyAll
  deriving DecidableEq, Repr

/-- `cancel_result`. -/
inductive CancelResult
  | completed
  | cancelled
  deriving DecidableEq, Repr

/-- Locations inside `internal_mutex_`. -/
inductive Cs
  /-- `prepare_blocked_wait`: `was_cancelled`. -/
  | check
  /-- `set_handle_blocked` and `push_back`. -/
  | publish
  /-- `finish_blocked_publication`: leave the list. -/
  | unlink
  /-- `finish_wait`: leave the list. -/
  | finish
  /-- The loop of `notify_one` or `notify_all`. -/
  | notify
  deriving DecidableEq, Repr

/-- Program locations of an operation. -/
inductive Pc (ι : Type*)
  | idle
  /-- `await_ready` of a cancellable wait. -/
  | ready
  /-- About to acquire `internal_mutex_`. -/
  | enter (c : Cs)
  | locked (c : Cs)
  /-- The lock of the user is released. -/
  | unlock
  /-- `unblock_after_publish`. -/
  | unblock
  | parked
  /-- `await_resume`. -/
  | resume
  /-- The lock of the user is taken again, before the wait returns. -/
  | relock (result : CancelResult)
  /-- `co_await m.lock()`. -/
  | relocking (result : CancelResult)
  /-- `schedule_wake_state`, for each that was selected. -/
  | schedule (selected : List ι)
  | done (result : CancelResult)
  deriving DecidableEq, Repr

/-- One operation: its awaiter and its wake state, or what a notification has selected. -/
structure Op (ι : Type*) where
  pc : Pc ι
  wake : WakeState
  suspended : Bool
  lockReleased : Bool
  selected : List ι
  /-- The waiters when the notification entered `internal_mutex_`. -/
  found : List ι
  /-- The wait was put into the list. -/
  published : Bool
  deriving DecidableEq, Repr

/-- The condition variable, all operations on it, and the locks of its users. -/
structure State (ι κ μ : Type*) where
  internalMutex : Option ι
  waiters : List ι
  ops : ι → Op ι
  mutexes : κ → Mutex.State μ
  /-- Who holds a lock of the user's own: a wait, or anybody else. -/
  locks : κ → Option (Option ι)

/-- Operations before their call. -/
def Op.fresh {ι : Type*} : Op ι where
  pc := .idle
  wake := .idle
  suspended := false
  lockReleased := false
  selected := []
  found := []
  published := false

variable {ι κ μ : Type*}

/-- The operation is a wait with a token. -/
def Call.cancellable : Call κ μ → Bool
  | .wait _ c => c
  | _ => false

variable [DecidableEq ι] [DecidableEq κ] [DecidableEq μ]

namespace State

/-- Replace the record of one operation. -/
def modify (s : State ι κ μ) (i : ι) (f : Op ι → Op ι) : State ι κ μ :=
  { s with ops := update s.ops i (f (s.ops i)) }

/-- Move one operation to another location. -/
def goto (s : State ι κ μ) (i : ι) (pc : Pc ι) : State ι κ μ :=
  s.modify i fun o => { o with pc := pc }

/-- Leave `internal_mutex_`. -/
def release (s : State ι κ μ) : State ι κ μ := { s with internalMutex := none }

end State

/-! ### Waits -/

/-- `await_ready` of a cancellable wait: one that is already cancelled does not suspend. -/
def ready (s : State ι κ μ) (i : ι) : State ι κ μ :=
  if (s.ops i).wake.wasCancelled then s.goto i .resume else s.goto i (.enter .check)

/-- `prepare_blocked_wait`: `was_cancelled`. -/
def check (s : State ι κ μ) (i : ι) : State ι κ μ :=
  if (s.ops i).wake.wasCancelled then s.release.goto i .resume else s.goto i (.locked .publish)

/-- The waiter is put into the list with the wake state `wake`, and goes on at `pc`. -/
def pushBack (s : State ι κ μ) (i : ι) (wake : WakeState) (pc : Pc ι) : State ι κ μ :=
  { s with waiters := s.waiters ++ [i] }.release.modify i fun o =>
    { o with wake := wake, suspended := true, published := true, pc := pc }

/-- The waiter is published.  A wait with a token may find that it was cancelled; one without a lock
and without a token can be resumed at once. -/
def publish (s : State ι κ μ) (i : ι) : Call κ μ → State ι κ μ
  | .wait lock true =>
    if (s.ops i).wake.setHandleBlocked.2 then
      pushBack s i (s.ops i).wake.setHandleBlocked.1
        (if lock = .unlocked then .unblock else .unlock)
    else s.release.goto i .resume
  | .wait .unlocked false => pushBack s i (s.ops i).wake.setHandle .parked
  | _ => pushBack s i (s.ops i).wake.setHandleBlocked.1 .unlock

/-- `unlock()` of the lock of the user.  That of a mutex has returned when its operation has
ended. -/
def unlock (s : State ι κ μ) (i : ι) : Call κ μ → Option (State ι κ μ)
  | .wait (.mutex k held _) _ =>
    if ((s.mutexes k).ops held).pc = .done .released then
      some (s.modify i fun o => { o with lockReleased := true, pc := .unblock })
    else none
  | .wait (.synchronous k) _ =>
    some ({ s with locks := update s.locks k none }.modify i fun o =>
      { o with lockReleased := true, pc := .unblock })
  | _ => none

/-- `unblock_after_publish`, called by `finish_blocked_publication` when there is a token. -/
def unblock (s : State ι κ μ) (i : ι) (cancellable : Bool) : State ι κ μ :=
  if (s.ops i).wake.unblockAfterPublish.2 then
    s.modify i fun o => { o with wake := o.wake.unblockAfterPublish.1, pc := .parked }
  else s.goto i (if cancellable then .enter .unlink else .resume)

/-- `finish_blocked_publication`, under `internal_mutex_`. -/
def unlink (s : State ι κ μ) (i : ι) : State ι κ μ :=
  { s with waiters := s.waiters.erase i }.release.modify i fun o =>
    { o with suspended := false, pc := .resume }

/-- `await_resume`, with `finish_wait` when there is a token. -/
def resume (s : State ι κ μ) (i : ι) (cancellable : Bool) : State ι κ μ :=
  if cancellable ∧ (s.ops i).wake.wasCancelled then
    if (s.ops i).suspended then s.goto i (.enter .finish)
    else s.goto i (.relock .cancelled)
  else s.modify i fun o => { o with suspended := false, pc := .relock .completed }

/-- `finish_wait`, under `internal_mutex_`. -/
def finish (s : State ι κ μ) (i : ι) : State ι κ μ :=
  { s with waiters := s.waiters.erase i }.release.modify i fun o =>
    { o with suspended := false, pc := .relock .cancelled }

/-- The wait takes its lock again, if it has released it. -/
def relock (s : State ι κ μ) (i : ι) (result : CancelResult) : Call κ μ → Option (State ι κ μ)
  | .wait (.mutex k _ relock) _ =>
    if (s.ops i).lockReleased then
      (Mutex.step (s.mutexes k) (.start relock .lock)).map fun m =>
        { s with mutexes := update s.mutexes k m }.goto i (.relocking result)
    else some (s.goto i (.done result))
  | .wait (.synchronous k) _ =>
    if (s.ops i).lockReleased then
      if s.locks k = none then
        some ({ s with locks := update s.locks k (some (some i)) }.goto i (.done result))
      else none
    else some (s.goto i (.done result))
  | _ => some (s.goto i (.done result))

/-- `co_await m.lock()` returns. -/
def relocking (s : State ι κ μ) (i : ι) (result : CancelResult) :
    Call κ μ → Option (State ι κ μ)
  | .wait (.mutex k _ relock) _ =>
    if ((s.mutexes k).ops relock).pc = .holding then some (s.goto i (.done result)) else none
  | _ => none

/-! ### Notifications -/

/-- The loop ends: what was selected is scheduled. -/
def endNotify (s : State ι κ μ) (i : ι) : State ι κ μ :=
  s.release.goto i (if (s.ops i).selected = [] then .done .completed
    else .schedule (s.ops i).selected)

/-- The waiter `w` at the front is selected: `claim_wake_state` when it has a token. -/
def select (calls : ι → Call κ μ) (s : State ι κ μ) (i w : ι) (rest : List ι) : State ι κ μ :=
  ({ s with waiters := rest }.modify w fun o =>
      { o with
        wake := if (calls w).cancellable then o.wake.claimNotification.1 else o.wake }).modify i
    fun o => { o with selected := o.selected ++ [w] }

/-- One turn of the loop of `notify_one` or `notify_all`. -/
def notify (calls : ι → Call κ μ) (s : State ι κ μ) (i : ι) : State ι κ μ :=
  match s.waiters with
  | [] => endNotify s i
  | w :: rest =>
    if (calls w).cancellable ∧ (s.ops w).wake.claimNotification.2 = .rejected then
      { s with waiters := rest }
    else if calls i = .notifyOne then endNotify (select calls s i w rest) i
    else select calls s i w rest

/-- `schedule_wake_state` of the next that was selected. -/
def schedule (s : State ι κ μ) (i : ι) : List ι → State ι κ μ
  | [] => s.goto i (.done .completed)
  | w :: rest =>
    (s.modify w fun o => { o with wake := o.wake.scheduleSelected.1 }).goto i
      (if rest = [] then .done .completed else .schedule rest)

/-! ### The transition system -/

/-- What happens next. -/
inductive Label (ι κ μ : Type*)
  /-- The operation makes its call. -/
  | start (i : ι)
  /-- The operation takes its next step. -/
  | act (i : ι)
  /-- The cancellation token fires: the compare-exchange of `request_cancel`. -/
  | cancel (i : ι)
  /-- `request_cancel` goes on to `schedule_claimed`. -/
  | scheduleCancel (i : ι)
  /-- A step of the mutex `k`. -/
  | mutex (k : κ) (l : Mutex.Label μ)
  /-- Somebody else takes the lock `k`. -/
  | lock (k : κ)
  /-- The lock `k` is released outside of a wait. -/
  | unlock (k : κ)
  deriving DecidableEq, Repr

/-- The operation has been called and has not ended. -/
def Op.active {ι : Type*} (o : Op ι) : Bool :=
  match o.pc with
  | .idle | .done _ => false
  | _ => true

/-- The call is made.  A wait is made with its lock held. -/
def start (calls : ι → Call κ μ) (s : State ι κ μ) (i : ι) : Option (State ι κ μ) :=
  match calls i with
  | .wait lock cancellable =>
    let s' := s.goto i (if cancellable then .ready else .enter .publish)
    match lock with
    | .mutex k held _ => if ((s.mutexes k).ops held).pc = .holding then some s' else none
    | .synchronous k =>
      match s.locks k with
      | none => none
      | some none => some { s' with locks := update s.locks k (some (some i)) }
      | some (some j) =>
        -- the wait before this one has returned with the lock
        if (s.ops j).active then none
        else some { s' with locks := update s.locks k (some (some i)) }
    | .unlocked => some s'
  | _ => some (s.goto i (.enter .notify))

/-- The code at a location inside `internal_mutex_`. -/
def actLocked (calls : ι → Call κ μ) (s : State ι κ μ) (i : ι) : Cs → State ι κ μ
  | .check => check s i
  | .publish => publish s i (calls i)
  | .unlink => unlink s i
  | .finish => finish s i
  | .notify => notify calls s i

/-- The next step of an operation. -/
def act (calls : ι → Call κ μ) (s : State ι κ μ) (i : ι) : Option (State ι κ μ) :=
  match (s.ops i).pc with
  | .idle | .done _ => none
  | .ready => some (ready s i)
  | .enter c =>
    if s.internalMutex = none then
      some ({ s with internalMutex := some i }.modify i fun o =>
        { o with pc := .locked c, found := if c = Cs.notify then s.waiters else o.found })
    else none
  | .locked c => some (actLocked calls s i c)
  | .unlock => unlock s i (calls i)
  | .unblock => some (unblock s i (calls i).cancellable)
  | .parked => if (s.ops i).wake.canResume then some (s.goto i .resume) else none
  | .resume => some (resume s i (calls i).cancellable)
  | .relock result => relock s i result (calls i)
  | .relocking result => relocking s i result (calls i)
  | .schedule ws => some (schedule s i ws)

variable [Fintype ι]

/-- The wait `i` was made with the mutex `k` held through `m`, and has not come to release it. -/
def keepsLock (calls : ι → Call κ μ) (s : State ι κ μ) (k : κ) (m : μ) (i : ι) : Bool :=
  match calls i with
  | .wait (.mutex k' held _) _ =>
    k' = k && held = m && (s.ops i).active && (s.ops i).pc ≠ .unlock && !(s.ops i).lockReleased
  | _ => false

/-- The holder of a mutex does not release it while it is in a wait that has not come to that. -/
def allowed (calls : ι → Call κ μ) (s : State ι κ μ) (k : κ) : Mutex.Label μ → Bool
  | .act m => ((s.mutexes k).ops m).pc ≠ .holding || decide (∀ i, keepsLock calls s k m i = false)
  | _ => true

def step (calls : ι → Call κ μ) (s : State ι κ μ) : Label ι κ μ → Option (State ι κ μ)
  | .start i => if (s.ops i).pc = .idle then start calls s i else none
  | .act i => act calls s i
  | .cancel i =>
    if (s.ops i).active ∧ (calls i).cancellable then
      some (s.modify i fun o => { o with wake := o.wake.requestCancel.1 })
    else none
  | .scheduleCancel i =>
    if (s.ops i).wake = .cancellationClaimed then
      some (s.modify i fun o => { o with wake := o.wake.scheduleClaimed.1 })
    else none
  | .mutex k l =>
    if allowed calls s k l then
      (Mutex.step (s.mutexes k) l).map fun m =>
        { s with mutexes := update s.mutexes k m }
    else none
  | .lock k =>
    if s.locks k = none then some { s with locks := update s.locks k (some none) }
    else none
  | .unlock k =>
    match s.locks k with
    | none => none
    | some none => some { s with locks := update s.locks k none }
    | some (some i) =>
      if (s.ops i).active then none else some { s with locks := update s.locks k none }

/-- No calls yet, and all locks free. -/
def State.initial : State ι κ μ where
  internalMutex := none
  waiters := []
  ops := fun _ => .fresh
  mutexes := fun _ => .initial
  locks := fun _ => none

/-- **The condition variable.** -/
def system (calls : ι → Call κ μ) : TransitionSystem (State ι κ μ) (Label ι κ μ) where
  init s := s = .initial
  step := step calls

end Elio.ConditionVariable
