/-
**The coroutine shared mutex as a transition system.**

`sync/shared_mutex.hpp` is a reader–writer lock.  Readers enter and leave by atomic updates of the
packed word `state_`, and `try_lock()` takes the free word by one compare-exchange; none of them
holds `internal_mutex_`.  Everything else happens under it: queueing readers and writers, handing
the lock over in `unlock()` and by the last reader in `unlock_shared()`, clearing the writer
preference after the last queued writer has gone (`finish_writer_removal_locked`), and letting
further readers in (`wake_additional_readers`).

The parties are operations: one acquisition, by any of the six calls, together with the release that
ends it.  An operation is used once, and `ι` is any finite type of them.  A step makes at most one
access to `state_`, so every access of another party can fall between two of them: a load, a
compare-exchange (a failed one reads the new value), a store, a `fetch_or`, a `fetch_and` or a
`fetch_sub`.  A spurious failure of `compare_exchange_weak` repeats the step and is not modelled.
What is guarded by `internal_mutex_` alone is merged with the access next to it.

`handed` records that a hand-off to the operation has taken effect in `state_`.  No step reads it.

Main definitions:

* `finishLoad`, `finishClaim`, `finishCas` — the steps of `finish_writer_removal_locked`;
* `system` — the transition system.
-/

import Elio.TransitionSystem
import Elio.PartyTotal
import Elio.SharedMutexWord
import Elio.WakeState
import Mathlib.Data.List.Nodup

set_option autoImplicit false

namespace Elio.SharedMutex

/-- The call an operation makes. -/
inductive Call
  | lock
  | lockToken
  | tryLock
  | lockShared
  | lockSharedToken
  | tryLockShared
  deriving DecidableEq, Repr

/-- How an operation ended. -/
inductive Outcome
  /-- It acquired the lock and released it. -/
  | released
  /-- The call with a token returned `cancelled`. -/
  | cancelled
  /-- `try_lock()` or `try_lock_shared()` returned `false`. -/
  | refused
  deriving DecidableEq, Repr

/-- Locations inside `internal_mutex_`. -/
inductive Cs (ι : Type*)
  /-- `lock_shared_waiter::await_suspend_mode_impl`: `was_cancelled`. -/
  | sharedCheck
  /-- The second look at `state_`. -/
  | sharedLoad
  /-- The one compare-exchange under the lock. -/
  | sharedCas (v : BitVec 64)
  /-- The reader is counted: `claim_wake_state`. -/
  | sharedClaim
  /-- The reader enters the queue. -/
  | sharedPush
  /-- `unblock_after_publish`. -/
  | sharedUnblock
  /-- `lock_shared_waiter::await_resume_impl` after a cancellation. -/
  | sharedUnlink
  /-- `lock_waiter::await_suspend_impl`: `was_cancelled`. -/
  | lockCheck
  /-- The first compare-exchange. -/
  | lockCas
  /-- `fetch_or(WRITER_WAITING)`. -/
  | lockOr
  /-- The second compare-exchange, else the writer enters the queue. -/
  | lockRetry
  /-- The word is taken: `claim_wake_state`. -/
  | lockClaim
  /-- `unblock_after_publish`. -/
  | lockUnblock
  /-- `lock_waiter::await_resume_impl` after a cancellation. -/
  | lockUnlink
  /-- `unlock_shared` of the last reader: the load. -/
  | lastReader (out : Outcome)
  /-- `unlock_shared` of the last reader: `claim_writer_locked` and the store. -/
  | lastReaderClaim (out : Outcome)
  /-- `unlock`: `claim_writer_locked` and the store. -/
  | unlockWriters (out : Outcome)
  /-- `unlock`: `claim_reader_locked` and the store. -/
  | unlockReaders (out : Outcome)
  /-- `finish_writer_removal_locked`: the load. -/
  | finishLoad (out : Outcome)
  /-- `finish_writer_removal_locked`: `fetch_and(~WRITER_WAITING)`. -/
  | finishAnd (out : Outcome)
  /-- `finish_writer_removal_locked`: `claim_reader_locked`, after the load read `v`. -/
  | finishClaim (v : BitVec 64) (out : Outcome)
  /-- `finish_writer_removal_locked`: the compare-exchange loop, for the claimed reader. -/
  | finishCas (reader : Option ι) (v : BitVec 64) (out : Outcome)
  /-- `wake_additional_readers`: the load. -/
  | wake (out : Outcome)
  /-- `wake_additional_readers`: the compare-exchange loop. -/
  | wakeCas (v : BitVec 64) (out : Outcome)
  /-- `wake_additional_readers`: `claim_reader_locked` for the reserved slot. -/
  | wakeClaim (out : Outcome)
  deriving DecidableEq, Repr

/-- Program locations of an operation. -/
inductive Pc (ι : Type*)
  | idle
  /-- `await_ready_impl` of a cancellable wait: `was_cancelled`. -/
  | readyCheck
  /-- `try_lock`. -/
  | tryLock
  /-- `try_lock_shared`: the load. -/
  | tryLockShared
  /-- `try_lock_shared`: the compare-exchange loop. -/
  | tryLockSharedCas (v : BitVec 64)
  /-- A cancellable wait acquired without the lock: `claim_wake_state`. -/
  | claim
  /-- A cancellable wait goes on to suspend: `set_handle_blocked`. -/
  | publish
  /-- `lock_shared_waiter::await_suspend_mode_impl`: the load of its fast path. -/
  | suspendLoad
  /-- The compare-exchange loop of its fast path. -/
  | suspendCas (v : BitVec 64)
  /-- About to acquire `internal_mutex_`. -/
  | enter (c : Cs ι)
  | locked (c : Cs ι)
  | parked
  | holding
  /-- `unlock_shared`: the `fetch_sub`. -/
  | unlockShared (out : Outcome)
  /-- `schedule_wake_state` of the operation `w`, after `internal_mutex_` was released, and
  `wake_additional_readers` next when `more` is set. -/
  | schedule (w : ι) (more : Bool) (out : Outcome)
  | done (out : Outcome)
  deriving DecidableEq, Repr

/-- One operation: its awaiter and its wake state. -/
structure Op (ι : Type*) where
  call : Call
  pc : Pc ι
  wake : WakeState
  suspended : Bool
  resumed : Bool
  grantPending : Bool
  /-- History: a hand-off to this operation has taken effect in `state_`. -/
  handed : Bool
  deriving DecidableEq, Repr

/-- The shared mutex and all operations on it. -/
structure State (ι : Type*) where
  state : BitVec 64
  internalMutex : Option ι
  pendingWriters : ℕ
  readerWaiters : List ι
  writerWaiters : List ι
  ops : ι → Op ι

/-- Operations before their call. -/
def Op.fresh {ι : Type*} : Op ι where
  call := .tryLock
  pc := .idle
  wake := .idle
  suspended := false
  resumed := false
  grantPending := false
  handed := false

/-- A call for the shared lock. -/
def Call.isShared : Call → Bool
  | .lock | .lockToken | .tryLock => false
  | .lockShared | .lockSharedToken | .tryLockShared => true

/-- The wait takes part in cancellation. -/
def Op.cancellable {ι : Type*} (o : Op ι) : Bool :=
  o.call = .lockToken ∨ o.call = .lockSharedToken

variable {ι : Type*} [DecidableEq ι]

namespace State

/-- Replace the record of one operation. -/
@[simps state internalMutex pendingWriters readerWaiters writerWaiters]
def modify (s : State ι) (i : ι) (f : Op ι → Op ι) : State ι :=
  { s with ops := Function.update s.ops i (f (s.ops i)) }

/-- Move one operation to another location. -/
def goto (s : State ι) (i : ι) (pc : Pc ι) : State ι := s.modify i fun o => { o with pc := pc }

/-- Leave `internal_mutex_`. -/
@[simps -fullyApplied]
def release (s : State ι) : State ι := { s with internalMutex := none }

end State

/-! ### Acquiring -/

/-- `await_resume_impl`, up to the removal of a cancelled waiter from its queue. -/
def Op.awaitResume {ι : Type*} (o : Op ι) : Op ι :=
  if o.cancellable ∧ o.wake.wasCancelled then
    { o with
      pc :=
        if o.suspended then .enter (if o.call.isShared then .sharedUnlink else .lockUnlink)
        else .done .cancelled }
  else
    { o with resumed := true, grantPending := false, suspended := false, pc := .holding }

def awaitResume (s : State ι) (i : ι) : State ι := s.modify i Op.awaitResume

/-- The first location of a call. -/
def Call.entry {ι : Type*} : Call → Pc ι
  | .lock | .tryLock => .tryLock
  | .lockShared | .tryLockShared => .tryLockShared
  | .lockToken | .lockSharedToken => .readyCheck

/-- The call is made. -/
def start (s : State ι) (i : ι) (c : Call) : State ι :=
  s.modify i fun o => { o with call := c, pc := c.entry }

/-- `await_ready_impl` of a cancellable wait: a wait that is already cancelled completes. -/
def readyCheck (s : State ι) (i : ι) : State ι :=
  if (s.ops i).wake.wasCancelled then awaitResume s i
  else s.goto i (if (s.ops i).call.isShared then .tryLockShared else .tryLock)

/-- Where a call goes on when it could not acquire at once. -/
def Call.refused {ι : Type*} : Call → Pc ι
  | .tryLock | .tryLockShared => .done .refused
  | .lock => .enter .lockCas
  | .lockShared => .suspendLoad
  | .lockToken | .lockSharedToken => .publish

/-- A lock-free acquisition succeeded: a cancellable wait still has to select its completion. -/
def acquired (s : State ι) (i : ι) : State ι :=
  if (s.ops i).cancellable then s.goto i .claim else awaitResume s i

/-- `try_lock`, called by the user or by `await_ready_impl`. -/
def tryLock (s : State ι) (i : ι) : State ι :=
  if s.state = 0#64 then acquired { s with state := writerActive } i
  else s.goto i (s.ops i).call.refused

/-- `try_lock_shared`: the load and the tests on the value read. -/
def tryLockShared (s : State ι) (i : ι) : State ι :=
  if admits s.state then s.goto i (.tryLockSharedCas s.state)
  else s.goto i (s.ops i).call.refused

/-- `try_lock_shared`: the compare-exchange; a failed one reads the word again. -/
def tryLockSharedCas (s : State ι) (i : ι) (v : BitVec 64) : State ι :=
  if s.state = v then acquired { s with state := v + 1#64 } i else tryLockShared s i

/-- Give back what a cancelled wait acquired. -/
def Op.giveBack {ι : Type*} (o : Op ι) : Pc ι :=
  if o.call.isShared then .unlockShared .cancelled else .enter (.unlockWriters .cancelled)

/-- A cancellable wait acquired: it completes, or cancellation won. -/
def claim (s : State ι) (i : ι) : State ι :=
  if (s.ops i).wake.claimNotification.2 ≠ .rejected then
    awaitResume (s.modify i fun o => { o with wake := o.wake.claimNotification.1 }) i
  else
    s.goto i (s.ops i).giveBack

/-- `await_suspend_mode_impl<true>` and `await_suspend_impl` of a cancellable wait: `was_cancelled`
or a failed `set_handle_blocked` end it. -/
def publish (s : State ι) (i : ι) : State ι :=
  if (s.ops i).wake.setHandleBlocked.2 then
    s.modify i fun o =>
      { o with
        wake := o.wake.setHandleBlocked.1
        pc := if o.call.isShared then .suspendLoad else .enter .lockCheck }
  else
    awaitResume s i

/-! ### `lock_shared_waiter::await_suspend_mode_impl` -/

/-- The fast path: the load and the tests on the value read. -/
def suspendLoad (s : State ι) (i : ι) : State ι :=
  if admits s.state then s.goto i (.suspendCas s.state)
  else s.goto i (.enter (if (s.ops i).cancellable then .sharedCheck else .sharedLoad))

/-- The fast path: the compare-exchange. -/
def suspendCas (s : State ι) (i : ι) (v : BitVec 64) : State ι :=
  if s.state = v then acquired { s with state := v + 1#64 } i else suspendLoad s i

/-- The slow path of a cancellable wait: `was_cancelled`. -/
def sharedCheck (s : State ι) (i : ι) : State ι :=
  if (s.ops i).wake.wasCancelled then awaitResume s.release i
  else s.goto i (.locked .sharedLoad)

/-- The slow path: the load under the lock. -/
def sharedLoad (s : State ι) (i : ι) : State ι :=
  if admits s.state then s.goto i (.locked (.sharedCas s.state))
  else s.goto i (.locked .sharedPush)

/-- The slow path: one compare-exchange.  When it fails and the new value still admits a reader, the
operation retries without the lock. -/
def sharedCas (s : State ι) (i : ι) (v : BitVec 64) : State ι :=
  if s.state = v then
    if (s.ops i).cancellable then { s with state := v + 1#64 }.goto i (.locked .sharedClaim)
    else awaitResume { s with state := v + 1#64 }.release i
  else if admits s.state then s.release.goto i .suspendLoad
  else s.goto i (.locked .sharedPush)

/-- The slow path: the wait selects its own completion. -/
def sharedClaim (s : State ι) (i : ι) : State ι := claim s.release i

/-- The slow path: the reader enters the queue. -/
def sharedPush (s : State ι) (i : ι) : State ι :=
  if (s.ops i).cancellable then
    { s with readerWaiters := s.readerWaiters ++ [i] }.modify i fun o =>
      { o with suspended := true, pc := .locked .sharedUnblock }
  else
    { s with readerWaiters := s.readerWaiters ++ [i] }.release.modify i fun o =>
      { o with wake := o.wake.setHandle, suspended := true, pc := .parked }

/-- The slow path: close the publication window. -/
def sharedUnblock (s : State ι) (i : ι) : State ι :=
  if (s.ops i).wake.unblockAfterPublish.2 then
    s.release.modify i fun o => { o with wake := o.wake.unblockAfterPublish.1, pc := .parked }
  else
    awaitResume ({ s with readerWaiters := s.readerWaiters.erase i }.release.modify i fun o =>
      { o with suspended := false }) i

/-- `await_resume_impl` after a cancellation, under the lock. -/
def sharedUnlink (s : State ι) (i : ι) : State ι :=
  { s with readerWaiters := s.readerWaiters.erase i }.release.modify i fun o =>
    { o with suspended := false, pc := .done .cancelled }

/-! ### `lock_waiter::await_suspend_impl` -/

/-- A cancellable wait: `was_cancelled`. -/
def lockCheck (s : State ι) (i : ι) : State ι :=
  if (s.ops i).wake.wasCancelled then awaitResume s.release i else s.goto i (.locked .lockCas)

/-- The word was taken under the lock. -/
def lockAcquired (s : State ι) (i : ι) : State ι :=
  if (s.ops i).cancellable then s.goto i (.locked .lockClaim) else awaitResume s.release i

/-- The first compare-exchange. -/
def lockCas (s : State ι) (i : ι) : State ι :=
  if s.state = 0#64 then lockAcquired { s with state := writerActive } i
  else s.goto i (.locked .lockOr)

/-- Publish the writer preference. -/
def lockOr (s : State ι) (i : ι) : State ι :=
  { s with state := s.state ||| writerWaiting }.goto i (.locked .lockRetry)

/-- `WRITER_ACTIVE`, with `WRITER_WAITING` when writers are pending. -/
def activeWord (pendingWriters : ℕ) : BitVec 64 :=
  if 0 < pendingWriters then writerActive ||| writerWaiting else writerActive

/-- The writer enters the queue. -/
def lockPush (s : State ι) (i : ι) : State ι :=
  { s with pendingWriters := s.pendingWriters + 1, writerWaiters := s.writerWaiters ++ [i] }

/-- The second compare-exchange; when it fails, the writer enters the queue. -/
def lockRetry (s : State ι) (i : ι) : State ι :=
  if s.state = writerWaiting then lockAcquired { s with state := activeWord s.pendingWriters } i
  else if (s.ops i).cancellable then
    (lockPush s i).modify i fun o => { o with suspended := true, pc := .locked .lockUnblock }
  else
    (lockPush s i).release.modify i fun o =>
      { o with wake := o.wake.setHandle, suspended := true, pc := .parked }

/-- The wait selects its own completion. -/
def lockClaim (s : State ι) (i : ι) : State ι := claim s.release i

/-- Close the publication window. -/
def lockUnblock (s : State ι) (i : ι) : State ι :=
  if (s.ops i).wake.unblockAfterPublish.2 then
    s.release.modify i fun o => { o with wake := o.wake.unblockAfterPublish.1, pc := .parked }
  else
    { s with
      writerWaiters := s.writerWaiters.erase i
      pendingWriters := s.pendingWriters - 1 }.modify i fun o =>
        { o with suspended := false, pc := .locked (.finishLoad .cancelled) }

/-- `await_resume_impl` after a cancellation, under the lock. -/
def lockUnlink (s : State ι) (i : ι) : State ι :=
  if i ∈ s.writerWaiters then
    { s with
      writerWaiters := s.writerWaiters.erase i
      pendingWriters := s.pendingWriters - 1 }.modify i fun o =>
        { o with suspended := false, pc := .locked (.finishLoad .cancelled) }
  else
    s.release.modify i fun o => { o with suspended := false, pc := .done .cancelled }

/-! ### Handing over -/

/-- `claim_reader_locked` and `claim_writer_locked` pass over the waiter: its cancellation won. -/
def Op.rejects {ι : Type*} (o : Op ι) : Bool :=
  o.cancellable ∧ o.wake.claimNotification.2 = .rejected

/-- The waiter is selected.  Only a cancellable waiter is claimed: the others stay `waiting` until
they are scheduled. -/
def Op.grant {ι : Type*} (o : Op ι) : Op ι :=
  { o with
    wake := if o.cancellable then o.wake.claimNotification.1 else o.wake
    grantPending := true }

/-- The waiter is selected and `state_` names it an owner. -/
def Op.handOver {ι : Type*} (o : Op ι) : Op ι := { o.grant with handed := true }

/-- One turn of `claim_writer_locked`; a selected writer becomes the owner.  With no writer left the
operation goes on at `next`. -/
def claimWriter (s : State ι) (i : ι) (out : Outcome) (next : Cs ι) : State ι :=
  match s.writerWaiters with
  | [] => s.goto i (.locked next)
  | w :: rest =>
    if (s.ops w).rejects then
      { s with writerWaiters := rest, pendingWriters := s.pendingWriters - 1 }
    else
      ({ s with
          writerWaiters := rest
          pendingWriters := s.pendingWriters - 1
          state := activeWord (s.pendingWriters - 1) }.release.modify w Op.handOver).goto i
        (.schedule w false out)

/-- `unlock`, when no writer is left: one turn of `claim_reader_locked`, and the store. -/
def unlockReaders (s : State ι) (i : ι) (out : Outcome) : State ι :=
  match s.readerWaiters with
  | [] => { s with state := 0#64 }.release.goto i (.done out)
  | r :: rest =>
    if (s.ops r).rejects then { s with readerWaiters := rest }
    else
      ({ s with readerWaiters := rest, state := 1#64 }.release.modify r Op.handOver).goto i
        (.schedule r (!rest.isEmpty) out)

/-- `unlock_shared`: the decrement, and the decision that nothing else is left to do. -/
def unlockShared (s : State ι) (i : ι) (out : Outcome) : State ι :=
  { s with state := s.state - 1#64 }.goto i
    (if s.state &&& readerMask ≠ 1#64 ∨ s.state &&& writerWaiting = 0#64 then .done out
    else .enter (.lastReader out))

/-- `unlock_shared` of the last reader: the second look under the lock. -/
def lastReader (s : State ι) (i : ι) (out : Outcome) : State ι :=
  if s.state &&& (readerMask ||| writerActive) = 0#64 then s.goto i (.locked (.lastReaderClaim out))
  else s.release.goto i (.done out)

/-- `finish_writer_removal_locked`: the load and the decisions on the value read. -/
def finishLoad (s : State ι) (i : ι) (out : Outcome) : State ι :=
  if s.pendingWriters ≠ 0 then s.release.goto i (.done out)
  else if s.state &&& writerActive ≠ 0#64 then s.goto i (.locked (.finishAnd out))
  else s.goto i (.locked (.finishClaim s.state out))

/-- `finish_writer_removal_locked`: a writer is active. -/
def finishAnd (s : State ι) (i : ι) (out : Outcome) : State ι :=
  { s with state := s.state &&& ~~~writerWaiting }.release.goto i (.done out)

/-- `finish_writer_removal_locked`: one turn of `claim_reader_locked`.  A selected reader is not yet
counted in `state_`. -/
def finishClaim (s : State ι) (i : ι) (v : BitVec 64) (out : Outcome) : State ι :=
  match s.readerWaiters with
  | [] => s.goto i (.locked (.finishCas none v out))
  | r :: rest =>
    if (s.ops r).rejects then { s with readerWaiters := rest }
    else
      ({ s with readerWaiters := rest }.modify r Op.grant).goto i
        (.locked (.finishCas (some r) v out))

/-- `finish_writer_removal_locked`: the compare-exchange, repeated with the value it read. -/
def finishCas (s : State ι) (i : ι) (reader : Option ι) (v : BitVec 64) (out : Outcome) : State ι :=
  if s.state = v then
    match reader with
    | none => { s with state := v &&& ~~~writerWaiting }.release.goto i (.done out)
    | some r =>
      ({ s with state := (v &&& ~~~writerWaiting) + 1#64 }.release.modify r fun o =>
        { o with handed := true }).goto i (.schedule r (!s.readerWaiters.isEmpty) out)
  else s.goto i (.locked (.finishCas reader s.state out))

/-- `wake_additional_readers`: the tests under the lock, the load, and the tests on the value
read. -/
def wake (s : State ι) (i : ι) (out : Outcome) : State ι :=
  if s.pendingWriters ≠ 0 ∨ s.readerWaiters = [] then s.release.goto i (.done out)
  else if admits s.state then s.goto i (.locked (.wakeCas s.state out))
  else s.release.goto i (.done out)

/-- `wake_additional_readers`: the compare-exchange reserves a slot. -/
def wakeCas (s : State ι) (i : ι) (v : BitVec 64) (out : Outcome) : State ι :=
  if s.state = v then { s with state := v + 1#64 }.goto i (.locked (.wakeClaim out))
  else if admits s.state then s.goto i (.locked (.wakeCas s.state out))
  else s.release.goto i (.done out)

/-- `wake_additional_readers`: one turn of `claim_reader_locked`; with nobody left the slot is given
back. -/
def wakeClaim (s : State ι) (i : ι) (out : Outcome) : State ι :=
  match s.readerWaiters with
  | [] => { s with state := s.state - 1#64 }.release.goto i (.done out)
  | r :: rest =>
    if (s.ops r).rejects then { s with readerWaiters := rest }
    else
      ({ s with readerWaiters := rest }.release.modify r Op.handOver).goto i
        (.schedule r true out)

/-- `schedule_wake_state` after `internal_mutex_` was released. -/
def scheduleWakeState (s : State ι) (i w : ι) (more : Bool) (out : Outcome) : State ι :=
  (s.modify w fun o => { o with wake := o.wake.scheduleSelected.1 }).goto i
    (if more then .enter (.wake out) else .done out)

/-! ### The transition system -/

/-- What happens next. -/
inductive Label (ι : Type*)
  /-- The operation makes its call. -/
  | start (i : ι) (c : Call)
  /-- The operation takes its next step; a holder releases, a parked operation resumes. -/
  | act (i : ι)
  /-- The cancellation token fires: the compare-exchange of `request_cancel`. -/
  | cancel (i : ι)
  /-- `request_cancel` goes on to `schedule_claimed`. -/
  | scheduleCancel (i : ι)
  deriving DecidableEq, Repr

/-- The code at a location inside `internal_mutex_`. -/
def actLocked (s : State ι) (i : ι) : Cs ι → State ι
  | .sharedCheck => sharedCheck s i
  | .sharedLoad => sharedLoad s i
  | .sharedCas v => sharedCas s i v
  | .sharedClaim => sharedClaim s i
  | .sharedPush => sharedPush s i
  | .sharedUnblock => sharedUnblock s i
  | .sharedUnlink => sharedUnlink s i
  | .lockCheck => lockCheck s i
  | .lockCas => lockCas s i
  | .lockOr => lockOr s i
  | .lockRetry => lockRetry s i
  | .lockClaim => lockClaim s i
  | .lockUnblock => lockUnblock s i
  | .lockUnlink => lockUnlink s i
  | .lastReader out => lastReader s i out
  | .lastReaderClaim out => claimWriter s i out (.finishLoad out)
  | .unlockWriters out => claimWriter s i out (.unlockReaders out)
  | .unlockReaders out => unlockReaders s i out
  | .finishLoad out => finishLoad s i out
  | .finishAnd out => finishAnd s i out
  | .finishClaim v out => finishClaim s i v out
  | .finishCas reader v out => finishCas s i reader v out
  | .wake out => wake s i out
  | .wakeCas v out => wakeCas s i v out
  | .wakeClaim out => wakeClaim s i out

/-- The next step of an operation. -/
def act (s : State ι) (i : ι) : Option (State ι) :=
  match (s.ops i).pc with
  | .idle | .done _ => none
  | .readyCheck => some (readyCheck s i)
  | .tryLock => some (tryLock s i)
  | .tryLockShared => some (tryLockShared s i)
  | .tryLockSharedCas v => some (tryLockSharedCas s i v)
  | .claim => some (claim s i)
  | .publish => some (publish s i)
  | .suspendLoad => some (suspendLoad s i)
  | .suspendCas v => some (suspendCas s i v)
  | .enter c =>
    if s.internalMutex = none then some ({ s with internalMutex := some i }.goto i (.locked c))
    else none
  | .locked c => some (actLocked s i c)
  | .parked => if (s.ops i).wake.canResume then some (awaitResume s i) else none
  | .holding =>
    some (s.goto i
      (if (s.ops i).call.isShared then .unlockShared .released
      else .enter (.unlockWriters .released)))
  | .unlockShared out => some (unlockShared s i out)
  | .schedule w more out => some (scheduleWakeState s i w more out)

/-- The operation has been called and has not ended. -/
def Op.active {ι : Type*} (o : Op ι) : Bool :=
  match o.pc with
  | .idle | .done _ => false
  | _ => true

def step (s : State ι) : Label ι → Option (State ι)
  | .start i c => if (s.ops i).pc = .idle then some (start s i c) else none
  | .act i => act s i
  | .cancel i =>
    if (s.ops i).active ∧ (s.ops i).cancellable then
      some (s.modify i fun o => { o with wake := o.wake.requestCancel.1 })
    else none
  | .scheduleCancel i =>
    if (s.ops i).wake = .cancellationClaimed then
      some (s.modify i fun o => { o with wake := o.wake.scheduleClaimed.1 })
    else none

/-- A free shared mutex and no calls yet. -/
def State.initial : State ι where
  state := 0#64
  internalMutex := none
  pendingWriters := 0
  readerWaiters := []
  writerWaiters := []
  ops := fun _ => .fresh

/-- **The shared mutex.** -/
def system (ι : Type*) [DecidableEq ι] : TransitionSystem (State ι) (Label ι) where
  init s := s = .initial
  step := step

end Elio.SharedMutex
