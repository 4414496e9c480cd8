/-
**`elio::runtime::worker_thread`: submissions from other threads and the wake-up of the worker.**

Other threads hand coroutines to a worker through a bounded inbox, and through an overflow queue
when the inbox stays full; control work goes through a list of maintenance nodes.  A producer then
sets `submission_wake_pending_`, and only the one that finds it clear wakes the worker.  The worker
moves what it finds to its local deque at several places of its loop, and before it blocks in `poll`
it clears the flag and looks at the queues again.

The model has the whole loop of the worker, with the draining mode and the end of the thread.  Every
access of an atomic variable is one step, and so is every critical section that is left before the
next access.  A push into the inbox and a pop are one step each: producers hold `schedule_mutex_`,
so that the ring has one producer at a time.  What the local deque answers, which tasks run and what
the kernel reports are choices.

Main definitions:

* `system` — any number of producers and one worker.
-/

import Elio.TransitionSystem
import Mathlib.Data.Nat.Init
import Mathlib.Logic.Function.Basic
import Mathlib.Tactic.Simps.Basic

set_option autoImplicit false

namespace Elio.WorkerWake

/-! ### States -/

/-- A call from another thread.  Every call brings its own handle or node. -/
inductive Call where
  /-- `schedule`, with a handle that may be empty. -/
  | schedule (empty : Bool)
  /-- `submit_maintenance`. -/
  | maintenance
  deriving DecidableEq, Repr

/-- What a producer does next. -/
inductive ProducerPc (ι : Type*) where
  | idle
  /-- `try_push`: lock `schedule_mutex_`, after so many attempts. -/
  | lock (attempts : ℕ)
  /-- `try_push`: look at `running_` and push into the inbox. -/
  | push (attempts : ℕ)
  /-- The slow path: lock `schedule_mutex_`. -/
  | overflowLock
  /-- The slow path: look at `running_` and lock `overflow_mutex_`. -/
  | overflowCheck
  /-- The slow path: `push_back`. -/
  | overflowPush
  /-- The slow path: increment `overflow_size_` and unlock `overflow_mutex_`. -/
  | overflowCount
  /-- `submit_maintenance`: lock `schedule_mutex_`. -/
  | nodeLock
  /-- `submit_maintenance`: look at `running_` and increment `maintenance_count_`. -/
  | nodeCheck
  /-- `submit_maintenance`: load `maintenance_incoming_`. -/
  | nodeLoad
  /-- `submit_maintenance`: `compare_exchange_weak`. -/
  | nodeCompare (head : Option ι)
  /-- `wake_for_submission`: exchange the flag. -/
  | wakeFlag
  /-- `wake_for_submission`: `notify`. -/
  | wakeNotify
  /-- Unlock `schedule_mutex_` and return. -/
  | unlock
  | done (accepted : Bool)
  deriving DecidableEq, Repr

/-- From where `service_maintenance` is called. -/
inductive Phase where
  | loop
  | ending
  deriving DecidableEq, Repr

/-- From where `drain_inbox` is called. -/
inductive Caller where
  /-- `get_next_task`. -/
  | next
  /-- `service_competing_work`. -/
  | service
  /-- `redistribute_tasks`. -/
  | retire
  /-- The end of the thread. -/
  | ending
  deriving DecidableEq, Repr

/-- The parts of `has_external_submission`. -/
inductive Stage where
  | inbox
  | overflow
  | incoming
  | batch
  deriving DecidableEq, Repr

/-- What the worker does next. -/
inductive WorkerPc (ι : Type*) where
  /-- `run`: load `running_`. -/
  | top
  /-- `service_maintenance`: load `maintenance_count_`. -/
  | maintenance (phase : Phase)
  /-- `service_maintenance`: poll without blocking. -/
  | maintenancePoll (phase : Phase)
  /-- `service_maintenance`: serve at most so many nodes that are tried again. -/
  | maintenanceRetry (phase : Phase) (remaining : ℕ)
  /-- `service_maintenance`: take the nodes that came in. -/
  | maintenanceTake (phase : Phase)
  /-- `service_maintenance`: serve at most so many of them. -/
  | maintenanceBatch (phase : Phase) (remaining : ℕ)
  /-- `run`: look at `draining_` and at the pause. -/
  | branch
  /-- `get_next_task`: pop from the local deque. -/
  | pop
  /-- `get_next_task`: pop again, and steal from other workers. -/
  | popAgain
  /-- `run_task`. -/
  | task
  /-- `service_competing_work`: poll without blocking. -/
  | service
  /-- `service_competing_work`: look for submissions. -/
  | serviceDrain
  /-- `drain_inbox`: look at the inbox. -/
  | drain (caller : Caller)
  /-- `drain_inbox`: look at `overflow_size_`. -/
  | drainSize (caller : Caller)
  /-- `drain_inbox`: pop from the inbox. -/
  | drainPop (caller : Caller)
  /-- `drain_inbox`: push onto the local deque. -/
  | drainPush (caller : Caller) (item : ι)
  /-- `drain_inbox`: swap the overflow queue. -/
  | drainSwap (caller : Caller)
  /-- `drain_inbox`: push the rest of a batch of the given size, and subtract the size. -/
  | drainBatch (caller : Caller) (batch : List ι) (size : ℕ)
  /-- `redistribute_tasks`: hand tasks to other workers, and see whether the worker can retire. -/
  | retire
  /-- `run`: retire, under `schedule_mutex_`. -/
  | retireLock
  /-- `reset_submission_wake_before_poll`, before so many rounds of spinning. -/
  | reset (spins : ℕ)
  /-- `has_external_submission`, with so many rounds of spinning to come. -/
  | check (stage : Stage) (spins : ℕ)
  /-- In `poll`. -/
  | block
  /-- The end of the thread: pop from the local deque. -/
  | endingPop
  | exited
  deriving DecidableEq, Repr

/-- The worker and its producers. -/
structure State (ι : Type*) where
  /-- The owner of `schedule_mutex_`. -/
  mutex : Option ι
  /-- The producer that has `overflow_mutex_`. -/
  overflowMutex : Option ι
  running : Bool
  draining : Bool
  inbox : List ι
  overflow : List ι
  overflowSize : ℕ
  maintenanceCount : ℕ
  maintenanceIncoming : List ι
  maintenanceBatch : List ι
  maintenanceRetry : List ι
  maintenanceRetryBatch : List ι
  /-- `submission_wake_pending_`. -/
  wakePending : Bool
  /-- A notification makes the current or the next `poll` return. -/
  notified : Bool
  worker : WorkerPc ι
  producers : ι → ProducerPc ι
  /-- The handles that were pushed onto the local deque. -/
  moved : List ι

variable {ι : Type*}

namespace State

/-- The worker has been started. -/
def initial : State ι where
  mutex := none
  overflowMutex := none
  running := true
  draining := false
  inbox := []
  overflow := []
  overflowSize := 0
  maintenanceCount := 0
  maintenanceIncoming := []
  maintenanceBatch := []
  maintenanceRetry := []
  maintenanceRetryBatch := []
  wakePending := false
  notified := false
  worker := .top
  producers := fun _ => .idle
  moved := []

/-- The handles that `drain_inbox` has taken and not yet pushed. -/
def transit (s : State ι) : List ι :=
  match s.worker with
  | .drainPush _ item => [item]
  | .drainBatch _ batch _ => batch
  | _ => []

/-- All handles that were accepted. -/
def accepted (s : State ι) : List ι := s.inbox ++ (s.overflow ++ (s.transit ++ s.moved))

end State

/-! ### Steps of a producer -/

/-- The capacity of the inbox. -/
def inboxCapacity : ℕ := 4096

/-- `max_total_retries`. -/
def maxTotalRetries : ℕ := 1024

variable [DecidableEq ι]

/-- A producer goes on. -/
@[simps -isSimp -fullyApplied mutex overflowMutex running inbox overflow overflowSize
  maintenanceIncoming maintenanceBatch wakePending notified worker moved]
def State.producerTo (s : State ι) (i : ι) (pc : ProducerPc ι) : State ι :=
  { s with producers := Function.update s.producers i pc }

open State (producerTo)

/-- A step of a producer.  The choice `fail` is a failed allocation, or a `compare_exchange_weak`
that fails for no reason. -/
def producerStep (call : ι → Call) (s : State ι) (i : ι) (fail : Bool) : Option (State ι) :=
  match s.producers i with
  | .idle =>
    match call i with
    | .schedule true => some (s.producerTo i (.done false))
    | .schedule false => some (s.producerTo i (.lock 0))
    | .maintenance => some (s.producerTo i .nodeLock)
  | .lock attempts =>
    if s.mutex = none then some (producerTo { s with mutex := some i } i (.push attempts)) else none
  | .push attempts =>
    if !s.running then some (producerTo { s with mutex := none } i (.done false))
    else if s.inbox.length < inboxCapacity then
      some (producerTo { s with inbox := s.inbox ++ [i] } i .wakeFlag)
    else if attempts < maxTotalRetries then
      some (producerTo { s with mutex := none } i (.lock (attempts + 1)))
    else some (producerTo { s with mutex := none } i .overflowLock)
  | .overflowLock =>
    if s.mutex = none then some (producerTo { s with mutex := some i } i .overflowCheck) else none
  | .overflowCheck =>
    if !s.running then some (producerTo { s with mutex := none } i (.done false))
    else if s.overflowMutex = none then
      some (producerTo { s with overflowMutex := some i } i .overflowPush)
    else none
  | .overflowPush =>
    if fail then some (producerTo { s with mutex := none, overflowMutex := none } i (.done false))
    else some (producerTo { s with overflow := s.overflow ++ [i] } i .overflowCount)
  | .overflowCount =>
    some (producerTo { s with overflowSize := s.overflowSize + 1, overflowMutex := none } i .wakeFlag)
  | .nodeLock =>
    if s.mutex = none then some (producerTo { s with mutex := some i } i .nodeCheck) else none
  | .nodeCheck =>
    if !s.running then some (producerTo { s with mutex := none } i (.done false))
    else some (producerTo { s with maintenanceCount := s.maintenanceCount + 1 } i .nodeLoad)
  | .nodeLoad => some (s.producerTo i (.nodeCompare s.maintenanceIncoming.head?))
  | .nodeCompare head =>
    if !fail && s.maintenanceIncoming.head? = head then
      some (producerTo { s with maintenanceIncoming := i :: s.maintenanceIncoming } i .wakeFlag)
    else some (s.producerTo i (.nodeCompare s.maintenanceIncoming.head?))
  | .wakeFlag =>
    if s.wakePending then some (s.producerTo i .unlock)
    else some (producerTo { s with wakePending := true } i .wakeNotify)
  | .wakeNotify => some (producerTo { s with notified := true } i .unlock)
  | .unlock => some (producerTo { s with mutex := none } i (.done true))
  | .done _ => none

/-! ### Steps of the worker -/

/-- The worker goes on. -/
def State.workerTo (s : State ι) (pc : WorkerPc ι) : State ι := { s with worker := pc }

open State (workerTo)

/-- Where `service_maintenance` returns to. -/
def afterMaintenance : Phase → WorkerPc ι
  | .loop => .branch
  | .ending => .drain .ending

/-- Where `drain_inbox` returns to. -/
def afterDrain : Caller → WorkerPc ι
  | .next => .popAgain
  | .service => .top
  | .retire => .retire
  | .ending => .endingPop

/-- A step of the worker.  The choice says what the deque, a task, the scheduler or the kernel
answers. -/
def workerStep (spinIterations : ℕ) (s : State ι) (choice : Bool) : Option (State ι) :=
  match s.worker with
  | .top => some (s.workerTo (.maintenance (if s.running then .loop else .ending)))
  | .maintenance phase =>
    if s.maintenanceCount = 0 then some (s.workerTo (afterMaintenance phase))
    else if s.maintenanceRetryBatch = [] then
      some (workerTo { s with maintenanceRetryBatch := s.maintenanceRetry, maintenanceRetry := [] }
        (if s.maintenanceRetry = [] then .maintenanceRetry phase 64 else .maintenancePoll phase))
    else some (s.workerTo (.maintenancePoll phase))
  | .maintenancePoll phase => some (workerTo { s with notified := false } (.maintenanceRetry phase 64))
  | .maintenanceRetry phase remaining =>
    match remaining, s.maintenanceRetryBatch with
    | remaining + 1, node :: rest =>
      if choice then
        some (workerTo { s with maintenanceRetryBatch := rest, maintenanceCount := s.maintenanceCount - 1 }
          (.maintenanceRetry phase remaining))
      else
        some (workerTo { s with maintenanceRetryBatch := rest, maintenanceRetry := node :: s.maintenanceRetry }
          (.maintenanceRetry phase remaining))
    | _, _ => some (s.workerTo (.maintenanceTake phase))
  | .maintenanceTake phase =>
    if s.maintenanceBatch = [] then
      some (workerTo { s with maintenanceBatch := s.maintenanceIncoming, maintenanceIncoming := [] }
        (.maintenanceBatch phase 64))
    else some (s.workerTo (.maintenanceBatch phase 64))
  | .maintenanceBatch phase remaining =>
    match remaining, s.maintenanceBatch with
    | remaining + 1, node :: rest =>
      if choice then
        some (workerTo { s with maintenanceBatch := rest, maintenanceCount := s.maintenanceCount - 1 }
          (.maintenanceBatch phase remaining))
      else
        some (workerTo { s with maintenanceBatch := rest, maintenanceRetry := node :: s.maintenanceRetry }
          (.maintenanceBatch phase remaining))
    | _, _ => some (s.workerTo (afterMaintenance phase))
  | .branch =>
    if s.draining then some (s.workerTo (.drain .retire))
    else some (s.workerTo (if choice then .top else .pop))
  | .pop => some (s.workerTo (if choice then .task else .drain .next))
  | .popAgain => some (s.workerTo (if choice then .task else .reset spinIterations))
  | .task => some (s.workerTo (if choice then .top else .service))
  | .service => some (workerTo { s with notified := s.notified && choice } .serviceDrain)
  | .serviceDrain => some (s.workerTo (if choice then .drain .service else .top))
  | .drain caller => some (s.workerTo (if s.inbox = [] then .drainSize caller else .drainPop caller))
  | .drainSize caller =>
    some (s.workerTo (if s.overflowSize = 0 then afterDrain caller else .drainPop caller))
  | .drainPop caller =>
    match s.inbox with
    | [] => some (s.workerTo (.drainSwap caller))
    | item :: rest => some (workerTo { s with inbox := rest } (.drainPush caller item))
  | .drainPush caller item => some (workerTo { s with moved := s.moved ++ [item] } (.drainPop caller))
  | .drainSwap caller =>
    if s.overflowMutex = none then
      some (workerTo { s with overflow := [] } (.drainBatch caller s.overflow s.overflow.length))
    else none
  | .drainBatch caller (item :: rest) size =>
    some (workerTo { s with moved := s.moved ++ [item] } (.drainBatch caller rest size))
  | .drainBatch caller [] size =>
    some (workerTo { s with overflowSize := s.overflowSize - size } (afterDrain caller))
  | .retire => some (s.workerTo (if choice then .retireLock else .reset 0))
  | .retireLock =>
    if s.mutex = none then
      if s.maintenanceCount = 0 then some (workerTo { s with running := false } (.maintenance .ending))
      else some (s.workerTo (.reset 0))
    else none
  | .reset spins => some (workerTo { s with wakePending := false } (.check .inbox spins))
  | .check .inbox spins => some (s.workerTo (if s.inbox = [] then .check .overflow spins else .top))
  | .check .overflow spins =>
    some (s.workerTo (if s.overflowSize = 0 then .check .incoming spins else .top))
  | .check .incoming spins =>
    some (s.workerTo (if s.maintenanceIncoming = [] then .check .batch spins else .top))
  | .check .batch spins =>
    match s.maintenanceBatch, spins with
    | [], 0 => some (s.workerTo .block)
    | [], spins + 1 => some (s.workerTo (.check .inbox spins))
    | _ :: _, _ => some (s.workerTo .top)
  | .block =>
    -- the poll returns for a notification, for a completion, or after its time
    if s.notified || choice then some (workerTo { s with notified := false } .top) else none
  | .endingPop => some (s.workerTo (if choice then .maintenance .ending else .exited))
  | .exited => none

/-! ### The system -/

/-- The steps. -/
inductive Label (ι : Type*) where
  | producer (i : ι) (fail : Bool)
  | worker (choice : Bool)
  /-- `request_stop`, without the notification. -/
  | stop
  /-- `wake`, by anybody. -/
  | wake
  /-- `enter_draining_mode`, `leave_draining_mode`. -/
  | drainingMode (on : Bool)
  deriving DecidableEq, Repr

/-- A step of the system. -/
def step (call : ι → Call) (spinIterations : ℕ) (s : State ι) : Label ι → Option (State ι)
  | .producer i fail => producerStep call s i fail
  | .worker choice => workerStep spinIterations s choice
  | .stop => if s.mutex = none then some { s with running := false } else none
  | .wake => some { s with notified := true }
  | .drainingMode on => some { s with draining := on }

/-- Any number of producers and one worker. -/
def system (call : ι → Call) (spinIterations : ℕ) : TransitionSystem (State ι) (Label ι) where
  init s := s = .initial
  step := step call spinIterations

end Elio.WorkerWake
