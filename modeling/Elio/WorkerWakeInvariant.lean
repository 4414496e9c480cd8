/-
**`worker_thread`: no submission is overlooked.**

A producer publishes its handle, sets the flag and, if the flag was clear, notifies the worker, all
under `schedule_mutex_`.  After the worker has cleared the flag, the flag is set again only together
with a notification.  So what appears in a queue after the worker has looked at it brings a
notification that makes `poll` return.

Main definitions:

* `Locks`, `Places`, `Wakes`, `Ending` — the invariants.

Main results:

* `no_task_overlooked` — **a worker that is blocked without a notification has moved every handle
  whose producer has done its wake-up, and every accepted handle is moved once**.
-/

import Elio.WorkerWake
import Mathlib.Data.List.Nodup

set_option autoImplicit false

namespace Elio.WorkerWake

open List
open State (workerTo)
open State (accepted)

variable {ι : Type*}

/-! ### What a producer changes -/

section Frame

variable [DecidableEq ι] {s : State ι} {i : ι} {pc : ProducerPc ι}

@[grind =] theorem producerTo_producers (j : ι) :
    (s.producerTo i pc).producers j = if j = i then pc else s.producers j :=
  Function.update_apply ..

attribute [grind =] State.producerTo_mutex State.producerTo_overflowMutex State.producerTo_running
  State.producerTo_inbox State.producerTo_overflow State.producerTo_overflowSize
  State.producerTo_maintenanceIncoming State.producerTo_maintenanceBatch
  State.producerTo_wakePending State.producerTo_notified State.producerTo_worker
  State.producerTo_moved

end Frame

/-! ### Producers -/

namespace ProducerPc

/-- The producer has `schedule_mutex_`. -/
def locked : ProducerPc ι → Bool
  | .push _ | .overflowCheck | .overflowPush | .overflowCount | .nodeCheck | .nodeLoad => true
  | .nodeCompare _ | .wakeFlag | .wakeNotify | .unlock => true
  | _ => false

/-- The producer has `overflow_mutex_`. -/
def inOverflow : ProducerPc ι → Bool
  | .overflowPush | .overflowCount => true
  | _ => false

/-- The producer has seen that the worker runs. -/
def admitted : ProducerPc ι → Bool
  | .overflowPush | .overflowCount | .nodeLoad | .nodeCompare _ => true
  | .wakeFlag | .wakeNotify | .unlock => true
  | _ => false

/-- The handle or node is in a queue. -/
def published : ProducerPc ι → Bool
  | .overflowCount | .wakeFlag | .wakeNotify | .unlock => true
  | .done accepted => accepted
  | _ => false

/-- The producer has published its handle or node and has not finished its wake-up. -/
def waking : ProducerPc ι → Bool
  | .overflowCount | .wakeFlag | .wakeNotify => true
  | _ => false

/-- The calls that come to this place. -/
def Suits (call : Call) : ProducerPc ι → Prop
  | .lock _ | .push _ | .overflowLock | .overflowCheck | .overflowPush => call = .schedule false
  | .overflowCount => call = .schedule false
  | .nodeLock | .nodeCheck | .nodeLoad | .nodeCompare _ => call = .maintenance
  | _ => True

end ProducerPc

attribute [local grind] ProducerPc.locked ProducerPc.inOverflow ProducerPc.admitted
  ProducerPc.published ProducerPc.waking ProducerPc.Suits

/-- The mutexes, and what the producers know. -/
structure Locks (call : ι → Call) (s : State ι) : Prop where
  mutex : ∀ i, (s.producers i).locked = true ↔ s.mutex = some i
  overflowMutex : ∀ i, (s.producers i).inOverflow = true ↔ s.overflowMutex = some i
  suits : ∀ i, (s.producers i).Suits (call i)
  stopped : s.running = false → ∀ i, (s.producers i).admitted = false

namespace Locks

variable {call : ι → Call} {s s' : State ι}

/-- Steps of the worker that leave the mutexes alone. -/
theorem of_eq (h : Locks call s) (hmut : s'.mutex = s.mutex)
    (hoverflow : s'.overflowMutex = s.overflowMutex) (hproducers : s'.producers = s.producers)
    (hrun : s'.running = s.running) : Locks call s' where
  mutex := by rw [hmut, hproducers]; exact h.mutex
  overflowMutex := by rw [hoverflow, hproducers]; exact h.overflowMutex
  suits := by rw [hproducers]; exact h.suits
  stopped := by rw [hrun, hproducers]; exact h.stopped

/-- Nobody is inside when the mutex is free. -/
theorem admitted_of_free (h : Locks call s) (hfree : s.mutex = none) (i : ι) :
    (s.producers i).admitted = false := by
  have hnot : ¬ (s.producers i).locked = true := by
    rw [h.mutex, hfree]
    exact nofun
  cases hpc : s.producers i <;> simp_all [ProducerPc.locked, ProducerPc.admitted]

theorem stop (h : Locks call s) (hfree : s.mutex = none) : Locks call { s with running := false } :=
  { h with stopped := fun _ i => h.admitted_of_free hfree i }

variable [DecidableEq ι]

theorem producerStep (h : Locks call s) {i : ι} {fail : Bool}
    (hstep : producerStep call s i fail = some s') : Locks call s' := by
  cases h
  unfold WorkerWake.producerStep at hstep
  constructor
  · intro j
    split at hstep <;> grind -linarith
  · intro j
    split at hstep <;> grind -linarith
  · intro j
    split at hstep <;> grind -linarith
  · intro hstop j
    split at hstep <;> grind -linarith

/-- A producer leaves the others and the worker alone, and the queues if the worker has been
stopped. -/
theorem producer_frame (hl : Locks call s) {i : ι} {fail : Bool}
    (hstep : WorkerWake.producerStep call s i fail = some s') :
    (∀ j, j ≠ i → s'.producers j = s.producers j) ∧ s'.worker = s.worker ∧
      s'.running = s.running ∧
      (s.running = false → s'.inbox = s.inbox ∧ s'.overflow = s.overflow) := by
  have hstopped := fun hstop => hl.stopped hstop i
  unfold WorkerWake.producerStep at hstep
  split at hstep <;> grind

end Locks

/-! ### What the worker can do -/

namespace WorkerPc

/-- The handles that `drain_inbox` has taken and not yet pushed. -/
def carried : WorkerPc ι → List ι
  | .drainPush _ item => [item]
  | .drainBatch _ batch _ => batch
  | _ => []

/-- The size of the batch that is counted in `overflow_size_` though it is not in the queue. -/
def batchSize : WorkerPc ι → ℕ
  | .drainBatch _ _ size => size
  | _ => 0

/-- The worker has cleared the flag and has not polled since. -/
def armed : WorkerPc ι → Bool
  | .check _ _ | .block => true
  | _ => false

end WorkerPc

/-- The queues, the mutexes and the producers are the same. -/
structure SameQueues (s s' : State ι) : Prop where
  inbox : s'.inbox = s.inbox
  overflow : s'.overflow = s.overflow
  overflowSize : s'.overflowSize = s.overflowSize
  moved : s'.moved = s.moved
  mutex : s'.mutex = s.mutex
  overflowMutex : s'.overflowMutex = s.overflowMutex
  producers : s'.producers = s.producers

/-- What the worker has seen when a stage of `has_external_submission` lets it go on. -/
def Passes (s : State ι) : Stage → ℕ → WorkerPc ι → Prop
  | .inbox, spins, pc => s.inbox = [] ∧ pc = .check .overflow spins
  | .overflow, spins, pc => s.overflowSize = 0 ∧ pc = .check .incoming spins
  | .incoming, spins, pc => s.maintenanceIncoming = [] ∧ pc = .check .batch spins
  | .batch, _, pc => s.maintenanceBatch = [] ∧ (pc = .block ∨ ∃ spins, pc = .check .inbox spins)

/-- What a step of the worker can do. -/
inductive WorkerActs (s s' : State ι) : Prop
  /-- Something that does not concern the handles, and does not lead towards `poll`. -/
  | go (hbefore : s.worker.carried = [] ∧ s.worker.batchSize = 0)
      (hafter : s'.worker.carried = [] ∧ s'.worker.batchSize = 0) (hsame : SameQueues s s')
      (hrunning : s'.running = s.running ∨ s.mutex = none ∧ s'.running = false)
      (harmed : s'.worker.armed = false)
  | reset {spins : ℕ} (hpc : s.worker = .reset spins)
      (heq : s' = workerTo { s with wakePending := false } (.check .inbox spins))
  | pass {stage : Stage} {spins : ℕ} {pc : WorkerPc ι} (hpc : s.worker = .check stage spins)
      (hpasses : Passes s stage spins pc) (heq : s' = s.workerTo pc)
  | take {caller : Caller} {item : ι} {rest : List ι} (hpc : s.worker = .drainPop caller)
      (hinbox : s.inbox = item :: rest)
      (heq : s' = workerTo { s with inbox := rest } (.drainPush caller item))
  | move {caller : Caller} {item : ι} (hpc : s.worker = .drainPush caller item)
      (heq : s' = workerTo { s with moved := s.moved ++ [item] } (.drainPop caller))
  | swap {caller : Caller} (hpc : s.worker = .drainSwap caller) (hfree : s.overflowMutex = none)
      (heq : s' = workerTo { s with overflow := [] }
        (.drainBatch caller s.overflow s.overflow.length))
  | moveBatch {caller : Caller} {item : ι} {rest : List ι} {size : ℕ}
      (hpc : s.worker = .drainBatch caller (item :: rest) size)
      (heq : s' = workerTo { s with moved := s.moved ++ [item] } (.drainBatch caller rest size))
  | finish {caller : Caller} {size : ℕ} (hpc : s.worker = .drainBatch caller [] size)
      (heq : s' = workerTo { s with overflowSize := s.overflowSize - size } (afterDrain caller))

/-- A step that only changes the place of the worker, its maintenance lists and the notification. -/
theorem WorkerActs.elsewhere {s : State ι} {pc pc' : WorkerPc ι} (hpc : s.worker = pc)
    (hpre : pc.carried = [] ∧ pc.batchSize = 0)
    (hafter : pc'.carried = [] ∧ pc'.batchSize = 0 ∧ pc'.armed = false) {count : ℕ}
    {incoming batch retry retryBatch : List ι} {notified : Bool} :
    WorkerActs s { s with
      worker := pc'
      maintenanceCount := count
      maintenanceIncoming := incoming
      maintenanceBatch := batch
      maintenanceRetry := retry
      maintenanceRetryBatch := retryBatch
      notified := notified } :=
  .go (hpc ▸ hpre) ⟨hafter.1, hafter.2.1⟩ ⟨rfl, rfl, rfl, rfl, rfl, rfl, rfl⟩ (.inl rfl) hafter.2.2

theorem afterMaintenance_hands (phase : Phase) :
    (afterMaintenance phase : WorkerPc ι).carried = [] ∧
      (afterMaintenance phase : WorkerPc ι).batchSize = 0 ∧
      (afterMaintenance phase : WorkerPc ι).armed = false := by
  cases phase <;> exact ⟨rfl, rfl, rfl⟩

theorem afterDrain_hands (caller : Caller) :
    (afterDrain caller : WorkerPc ι).carried = [] ∧ (afterDrain caller : WorkerPc ι).batchSize = 0 ∧
      (afterDrain caller : WorkerPc ι).armed = false := by
  cases caller <;> exact ⟨rfl, rfl, rfl⟩

/-- **What a step of the worker can do.** -/
theorem worker_cases [DecidableEq ι] {spinIterations : ℕ} {s s' : State ι} {choice : Bool}
    (hstep : workerStep spinIterations s choice = some s') : WorkerActs s s' := by
  unfold workerStep at hstep
  split at hstep
  case h_2 phase hpc =>
    split_ifs at hstep <;> cases hstep
    · exact .elsewhere hpc ⟨rfl, rfl⟩ (afterMaintenance_hands phase)
    all_goals exact .elsewhere hpc ⟨rfl, rfl⟩ ⟨rfl, rfl, rfl⟩
  case h_4 phase remaining hpc =>
    split at hstep
    · split_ifs at hstep <;> cases hstep <;> exact .elsewhere hpc ⟨rfl, rfl⟩ ⟨rfl, rfl, rfl⟩
    · cases hstep
      exact .elsewhere hpc ⟨rfl, rfl⟩ ⟨rfl, rfl, rfl⟩
  case h_6 phase remaining hpc =>
    split at hstep
    · split_ifs at hstep <;> cases hstep <;> exact .elsewhere hpc ⟨rfl, rfl⟩ ⟨rfl, rfl, rfl⟩
    · cases hstep
      exact .elsewhere hpc ⟨rfl, rfl⟩ (afterMaintenance_hands phase)
  case h_14 caller hpc =>
    split_ifs at hstep <;> cases hstep
    · exact .elsewhere hpc ⟨rfl, rfl⟩ (afterDrain_hands caller)
    · exact .elsewhere hpc ⟨rfl, rfl⟩ ⟨rfl, rfl, rfl⟩
  case h_15 caller hpc =>
    split at hstep <;> cases hstep
    · exact .elsewhere hpc ⟨rfl, rfl⟩ ⟨rfl, rfl, rfl⟩
    case h_2 item rest hinbox =>
      exact .take hpc hinbox rfl
  case h_16 caller item hpc =>
    cases hstep
    exact .move hpc rfl
  case h_17 caller hpc =>
    split_ifs at hstep with hfree
    cases hstep
    exact .swap hpc hfree rfl
  case h_18 caller item rest size hpc =>
    cases hstep
    exact .moveBatch hpc rfl
  case h_19 caller size hpc =>
    cases hstep
    exact .finish hpc rfl
  case h_21 hpc =>
    split_ifs at hstep with hfree hcnt <;> cases hstep
    · exact .go (hpc ▸ ⟨rfl, rfl⟩) ⟨rfl, rfl⟩ ⟨rfl, rfl, rfl, rfl, rfl, rfl, rfl⟩
        (.inr ⟨hfree, rfl⟩) rfl
    · exact .elsewhere hpc ⟨rfl, rfl⟩ ⟨rfl, rfl, rfl⟩
  case h_22 spins hpc =>
    cases hstep
    exact .reset hpc rfl
  case h_23 spins hpc | h_24 spins hpc | h_25 spins hpc =>
    split_ifs at hstep with hemp <;> cases hstep
    · exact .pass hpc ⟨hemp, rfl⟩ rfl
    · exact .elsewhere hpc ⟨rfl, rfl⟩ ⟨rfl, rfl, rfl⟩
  case h_26 spins hpc =>
    split at hstep <;> cases hstep
    case h_1 hemp =>
      exact .pass hpc ⟨hemp, .inl rfl⟩ rfl
    case h_2 spins' hemp =>
      exact .pass hpc ⟨hemp, .inr ⟨spins', rfl⟩⟩ rfl
    case h_3 =>
      exact .elsewhere hpc ⟨rfl, rfl⟩ ⟨rfl, rfl, rfl⟩
  case h_29 => cases hstep
  -- the other steps do not concern the handles
  case h_1 hpc | h_3 _ hpc | h_11 hpc =>
    cases hstep
    exact .elsewhere hpc ⟨rfl, rfl⟩ ⟨rfl, rfl, rfl⟩
  case h_5 _ hpc | h_7 hpc | h_8 hpc | h_9 hpc | h_10 hpc | h_12 hpc | h_13 _ hpc | h_20 hpc
    | h_27 hpc | h_28 hpc =>
    split_ifs at hstep <;> cases hstep <;> exact .elsewhere hpc ⟨rfl, rfl⟩ ⟨rfl, rfl, rfl⟩

/-! ### Where the handles are -/

/-- One producer has pushed into the overflow queue and not yet counted it. -/
def State.uncounted [DecidableEq ι] (s : State ι) : ℕ :=
  match s.overflowMutex with
  | some i => if s.producers i = .overflowCount then 1 else 0
  | none => 0

theorem State.transit_eq (s : State ι) : s.transit = s.worker.carried := by
  unfold State.transit WorkerPc.carried
  split <;> simp_all

/-- Every accepted handle is in one place, and the overflow queue is counted. -/
structure Places [DecidableEq ι] (call : ι → Call) (s : State ι) : Prop where
  nodup : s.accepted.Nodup
  mem_accepted : ∀ i, i ∈ s.accepted ↔ (s.producers i).published = true ∧ call i = .schedule false
  counted : s.overflow.length + s.worker.batchSize = s.overflowSize + s.uncounted
  uncounted_mem : ∀ i, s.producers i = .overflowCount → i ∈ s.overflow

namespace Places

variable [DecidableEq ι] {call : ι → Call} {s s' : State ι}

/-- A step of the worker moves handles from place to place. -/
theorem of_worker (h : Places call s) (hproducers : s'.producers = s.producers)
    (hperm : s'.accepted.Perm s.accepted)
    (hcnt : s'.overflow.length + s'.worker.batchSize = s'.overflowSize + s'.uncounted)
    (hmem : ∀ i, s.producers i = .overflowCount → i ∈ s'.overflow) : Places call s' where
  nodup := hperm.nodup_iff.mpr h.nodup
  mem_accepted := fun i => by
    rw [hperm.mem_iff, h.mem_accepted, hproducers]
  counted := hcnt
  uncounted_mem := by rw [hproducers]; exact hmem

theorem uncounted_le (h : Places call s) : s.uncounted ≤ s.overflow.length := by
  unfold State.uncounted
  split
  case h_1 i hi =>
    split_ifs with hpc
    · exact length_pos_of_mem (h.uncounted_mem i hpc)
    · exact Nat.zero_le _
  case h_2 => exact Nat.zero_le _

theorem workerStep (h : Places call s) (hl : Locks call s) (hacts : WorkerActs s s') :
    Places call s' := by
  have hcnt := h.counted
  cases hacts with
  | go hpre hafter hsame hrun harmed =>
    have huncounted : s'.uncounted = s.uncounted := by
      rw [State.uncounted, hsame.overflowMutex, hsame.producers, State.uncounted]
    refine h.of_worker hsame.producers (List.Perm.of_eq ?_) ?_ ?_
    · rw [accepted, accepted, hsame.inbox, hsame.overflow, hsame.moved,
        State.transit_eq, State.transit_eq, hpre.1, hafter.1]
    · rw [hsame.overflow, hsame.overflowSize, huncounted, hafter.2, ← hpre.2]
      exact hcnt
    · rw [hsame.overflow]
      exact h.uncounted_mem
  | reset hpc heq =>
    subst heq
    refine h.of_worker rfl (List.Perm.of_eq ?_) ?_ h.uncounted_mem
    · simp only [accepted, State.transit_eq, hpc]
      rfl
    · rw [hpc] at hcnt
      exact hcnt
  | @pass stage spins pc hpc hpasses heq =>
    subst heq
    have hhands : pc.carried = [] ∧ pc.batchSize = 0 := by
      cases stage with
      | inbox | overflow | incoming => exact hpasses.2 ▸ ⟨rfl, rfl⟩
      | batch =>
        rcases hpasses.2 with hblock | ⟨n, hcheck⟩
        · exact hblock ▸ ⟨rfl, rfl⟩
        · exact hcheck ▸ ⟨rfl, rfl⟩
    refine h.of_worker rfl (List.Perm.of_eq ?_) ?_ h.uncounted_mem
    · simp only [accepted, State.transit_eq, hpc, workerTo, hhands.1]
      rfl
    · rw [hpc] at hcnt
      show s.overflow.length + pc.batchSize = _
      rw [hhands.2]
      exact hcnt
  | take hpc hinbox heq =>
    subst heq
    rw [hpc] at hcnt
    refine h.of_worker rfl ?_ hcnt h.uncounted_mem
    simp only [accepted, State.transit_eq, workerTo, hpc, hinbox, WorkerPc.carried]
    refine perm_iff_count.mpr fun i => ?_
    simp only [count_append, count_cons, count_nil]
    omega
  | move hpc heq | moveBatch hpc heq =>
    subst heq
    rw [hpc] at hcnt
    refine h.of_worker rfl ?_ hcnt h.uncounted_mem
    simp only [accepted, State.transit_eq, workerTo, hpc, WorkerPc.carried]
    refine perm_iff_count.mpr fun i => ?_
    simp only [count_append, count_cons, count_nil]
    omega
  | swap hpc hfree heq =>
    subst heq
    rw [hpc] at hcnt
    have hnone : s.uncounted = 0 := by simp only [State.uncounted, hfree]
    have hemp : s.overflow.length = s.overflowSize := by
      rw [hnone] at hcnt
      exact hcnt
    refine h.of_worker rfl (List.Perm.of_eq ?_) ?_ ?_
    · simp only [accepted, State.transit_eq, workerTo, hpc, WorkerPc.carried,
        nil_append]
    · show 0 + s.overflow.length = s.overflowSize + s.uncounted
      omega
    · intro i hi
      have hmut := (hl.overflowMutex i).mp (by rw [hi]; rfl)
      rw [hfree] at hmut
      cases hmut
  | @finish caller size hpc heq =>
    subst heq
    rw [hpc] at hcnt
    have hcnt : s.overflow.length + size = s.overflowSize + s.uncounted := hcnt
    have hle := h.uncounted_le
    have hhands := afterDrain_hands (ι := ι) caller
    refine h.of_worker rfl (List.Perm.of_eq ?_) ?_ h.uncounted_mem
    · simp only [accepted, State.transit_eq, workerTo, hpc, hhands.1]
      rfl
    · show s.overflow.length + (afterDrain caller : WorkerPc ι).batchSize =
        s.overflowSize - size + s.uncounted
      omega

/-- A step of a producer publishes its handle, or leaves the handles where they are. -/
theorem producer_accepted (hl : Locks call s) {i : ι} {fail : Bool}
    (hstep : producerStep call s i fail = some s') :
    s'.accepted = s.accepted ∧
        ((s'.producers i).published = (s.producers i).published ∨ call i ≠ .schedule false) ∨
      s'.accepted.Perm (i :: s.accepted) ∧ call i = .schedule false ∧
        (s.producers i).published = false ∧ (s'.producers i).published = true := by
  have hsuits := hl.suits i
  unfold WorkerWake.producerStep at hstep
  unfold accepted State.transit
  split at hstep
  case h_3 attempts hpc =>
    split_ifs at hstep <;> cases hstep
    case pos => grind
    case pos =>
      refine .inr ⟨?_, by grind, by grind, by grind⟩
      rw [State.producerTo_inbox,
        append_assoc]
      exact perm_middle
    all_goals grind
  case h_6 hpc =>
    split_ifs at hstep <;> cases hstep
    · grind
    · refine .inr ⟨?_, by grind, by grind, by grind⟩
      rw [State.producerTo_overflow,
        append_assoc]
      exact (List.Perm.append_left _ perm_middle).trans perm_middle
  all_goals grind

theorem producerStep (h : Places call s) (hl : Locks call s) {i : ι} {fail : Bool}
    (hstep : producerStep call s i fail = some s') : Places call s' := by
  obtain ⟨hother, -⟩ := hl.producer_frame hstep
  constructor
  · rcases producer_accepted hl hstep with ⟨heq, -⟩ | ⟨hperm, hcall, hpre, -⟩
    · rw [heq]
      exact h.nodup
    · have hmem := h.mem_accepted i
      rw [hperm.nodup_iff, nodup_cons]
      exact ⟨by grind -linarith, h.nodup⟩
  · intro j
    have hmem := h.mem_accepted j
    rcases producer_accepted hl hstep with ⟨heq, hsame⟩ | ⟨hperm, hcall, hpre, hafter⟩
    · rw [heq]
      rcases eq_or_ne j i with rfl | hne <;> grind -linarith
    · rw [hperm.mem_iff, mem_cons]
      rcases eq_or_ne j i with rfl | hne <;> grind -linarith
  · have hcnt := h.counted
    obtain ⟨-, h2, -, -⟩ := hl
    unfold WorkerWake.producerStep at hstep
    unfold State.uncounted at hcnt ⊢
    split at hstep <;> grind -linarith
  · intro j hj
    have hmem := h.uncounted_mem
    unfold WorkerWake.producerStep at hstep
    split at hstep <;> grind -linarith

end Places

/-! ### Wake-ups -/

/-- The queue of a stage of `has_external_submission`. -/
def State.queue (s : State ι) : Stage → List ι
  | .inbox => s.inbox
  | .overflow => s.overflow
  | .incoming => s.maintenanceIncoming
  | .batch => s.maintenanceBatch

/-- The worker has looked at the queue after it has cleared the flag, and found it empty. -/
def WorkerPc.passed : WorkerPc ι → Stage → Bool
  | .block, _ => true
  | .check .overflow _, .inbox => true
  | .check .incoming _, .inbox | .check .incoming _, .overflow => true
  | .check .batch _, .inbox | .check .batch _, .overflow | .check .batch _, .incoming => true
  | _, _ => false

theorem WorkerPc.armed_of_passed {pc : WorkerPc ι} {stage : Stage} (h : pc.passed stage = true) :
    pc.armed = true := by
  unfold WorkerPc.passed at h
  split at h <;> first | rfl | cases h

/-- What the flag and the notification say about the queues. -/
structure Wakes (s : State ι) : Prop where
  pending : s.worker.armed = true → s.wakePending = true →
    s.notified = true ∨ ∃ j, s.producers j = .wakeNotify
  seen : ∀ stage, s.worker.passed stage = true → ∀ i ∈ s.queue stage,
    (s.producers i).waking = true ∨ s.notified = true
  batch : s.worker = .block → s.maintenanceBatch = []

namespace Wakes

variable {s s' : State ι}

/-- Nothing is claimed of a worker that is not about to block. -/
theorem of_unarmed (h : s'.worker.armed = false) : Wakes s' where
  pending := fun harmed => by rw [h] at harmed; cases harmed
  seen := fun stage hpassed => by
    have := WorkerPc.armed_of_passed hpassed
    rw [h] at this
    cases this
  batch := fun hblock => by
    rw [hblock] at h
    cases h

theorem workerStep [DecidableEq ι] {call : ι → Call} (h : Wakes s) (hp : Places call s)
    (hacts : WorkerActs s s') : Wakes s' := by
  cases hacts with
  | go hpre hafter hsame hrun harmed => exact of_unarmed harmed
  | reset hpc heq =>
    subst heq
    refine ⟨fun _ => nofun, fun stage hpassed => ?_, nofun⟩
    cases stage <;> cases hpassed
  | @pass stage spins pc hpc hpasses heq =>
    subst heq
    have hpend : s.wakePending = true → s.notified = true ∨ ∃ j, s.producers j = .wakeNotify :=
      h.pending (by rw [hpc]; rfl)
    have hseen := h.seen
    rw [hpc] at hseen
    refine ⟨fun _ => hpend, fun queue hpassed i hi => ?_, fun hblock => ?_⟩
    · show (s.producers i).waking = true ∨ s.notified = true
      have hi : i ∈ s.queue queue := hi
      cases stage with
      | inbox =>
        rw [hpasses.2] at hpassed
        cases queue with
        | inbox =>
          rw [State.queue, hpasses.1] at hi
          cases hi
        | _ => cases hpassed
      | overflow =>
        rw [hpasses.2] at hpassed
        cases queue with
        | inbox => exact hseen .inbox rfl i hi
        | overflow =>
          -- only a handle that is not yet counted can be there
          have hcounted := hp.counted
          have hsize := hpasses.1
          have hpos := length_pos_of_mem hi
          have hpos : 0 < s.overflow.length := hpos
          unfold State.uncounted at hcounted
          split at hcounted
          case h_1 j hj =>
            split_ifs at hcounted with hcnt
            · have hmem := hp.uncounted_mem j hcnt
              obtain ⟨x, hx⟩ := length_eq_one_iff.mp (show s.overflow.length = 1 by omega)
              have hi : i ∈ s.overflow := hi
              rw [hx, mem_singleton] at hi hmem
              left
              rw [hi, ← hmem, hcnt]
              rfl
            · omega
          case h_2 => omega
        | _ => cases hpassed
      | incoming =>
        rw [hpasses.2] at hpassed
        cases queue with
        | inbox => exact hseen .inbox rfl i hi
        | overflow => exact hseen .overflow rfl i hi
        | incoming =>
          rw [State.queue, hpasses.1] at hi
          cases hi
        | batch => cases hpassed
      | batch =>
        rcases hpasses.2 with rfl | ⟨spins', rfl⟩
        · cases queue with
          | inbox => exact hseen .inbox rfl i hi
          | overflow => exact hseen .overflow rfl i hi
          | incoming => exact hseen .incoming rfl i hi
          | batch =>
            have hi : i ∈ s.maintenanceBatch := hi
            rw [hpasses.1] at hi
            cases hi
        · cases queue <;> cases hpassed
    · cases stage with
      | batch => exact hpasses.1
      | inbox | overflow | incoming =>
        rw [hpasses.2] at hblock
        cases hblock
  | take _ _ heq | move _ heq | swap _ _ heq | moveBatch _ heq =>
    subst heq
    exact of_unarmed rfl
  | @finish caller size hpc heq =>
    subst heq
    exact of_unarmed (afterDrain_hands caller).2.2

variable [DecidableEq ι]

theorem producerStep {call : ι → Call} (h : Wakes s) (hl : Locks call s) {i : ι} {fail : Bool}
    (hstep : producerStep call s i fail = some s') : Wakes s' := by
  obtain ⟨h1, h2, h3⟩ := h
  have hmut := hl.mutex
  obtain ⟨hother, hworker, -⟩ := hl.producer_frame hstep
  constructor
  · intro harmed hpend
    by_cases hflag : s.wakePending = true
    · rcases h1 (hworker ▸ harmed) hflag with hold | ⟨j, hj⟩
      · left
        unfold WorkerWake.producerStep at hstep
        split at hstep <;> grind -linarith
      · rcases eq_or_ne j i with rfl | hne
        · left
          unfold WorkerWake.producerStep at hstep
          grind -linarith
        · exact .inr ⟨j, (hother j hne).trans hj⟩
    · refine .inr ⟨i, ?_⟩
      unfold WorkerWake.producerStep at hstep
      split at hstep <;> grind -linarith
  · intro stage hpassed j hj
    have hold := h2 stage (hworker ▸ hpassed) j
    have harmed := WorkerPc.armed_of_passed hpassed
    unfold WorkerWake.producerStep at hstep
    cases stage <;> split at hstep <;> grind -linarith [State.queue]
  · unfold WorkerWake.producerStep at hstep
    split at hstep <;> grind -linarith

end Wakes

/-! ### The end of the thread -/

namespace WorkerPc

/-- The worker has left its loop. -/
def ending : WorkerPc ι → Bool
  | .maintenance .ending | .maintenancePoll .ending | .maintenanceRetry .ending _ => true
  | .maintenanceTake .ending | .maintenanceBatch .ending _ => true
  | .drain .ending | .drainSize .ending | .drainPop .ending | .drainPush .ending _ => true
  | .drainSwap .ending | .drainBatch .ending _ _ | .endingPop | .exited => true
  | _ => false

/-- It has found the inbox empty. -/
def inboxDone : WorkerPc ι → Bool
  | .drainSize .ending | .drainSwap .ending | .drainBatch .ending _ _ | .endingPop | .exited => true
  | _ => false

/-- It has emptied the overflow queue. -/
def overflowDone : WorkerPc ι → Bool
  | .drainBatch .ending _ _ | .endingPop | .exited => true
  | _ => false

theorem ending_of_inboxDone {pc : WorkerPc ι} (h : pc.inboxDone = true) : pc.ending = true := by
  unfold inboxDone at h
  split at h <;> first | rfl | cases h

theorem inboxDone_of_overflowDone {pc : WorkerPc ι} (h : pc.overflowDone = true) :
    pc.inboxDone = true := by
  unfold overflowDone at h
  split at h <;> first | rfl | cases h

end WorkerPc

/-- What holds when the worker has left its loop. -/
structure Ending (s : State ι) : Prop where
  stopped : s.worker.ending = true → s.running = false
  inbox : s.worker.inboxDone = true → s.inbox = []
  overflow : s.worker.overflowDone = true → s.overflow = []

namespace Ending

variable {call : ι → Call} {s s' : State ι}

theorem of_go (h : Ending s) {pc pc' : WorkerPc ι} (hpc : s.worker = pc) (hpc' : s'.worker = pc')
    (hrun : s.running = false → s'.running = false)
    (hending : pc'.ending = true → pc.ending = true ∨ s'.running = false)
    (hdone : pc'.inboxDone = false) : Ending s' where
  stopped := by
    rw [hpc']
    intro hend
    rcases hending hend with hold | hstop
    · exact hrun (h.stopped (hpc ▸ hold))
    · exact hstop
  inbox := by
    rw [hpc', hdone]
    exact nofun
  overflow := by
    rw [hpc']
    intro hover
    have := WorkerPc.inboxDone_of_overflowDone hover
    rw [hdone] at this
    cases this

variable [DecidableEq ι]

theorem workerStep (h : Ending s) (hl : Locks call s) (hp : Places call s) {spinIterations : ℕ}
    {choice : Bool} (hstep : workerStep spinIterations s choice = some s') : Ending s' := by
  have hstopped := h.stopped
  have hinbox := h.inbox
  have hoverflow := h.overflow
  unfold WorkerWake.workerStep at hstep
  split at hstep
  case h_1 hpc =>
    split_ifs at hstep with hrun <;> cases hstep
    · exact h.of_go hpc rfl id nofun rfl
    · have hstop : s.running = false := by simpa using hrun
      exact h.of_go hpc rfl id (fun _ => .inr hstop) rfl
  case h_2 phase hpc =>
    cases phase <;> split_ifs at hstep <;> cases hstep <;> exact h.of_go hpc rfl id .inl rfl
  case h_3 phase hpc =>
    cases hstep
    cases phase <;> exact h.of_go hpc rfl id .inl rfl
  case h_5 phase hpc =>
    split_ifs at hstep <;> cases hstep <;> cases phase <;> exact h.of_go hpc rfl id .inl rfl
  case h_4 phase remaining hpc | h_6 phase remaining hpc =>
    split at hstep
    · split_ifs at hstep <;> cases hstep <;> cases phase <;> exact h.of_go hpc rfl id .inl rfl
    · cases hstep
      cases phase <;> exact h.of_go hpc rfl id .inl rfl
  case h_13 caller hpc =>
    rw [hpc] at hstopped
    split_ifs at hstep with hemp <;> cases hstep
    · cases caller with
      | ending => exact ⟨hstopped, fun _ => hemp, nofun⟩
      | _ => exact h.of_go hpc rfl id nofun rfl
    · cases caller <;> exact h.of_go hpc rfl id .inl rfl
  case h_14 caller hpc =>
    rw [hpc] at hstopped hinbox
    split_ifs at hstep with hsize <;> cases hstep
    · cases caller with
      | ending =>
        -- nobody is about to count a handle
        have hnone : s.uncounted = 0 := by
          unfold State.uncounted
          split
          case h_1 i hi =>
            have hadmitted := hl.stopped (hstopped rfl) i
            split_ifs with hcnt
            · rw [hcnt] at hadmitted
              cases hadmitted
            · rfl
          case h_2 => rfl
        have hcounted := hp.counted
        rw [hpc, hnone, hsize] at hcounted
        exact ⟨hstopped, hinbox, fun _ => eq_nil_of_length_eq_zero hcounted⟩
      | _ => exact h.of_go hpc rfl id nofun rfl
    · cases caller <;> exact h.of_go hpc rfl id .inl rfl
  case h_15 caller hpc =>
    rw [hpc] at hstopped
    split at hstep <;> cases hstep
    case h_1 hemp =>
      cases caller with
      | ending => exact ⟨hstopped, fun _ => hemp, nofun⟩
      | _ => exact h.of_go hpc rfl id nofun rfl
    case h_2 item rest hsome =>
      cases caller <;> exact h.of_go hpc rfl id .inl rfl
  case h_16 caller item hpc =>
    cases hstep
    cases caller <;> exact h.of_go hpc rfl id .inl rfl
  case h_17 caller hpc =>
    rw [hpc] at hstopped hinbox
    split_ifs at hstep
    cases hstep
    cases caller with
    | ending => exact ⟨hstopped, hinbox, fun _ => rfl⟩
    | _ => exact h.of_go hpc rfl id nofun rfl
  case h_18 caller _ _ _ hpc | h_19 caller _ hpc =>
    rw [hpc] at hstopped hinbox hoverflow
    cases hstep
    cases caller with
    | ending => exact ⟨hstopped, hinbox, hoverflow⟩
    | _ => exact h.of_go hpc rfl id nofun rfl
  case h_21 hpc =>
    split_ifs at hstep <;> cases hstep
    · exact h.of_go hpc rfl (fun _ => rfl) (fun _ => .inr rfl) rfl
    · exact h.of_go hpc rfl id nofun rfl
  case h_28 hpc =>
    rw [hpc] at hstopped hinbox hoverflow
    split_ifs at hstep <;> cases hstep
    · exact h.of_go hpc rfl id .inl rfl
    · exact ⟨hstopped, hinbox, hoverflow⟩
  case h_29 => cases hstep
  -- the other steps are taken inside the loop
  case h_11 hpc | h_22 _ hpc =>
    cases hstep
    exact h.of_go hpc rfl id nofun rfl
  case h_26 _ hpc =>
    split at hstep <;> cases hstep <;> exact h.of_go hpc rfl id nofun rfl
  case h_7 hpc | h_8 hpc | h_9 hpc | h_10 hpc | h_12 hpc | h_20 hpc | h_23 _ hpc | h_24 _ hpc
    | h_25 _ hpc | h_27 hpc =>
    split_ifs at hstep <;> cases hstep <;> exact h.of_go hpc rfl id nofun rfl

theorem producerStep (h : Ending s) (hl : Locks call s) {i : ι} {fail : Bool}
    (hstep : producerStep call s i fail = some s') : Ending s' := by
  obtain ⟨-, hworker, hrun, hqueues⟩ := hl.producer_frame hstep
  refine ⟨?_, fun hdone => ?_, fun hdone => ?_⟩
  · rw [hworker, hrun]
    exact h.stopped
  · rw [hworker] at hdone
    rw [(hqueues (h.stopped (WorkerPc.ending_of_inboxDone hdone))).1]
    exact h.inbox hdone
  · rw [hworker] at hdone
    have hending := WorkerPc.ending_of_inboxDone (WorkerPc.inboxDone_of_overflowDone hdone)
    rw [(hqueues (h.stopped hending)).2]
    exact h.overflow hdone

end Ending

/-! ### Runs -/

/-- All invariants. -/
structure Invariant [DecidableEq ι] (call : ι → Call) (s : State ι) : Prop where
  locks : Locks call s
  places : Places call s
  wakes : Wakes s
  ending : Ending s

theorem Locks.workerStep {call : ι → Call} {s s' : State ι} (h : Locks call s)
    (hacts : WorkerActs s s') : Locks call s' := by
  cases hacts with
  | go hpre hafter hsame hrun harmed =>
    rcases hrun with hsame' | ⟨hfree, hstop⟩
    · exact h.of_eq hsame.mutex hsame.overflowMutex hsame.producers hsame'
    · exact (h.stop hfree).of_eq hsame.mutex hsame.overflowMutex hsame.producers hstop
  | reset _ heq | pass _ _ heq | take _ _ heq | move _ heq | swap _ _ heq | moveBatch _ heq
  | finish _ heq =>
    subst heq
    exact { h with }

variable [DecidableEq ι] {call : ι → Call} {spinIterations : ℕ} {s s' : State ι}

theorem Invariant.initial : Invariant call (.initial : State ι) where
  locks := ⟨fun _ => ⟨nofun, nofun⟩, fun _ => ⟨nofun, nofun⟩, fun _ => trivial, nofun⟩
  places :=
    { nodup := nodup_nil
      mem_accepted := fun _ => ⟨nofun, fun hboth => by cases hboth.1⟩
      counted := rfl
      uncounted_mem := nofun }
  wakes := Wakes.of_unarmed rfl
  ending := ⟨nofun, nofun, nofun⟩

theorem Invariant.step {l : Label ι} (h : Invariant call s)
    (hstep : step call spinIterations s l = some s') : Invariant call s' := by
  cases l with
  | producer i fail =>
    exact ⟨h.locks.producerStep hstep, h.places.producerStep h.locks hstep,
      h.wakes.producerStep h.locks hstep, h.ending.producerStep h.locks hstep⟩
  | worker choice =>
    have hacts := worker_cases hstep
    exact ⟨h.locks.workerStep hacts, h.places.workerStep h.locks hacts,
      h.wakes.workerStep h.places hacts, h.ending.workerStep h.locks h.places hstep⟩
  | stop =>
    simp only [WorkerWake.step] at hstep
    split_ifs at hstep with hfree
    cases hstep
    exact ⟨h.locks.stop hfree, { h.places with }, { h.wakes with },
      { h.ending with stopped := fun _ => rfl }⟩
  | wake =>
    cases hstep
    exact ⟨{ h.locks with }, { h.places with },
      { h.wakes with pending := fun _ _ => .inl rfl, seen := fun _ _ _ _ => .inr rfl },
      { h.ending with }⟩
  | drainingMode on =>
    cases hstep
    exact ⟨{ h.locks with }, { h.places with }, { h.wakes with }, { h.ending with }⟩

theorem invariant_of_reachable (h : (system call spinIterations).Reachable s) : Invariant call s :=
  h.invariant (fun _ hinit => hinit ▸ Invariant.initial) fun _ _ _ hs _ hstep => hs.step hstep

end Elio.WorkerWake
