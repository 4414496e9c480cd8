/-
**The shared mutex: what holds of its operations and queues.**

This is the part of the invariant that does not speak about `state_`: which wake states an operation
can have at which location, when it can be linked into which queue, what a pending grant means, and
that `pending_writers_` counts the queued writers.  It holds in every reachable state.  What
`state_` says about the owners is treated in `Elio/SharedMutexExclusion.lean`.

Main definitions:

* `Op.Ok` — what the invariant says about one operation;
* `Change`, `Quiet` — what a step that writes to one operation leaves alone.

Main results:

* `Inv.change`, `Inv.quiet` — **a step that accounts for the operations it writes to keeps the
  invariant**;
* `step_inv` — every step keeps it.
-/

import Elio.SharedMutex
import Mathlib.Tactic.MkIffOfInductiveProp

set_option autoImplicit false

namespace Elio.SharedMutex

open WakeState

variable {ι : Type*} [DecidableEq ι]

/-! ### The record of one operation after a step -/

section Fields

variable (s : State ι) (i j : ι) (f : Op ι → Op ι)

@[simp, grind =] theorem State.modify_ops :
    (s.modify i f).ops j = if j = i then f (s.ops i) else s.ops j := by
  simp [State.modify, Function.update_apply]

attribute [grind =] State.modify_state State.modify_internalMutex State.modify_pendingWriters
  State.modify_readerWaiters State.modify_writerWaiters

@[simp, grind =] theorem State.goto_eq (pc : Pc ι) :
    s.goto i pc = s.modify i fun o => { o with pc := pc } := rfl

@[simp, grind =] theorem awaitResume_eq : awaitResume s i = s.modify i Op.awaitResume := rfl

attribute [grind =] State.release_ops State.release_state State.release_internalMutex
  State.release_pendingWriters State.release_readerWaiters State.release_writerWaiters

end Fields

/-! ### Kinds of locations -/

/-- Inside `internal_mutex_`. -/
def Pc.isLocked {ι : Type*} : Pc ι → Bool
  | .locked _ => true
  | _ => false

/-- Where a critical section begins. -/
def Cs.isEntry {ι : Type*} : Cs ι → Bool
  | .sharedCheck | .sharedLoad | .sharedUnlink | .lockCheck | .lockCas | .lockUnlink
  | .lastReader _ | .unlockWriters _ | .wake _ => true
  | _ => false

/-- Critical sections before a reader enters the queue. -/
def Cs.sharedEarly {ι : Type*} : Cs ι → Bool
  | .sharedCheck | .sharedLoad | .sharedCas _ | .sharedClaim | .sharedPush => true
  | _ => false

/-- Critical sections before a writer enters the queue. -/
def Cs.lockEarly {ι : Type*} : Cs ι → Bool
  | .lockCheck | .lockCas | .lockOr | .lockRetry | .lockClaim => true
  | _ => false

/-- Locations before `set_handle_blocked` of a cancellable wait. -/
def Pc.unpublished {ι : Type*} : Pc ι → Bool
  | .idle | .readyCheck | .tryLock | .tryLockShared | .tryLockSharedCas _ | .publish => true
  | _ => false

/-- Locations after it, before the operation enters a queue. -/
def Pc.published {ι : Type*} : Pc ι → Bool
  | .suspendLoad | .suspendCas _ => true
  | .enter c | .locked c => c.sharedEarly || c.lockEarly
  | _ => false

/-- Locations of an operation that wants or has the shared lock. -/
def Pc.reader {ι : Type*} : Pc ι → Bool
  | .tryLockShared | .tryLockSharedCas _ | .suspendLoad | .suspendCas _ | .unlockShared _
  | .enter .sharedUnlink | .locked .sharedUnlink | .locked .sharedUnblock => true
  | .enter c | .locked c => c.sharedEarly
  | _ => false

/-- Locations of an operation that wants or has the exclusive lock. -/
def Pc.writer {ι : Type*} : Pc ι → Bool
  | .tryLock | .enter .lockUnlink | .locked .lockUnlink | .locked .lockUnblock
  | .enter (.unlockWriters _) | .locked (.unlockWriters _) | .locked (.unlockReaders _) => true
  | .enter c | .locked c => c.lockEarly
  | _ => false

/-- Locations while a waiter is linked, other than `parked`. -/
def Pc.publishing {ι : Type*} : Pc ι → Bool
  | .locked .sharedUnblock | .locked .lockUnblock => true
  | _ => false

/-- Locations of a cancelled waiter on its way out of the queue. -/
def Pc.unlinking {ι : Type*} : Pc ι → Bool
  | .enter .sharedUnlink | .locked .sharedUnlink | .enter .lockUnlink | .locked .lockUnlink => true
  | _ => false

/-- Critical sections of an operation that has not been selected by a hand-off. -/
def Cs.ungranted {ι : Type*} : Cs ι → Bool
  | .sharedCheck | .sharedLoad | .sharedCas _ | .sharedClaim | .sharedPush | .sharedUnblock
  | .sharedUnlink | .lockCheck | .lockCas | .lockOr | .lockRetry | .lockClaim | .lockUnblock
  | .lockUnlink => true
  | _ => false

/-- Locations of an operation that has not been selected by a hand-off. -/
def Pc.ungranted {ι : Type*} : Pc ι → Bool
  | .idle | .readyCheck | .tryLock | .tryLockShared | .tryLockSharedCas _ | .claim | .publish
  | .suspendLoad | .suspendCas _ => true
  | .enter c | .locked c => c.ungranted
  | _ => false

/-- The value a compare-exchange expects. -/
def Pc.snapshot {ι : Type*} : Pc ι → Option (BitVec 64)
  | .tryLockSharedCas v | .suspendCas v | .locked (.sharedCas v) | .locked (.wakeCas v _) => some v
  | _ => none

omit [DecidableEq ι] in
/-- An operation on its way into or out of a queue has not been selected. -/
theorem Pc.ungranted_of (p : Pc ι) (h : p.unpublished = true ∨ p.published = true ∨
    p.publishing = true ∨ p.unlinking = true) : p.ungranted = true := by
  cases p with
  | enter c | locked c =>
    cases c <;> simp_all [Pc.unpublished, Pc.published, Pc.publishing, Pc.unlinking,
      Pc.ungranted, Cs.ungranted, Cs.sharedEarly, Cs.lockEarly]
  | _ => simp_all [Pc.unpublished, Pc.published, Pc.publishing, Pc.unlinking, Pc.ungranted]

omit [DecidableEq ι] in
/-- Where a refused call goes on. -/
theorem Call.refused_cases (c : Call) :
    (c.refused : Pc ι) = .done .refused ∨ c = .lock ∧ (c.refused : Pc ι) = .enter .lockCas ∨
      c = .lockShared ∧ (c.refused : Pc ι) = .suspendLoad ∨
      (c = .lockToken ∨ c = .lockSharedToken) ∧ (c.refused : Pc ι) = .publish := by
  cases c <;> simp [Call.refused]

/-! ### The invariant -/

/-- What the invariant says about one operation, given whether it holds `internal_mutex_` and is
linked into the queue of readers or of writers. -/
@[mk_iff]
structure Op.Ok {ι : Type*} (o : Op ι) (held inReaders inWriters : Prop) : Prop where
  mutex : held ↔ o.pc.isLocked = true
  entry : ∀ c, o.pc = .enter c → c.isEntry = true
  reader : o.pc.reader = true → o.call.isShared = true
  writer : o.pc.writer = true → o.call.isShared = false
  snapshot : ∀ v, o.pc.snapshot = some v → admits v = true
  cancelled : o.wake.wasCancelled = true → o.cancellable = true
  unpublished : o.pc.unpublished = true → o.wake = .idle ∨ o.wake = .cancelledInline
  token : o.pc = .publish → o.cancellable = true
  published : o.pc.published = true →
    o.wake = .blocked ∧ o.cancellable = true ∨ o.wake = .cancelledInline ∨
      o.wake = .idle ∧ o.cancellable = false
  ungranted : o.pc.ungranted = true → o.handed = false ∧ o.grantPending = false
  idle : o.pc = .idle → o.wake = .idle
  publishing : o.pc.publishing = true →
    o.cancellable = true ∧ o.suspended = true ∧ (o.wake = .blocked ∨ o.wake = .cancelledInline)
  unlinking : o.pc.unlinking = true → o.wake.wasCancelled = true
  parked : o.pc = .parked →
    o.suspended = true ∧ o.wake ≠ .idle ∧ o.wake ≠ .blocked ∧
      (o.wake.notificationWasSelected = true → o.grantPending = true) ∧
      (o.wake = .notificationScheduling → o.handed = true) ∧
      (o.handed = true → o.grantPending = true)
  grant : o.grantPending = true →
    o.pc = .parked ∧ o.wake.wasCancelled = false ∧ (o.cancellable = true → o.wake ≠ .waiting)
  reading : inReaders → o.call.isShared = true ∧ o.grantPending = false ∧ o.handed = false ∧
    (o.pc = .parked ∨ o.pc.publishing = true ∨ o.pc.unlinking = true)
  writing : inWriters → o.call.isShared = false ∧ o.grantPending = false ∧ o.handed = false ∧
    (o.pc = .parked ∨ o.pc.publishing = true ∨ o.pc.unlinking = true)
  linked : o.pc = .locked .lockUnblock → inWriters

/-- `Elio.SharedMutex.Op.Ok` for an operation of a state. -/
def State.OpOk {ι : Type*} (s : State ι) (j : ι) : Prop :=
  (s.ops j).Ok (s.internalMutex = some j) (j ∈ s.readerWaiters) (j ∈ s.writerWaiters)

/-- The reader is selected and `state_` does not count it yet. -/
def State.InTransit {ι : Type*} (s : State ι) (r : ι) : Prop :=
  (s.ops r).grantPending = true ∧ (s.ops r).handed = false ∧ (s.ops r).call.isShared = true

/-- **The invariant.** -/
structure Inv {ι : Type*} (s : State ι) : Prop where
  op : ∀ j, s.OpOk j
  schedule : ∀ j w more out, (s.ops j).pc = .schedule w more out →
    (s.ops w).handed = true ∧ w ≠ j
  transit : ∀ j r v out, (s.ops j).pc = .locked (.finishCas (some r) v out) → s.InTransit r
  pending : s.pendingWriters = s.writerWaiters.length
  nodupReaders : s.readerWaiters.Nodup
  nodupWriters : s.writerWaiters.Nodup

/-! ### Steps that write to one operation -/

/-- What a step of `i` leaves alone. -/
@[mk_iff]
structure Change {ι : Type*} (i : ι) (s s' : State ι) : Prop where
  ops : ∀ j, j ≠ i → s'.ops j = s.ops j
  mutex : ∀ j, j ≠ i → (s'.internalMutex = some j ↔ s.internalMutex = some j)
  reading : ∀ j, j ≠ i → (j ∈ s'.readerWaiters ↔ j ∈ s.readerWaiters)
  writing : ∀ j, j ≠ i → (j ∈ s'.writerWaiters ↔ j ∈ s.writerWaiters)
  handed : (s.ops i).handed = true → (s'.ops i).handed = true
  transit : s.InTransit i → s'.InTransit i
  schedule : ∀ w more out, (s'.ops i).pc = .schedule w more out →
    (s.ops w).handed = true ∧ w ≠ i
  finish : ∀ r v out, (s'.ops i).pc = .locked (.finishCas (some r) v out) →
    ∃ v', (s.ops i).pc = .locked (.finishCas (some r) v' out)

variable {s s' : State ι} {i : ι}

omit [DecidableEq ι] in
/-- **A step that writes to one operation keeps the invariant** when it accounts for its own record
and for the queues. -/
theorem Inv.change (h : Inv s) (i : ι) (c : Change i s s') (hok : s'.OpOk i)
    (hpend : s'.pendingWriters = s'.writerWaiters.length)
    (hreaders : s'.readerWaiters.Nodup) (hwriters : s'.writerWaiters.Nodup) : Inv s' where
  op j := by
    rcases eq_or_ne j i with rfl | hji
    · exact hok
    · have hj := h.op j
      unfold State.OpOk at hj ⊢
      rw [c.ops j hji, c.mutex j hji, c.reading j hji, c.writing j hji]
      exact hj
  schedule j w more out hj := by
    have hold : (s.ops w).handed = true ∧ w ≠ j := by
      rcases eq_or_ne j i with rfl | hji
      · exact c.schedule w more out hj
      · exact h.schedule j w more out (c.ops j hji ▸ hj)
    refine ⟨?_, hold.2⟩
    rcases eq_or_ne w i with rfl | hwi
    · exact c.handed hold.1
    · rw [c.ops w hwi, hold.1]
  transit j r v out hj := by
    have hold : s.InTransit r := by
      rcases eq_or_ne j i with rfl | hji
      · obtain ⟨v', hpc⟩ := c.finish r v out hj
        exact h.transit j r v' out hpc
      · exact h.transit j r v out (c.ops j hji ▸ hj)
    rcases eq_or_ne r i with rfl | hri
    · exact c.transit hold
    · unfold State.InTransit at hold ⊢
      rwa [c.ops r hri]
  pending := hpend
  nodupReaders := hreaders
  nodupWriters := hwriters

/-- What a step of `i` does that leaves the queues alone. -/
@[mk_iff]
structure Quiet {ι : Type*} (i : ι) (s s' : State ι) : Prop where
  ops : ∀ j, j ≠ i → s'.ops j = s.ops j
  mutex : ∀ j, j ≠ i → (s'.internalMutex = some j ↔ s.internalMutex = some j)
  readers : s'.readerWaiters = s.readerWaiters
  writers : s'.writerWaiters = s.writerWaiters
  pending : s'.pendingWriters = s.pendingWriters
  handed : (s.ops i).handed = true → (s'.ops i).handed = true
  transit : s.InTransit i → s'.InTransit i
  schedule : ∀ w more out, (s'.ops i).pc = .schedule w more out →
    (s.ops w).handed = true ∧ w ≠ i
  finish : ∀ r v out, (s'.ops i).pc = .locked (.finishCas (some r) v out) →
    ∃ v', (s.ops i).pc = .locked (.finishCas (some r) v' out)

omit [DecidableEq ι] in
/-- A step that leaves the queues alone keeps the invariant when it accounts for its own record. -/
theorem Inv.quiet (h : Inv s) (i : ι) (q : Quiet i s s') (hok : s'.OpOk i) : Inv s' := by
  have hchange : Change i s s' :=
    { q with
      reading := fun j _ => by rw [q.readers]
      writing := fun j _ => by rw [q.writers] }
  refine h.change i hchange hok ?_ ?_ ?_
  · rw [q.pending, q.writers, h.pending]
  · rw [q.readers]
    exact h.nodupReaders
  · rw [q.writers]
    exact h.nodupWriters

omit [DecidableEq ι] in
theorem Inv.inside (h : Inv s) {c : Cs ι} (hpc : (s.ops i).pc = .locked c) :
    s.internalMutex = some i :=
  (h.op i).mutex.2 (by rw [hpc]; rfl)

attribute [local simp] Op.awaitResume State.OpOk Op.ok_iff quiet_iff Op.cancellable Cs.isEntry
  Cs.sharedEarly Cs.lockEarly Pc.isLocked Pc.unpublished Pc.published Pc.reader Pc.writer
  Pc.publishing Pc.unlinking Cs.ungranted Pc.ungranted Pc.snapshot State.InTransit

variable {out : Outcome} (h : Inv s)

include h

theorem start_inv (c : Call) (hpc : (s.ops i).pc = .idle) : Inv (start s i c) := by
  -- what is known of `i` becomes the context, and `simp_all` runs the step in it
  cases h.op i
  refine h.quiet i ?_ ?_ <;> cases c <;>
    simp_all +contextual [start, Call.entry, Call.isShared, wasCancelled]

/-- A lock-free acquisition succeeded. -/
theorem acquired_inv (v : BitVec 64) (hpc : (s.ops i).pc = .tryLock ∨
    (∃ v, (s.ops i).pc = .tryLockSharedCas v) ∨ ∃ v, (s.ops i).pc = .suspendCas v) :
    Inv (acquired { s with state := v } i) := by
  cases h.op i
  unfold acquired
  rcases hpc with hpc | ⟨v, hpc⟩ | ⟨v, hpc⟩ <;> split_ifs <;> refine h.quiet i ?_ ?_ <;>
    simp_all +contextual

theorem refused_inv (hpc : (s.ops i).pc = .tryLock ∨ (s.ops i).pc = .tryLockShared ∨
    ∃ v, (s.ops i).pc = .tryLockSharedCas v) : Inv (s.goto i (s.ops i).call.refused) := by
  have hi := h.op i
  have hwake := hi.unpublished (by rcases hpc with hpc | hpc | ⟨v, hpc⟩ <;> rw [hpc] <;> rfl)
  rcases hpc with hpc | hpc | ⟨v, hpc⟩ <;> cases hcall : (s.ops i).call <;>
    refine h.quiet i ?_ ?_ <;> cases hi <;>
    simp_all +contextual [Call.refused, Call.isShared, or_comm]

/-- The steps of an operation that has not published its wake state. -/
theorem unpublished_inv (hact : act s i = some s')
    (hpc : (s.ops i).pc = .readyCheck ∨ (s.ops i).pc = .tryLock ∨ (s.ops i).pc = .publish) :
    Inv s' := by
  have hi := h.op i
  rcases hpc with hpc | hpc | hpc <;> rw [act, hpc] at hact <;> cases hact
  · unfold readyCheck
    split_ifs
    · cases hs : (s.ops i).suspended <;> cases hshared : (s.ops i).call.isShared <;>
        refine h.quiet i ?_ ?_ <;> cases hi <;> simp_all +contextual
    all_goals refine h.quiet i ?_ ?_ <;> cases hi <;> simp_all +contextual
  · unfold tryLock
    split_ifs
    · exact acquired_inv h _ (.inl hpc)
    · exact refused_inv h (.inl hpc)
  · cases hshared : (s.ops i).call.isShared <;> cases hs : (s.ops i).suspended <;>
      rcases hi.unpublished (by rw [hpc]; rfl) with hwake | hwake <;>
      refine h.quiet i ?_ ?_ <;> cases hi <;>
      simp_all +contextual [publish, wasCancelled, setHandleBlocked]

/-- The steps of `try_lock_shared`. -/
theorem tryLockShared_inv (hact : act s i = some s')
    (hpc : (s.ops i).pc = .tryLockShared ∨ ∃ v, (s.ops i).pc = .tryLockSharedCas v) : Inv s' := by
  cases h.op i
  have hload : Inv (tryLockShared s i) := by
    unfold tryLockShared
    split_ifs
    · rcases hpc with hpc | ⟨v, hpc⟩ <;> refine h.quiet i ?_ ?_ <;> simp_all +contextual
    · exact refused_inv h (.inr hpc)
  rcases hpc with hpc | ⟨v, hpc⟩ <;> rw [act, hpc] at hact <;> cases hact
  · exact hload
  · unfold tryLockSharedCas
    split_ifs
    · exact acquired_inv h _ (.inr (.inl ⟨v, hpc⟩))
    · exact hload

/-- The steps of a reader that tries `state_` before it locks `internal_mutex_`. -/
theorem suspend_inv (hact : act s i = some s')
    (hpc : (s.ops i).pc = .suspendLoad ∨ ∃ v, (s.ops i).pc = .suspendCas v) : Inv s' := by
  have hi := h.op i
  have hload : Inv (suspendLoad s i) := by
    unfold suspendLoad
    rcases hpc with hpc | ⟨v, hpc⟩ <;> split_ifs <;> refine h.quiet i ?_ ?_ <;> cases hi <;>
      simp_all +contextual
  rcases hpc with hpc | ⟨v, hpc⟩ <;> rw [act, hpc] at hact <;> cases hact
  · exact hload
  · unfold suspendCas
    split_ifs
    · exact acquired_inv h _ (.inr (.inr ⟨v, hpc⟩))
    · exact hload

theorem claim_inv (hpc : (s.ops i).pc = .claim) : Inv (claim s i) := by
  cases h.op i
  have hclaim := @not_wasCancelled_claimNotification (s.ops i).wake
  unfold claim
  split_ifs <;> cases hshared : (s.ops i).call.isShared <;> refine h.quiet i ?_ ?_ <;>
    simp_all +contextual [Op.giveBack]

/-- The critical sections of a reader that is not queued. -/
theorem sharedSection_inv {c : Cs ι} (hpc : (s.ops i).pc = .locked c)
    (hc : c = .sharedCheck ∨ c = .sharedLoad ∨ c = .sharedClaim) : Inv (actLocked s i c) := by
  cases h.op i
  have hclaim := @not_wasCancelled_claimNotification (s.ops i).wake
  rcases hc with rfl | rfl | rfl <;>
    simp only [actLocked, sharedCheck, sharedLoad, sharedClaim, claim] <;> split_ifs
  all_goals
    cases hs : (s.ops i).suspended <;> refine h.quiet i ?_ ?_ <;>
      simp_all +contextual [Op.giveBack, @eq_comm _ i]

theorem sharedCas_inv {v : BitVec 64} (hpc : (s.ops i).pc = .locked (.sharedCas v)) :
    Inv (sharedCas s i v) := by
  have hi := h.op i
  unfold sharedCas
  split_ifs <;> refine h.quiet i ?_ ?_ <;> cases hi <;> simp_all +contextual [@eq_comm _ i]

/-- The critical sections of a writer that is not queued. -/
theorem lockSection_inv {c : Cs ι} (hpc : (s.ops i).pc = .locked c)
    (hc : c = .lockCheck ∨ c = .lockCas ∨ c = .lockOr ∨ c = .lockClaim) :
    Inv (actLocked s i c) := by
  have hi := h.op i
  have hclaim := @not_wasCancelled_claimNotification (s.ops i).wake
  rcases hc with rfl | rfl | rfl | rfl
  case inr.inr.inl =>
    refine h.quiet i ?_ ?_ <;> cases hi <;> simp_all +contextual [actLocked, lockOr]
  all_goals
    simp only [actLocked, lockCheck, lockCas, lockAcquired, lockClaim, claim]
    split_ifs <;> cases hs : (s.ops i).suspended <;> refine h.quiet i ?_ ?_ <;> cases hi <;>
      simp_all +contextual [Op.giveBack, @eq_comm _ i]

theorem unlockShared_inv (hpc : (s.ops i).pc = .unlockShared out) : Inv (unlockShared s i out) := by
  cases h.op i
  unfold unlockShared
  split_ifs <;> refine h.quiet i ?_ ?_ <;> simp_all +contextual

/-- The critical sections of a release that do not touch a queue. -/
theorem releaseSection_inv {c : Cs ι} (hpc : (s.ops i).pc = .locked c)
    (hc : c = .lastReader out ∨ c = .finishLoad out ∨ c = .finishAnd out ∨ c = .wake out ∨
      ∃ v, c = .wakeCas v out) : Inv (actLocked s i c) := by
  cases h.op i
  rcases hc with rfl | rfl | rfl | rfl | ⟨v, rfl⟩
  case inr.inr.inl =>
    refine h.quiet i ?_ ?_ <;> simp_all +contextual [actLocked, finishAnd, @eq_comm _ i]
  all_goals
    simp only [actLocked, lastReader, finishLoad, wake, wakeCas]
    split_ifs <;> refine h.quiet i ?_ ?_ <;> simp_all +contextual [@eq_comm _ i]

theorem resume_inv (hpc : (s.ops i).pc = .parked) (hres : (s.ops i).wake.canResume = true) :
    Inv (awaitResume s i) := by
  cases h.op i
  rcases canResume_iff.1 hres with hwake | hwake <;>
    cases hshared : (s.ops i).call.isShared <;> refine h.quiet i ?_ ?_ <;>
    simp_all +contextual [wasCancelled, notificationWasSelected]

theorem holding_inv (hpc : (s.ops i).pc = .holding) :
    Inv (s.goto i
      (if (s.ops i).call.isShared then .unlockShared .released
      else .enter (.unlockWriters .released))) := by
  cases h.op i
  split_ifs <;> refine h.quiet i ?_ ?_ <;> simp_all +contextual

theorem enter_inv {c : Cs ι} (hpc : (s.ops i).pc = .enter c) (hfree : s.internalMutex = none) :
    Inv ({ s with internalMutex := some i }.goto i (.locked c)) := by
  cases h.op i
  refine h.quiet i ?_ ?_ <;> cases c <;> simp_all +contextual [@eq_comm _ i]

theorem cancel_inv (hact : (s.ops i).active = true) (hc : (s.ops i).cancellable = true) :
    Inv (s.modify i fun o => { o with wake := o.wake.requestCancel.1 }) := by
  have hi := h.op i
  have hidle : (s.ops i).pc ≠ .idle := fun hpc => by simp [Op.active, hpc] at hact
  have hsched := h.schedule i
  have hwake := (s.ops i).wake.requestCancel_cases
  refine h.quiet i (by simp_all +contextual) ?_
  -- the location is any, and the kinds of locations stay closed
  constructor <;> grind -linarith -ext [State.OpOk, Op.Ok, Op.cancellable, wasCancelled,
    notificationWasSelected]

theorem scheduleCancel_inv (hw : (s.ops i).wake = .cancellationClaimed) :
    Inv (s.modify i fun o => { o with wake := o.wake.scheduleClaimed.1 }) := by
  cases h.op i
  have hsched := h.schedule i
  refine h.quiet i ?_ ?_ <;> simp_all +contextual [wasCancelled,
    scheduleClaimed, notificationWasSelected]

end Elio.SharedMutex
