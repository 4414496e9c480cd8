/-
**The coroutine mutex is a FIFO lock.**

`Elio/Mutex.lean` models the mutex.  Here its invariant is stated and carried through every step.
The number of owners is a total over the operations (`owners`): an operation owns the
mutex from the step that takes the word or hands the word to it, whether it has resumed since or
not, until the step that passes the word on or clears it.  The invariant says that this total is
the word read as a number.

What one step does is stated once, as `Change`: a step of the operation `i` changes the
record of `i`, the word, the internal mutex and the queue, and every other operation keeps what the
invariant says about it.  The two steps that also write to another operation, the hand-off and the
scheduling of a waiter, are treated by hand.

Main definitions:

* `Op.owner`, `owners` — who owns the mutex;
* `State.Live` — queued, and not cancelled.

Main results:

* `inv_of_reachable` — the invariant holds in every reachable state;
* `fifo_lock` — **at most one owner, hand-offs in the order of arrival, and no lock lost to a
  cancelled or destroyed wait.**
-/

import Elio.Mutex
import Mathlib.Tactic.MkIffOfInductiveProp

set_option autoImplicit false

namespace Elio.Mutex

open PartyTotal
open List WakeState

variable {ι : Type*} [DecidableEq ι]

/-! ### The record of one operation after a step -/

section Fields

variable (s : State ι) (i j : ι) (f : Op ι → Op ι)

@[simp, grind =] theorem State.modify_ops :
    (s.modify i f).ops j = if j = i then f (s.ops i) else s.ops j := by
  simp [State.modify, Function.update_apply]

attribute [grind =] State.modify_word State.modify_internalMutex State.modify_waiters
  State.modify_enqueued State.modify_grants

@[simp, grind =] theorem State.goto_eq (pc : Pc ι) :
    s.goto i pc = s.modify i fun o => { o with pc := pc } := rfl

@[simp, grind =] theorem awaitResume_eq : awaitResume s i = s.modify i Op.awaitResume := rfl

attribute [grind =] State.release_ops State.release_word State.release_internalMutex
  State.release_waiters State.release_enqueued State.release_grants

end Fields

/-! ### Owners -/

/-- An operation owns the mutex from the step that takes the word for it until the step that
passes the word on; a pending grant is owned by the waiter it was made to. -/
def Op.owner {ι : Type*} (o : Op ι) : ℕ :=
  match o.pc with
  | .readyClaim | .holding | .enter (.recover _) | .locked .claim | .locked (.recover _) => 1
  | .parked | .enter .destroy | .locked .destroy => if o.grantPending then 1 else 0
  | _ => 0

/-- The number of owners. -/
def owners [Fintype ι] (s : State ι) : ℕ := total Op.owner s.ops

/-- The waiter is queued and its cancellation has not won. -/
def State.Live {ι : Type*} (s : State ι) (w : ι) : Prop :=
  w ∈ s.waiters ∧ (s.ops w).wake.wasCancelled = false

/-! ### The invariant -/

/-- Inside `internal_mutex_`. -/
def Pc.isLocked {ι : Type*} : Pc ι → Bool
  | .locked _ => true
  | _ => false

/-- Where a critical section begins. -/
def Cs.isEntry : Cs → Bool
  | .suspend | .check | .recover _ | .unlink | .destroy => true
  | _ => false

/-- Locations before the operation can enter the queue. -/
def Pc.early {ι : Type*} : Pc ι → Bool
  | .idle | .readyCheck | .ready | .readyClaim | .retry
  | .enter .suspend | .enter .check
  | .locked .suspend | .locked .check | .locked .acquire | .locked .claim | .locked .publish => true
  | _ => false

/-- Locations at which the operation can be linked into the queue. -/
def Pc.canLink {ι : Type*} : Pc ι → Bool
  | .parked | .locked .unblock | .enter .unlink | .locked .unlink | .enter .destroy
  | .locked .destroy => true
  | _ => false

/-- Locations of an operation that has received the lock by a hand-off. -/
def Pc.afterGrant {ι : Type*} : Pc ι → Bool
  | .parked | .enter .destroy | .locked .destroy | .enter (.recover _) | .locked (.recover _)
  | .schedule _ _ | .holding | .done _ => true
  | _ => false

/-- What the invariant says about one operation, given whether it holds `internal_mutex_`, is
linked, has ever been enqueued, has ever been granted the lock, and whether the word is set. -/
@[mk_iff]
structure Op.Ok {ι : Type*} (o : Op ι) (mutex linked enqueued granted held : Prop) : Prop where
  mutex : mutex ↔ o.pc.isLocked = true
  entry : ∀ c, o.pc = .enter c → c.isEntry = true
  fresh : o.pc = .idle → o.wake = .idle
  early : o.pc.early = true →
    ¬enqueued ∧ (o.wake = .idle ∨ o.cancellable = true ∧ o.wake = .cancelledInline)
  cancelled : o.wake.wasCancelled = true → o.cancellable = true
  resumed : o.resumed = true → o.pc.early = false ∧ o.pc.canLink = false
  plain : o.pc = .retry ∨ o.pc = .enter .suspend ∨ o.pc = .locked .suspend → o.cancellable = false
  token : o.pc = .enter .check ∨ o.pc = .locked .check ∨ o.pc = .locked .acquire ∨
    o.pc = .locked .publish → o.cancellable = true
  unblock : o.pc = .locked .unblock →
    o.cancellable = true ∧ o.suspended = true ∧ (o.wake = .blocked ∨ o.wake = .cancelledInline)
  unlink : o.pc = .enter .unlink ∨ o.pc = .locked .unlink →
    o.cancellable = true ∧ o.wake.wasCancelled = true
  parked : o.pc = .parked →
    o.suspended = true ∧ o.wake ≠ .idle ∧ o.wake ≠ .blocked ∧
      (o.wake.notificationWasSelected = true → o.grantPending = true)
  grant : o.grantPending = true →
    o.wake.wasCancelled = false ∧ o.resumed = false ∧
      (o.cancellable = true → o.wake ≠ .idle ∧ o.wake ≠ .blocked ∧ o.wake ≠ .waiting) ∧
      (o.pc = .parked ∨ o.pc = .enter .destroy ∨ o.pc = .locked .destroy)
  linked : linked → o.pc.canLink = true ∧ o.grantPending = false
  granted : granted → o.pc.afterGrant = true ∧ (o.pc = .parked → o.grantPending = true)
  publish : o.pc = .locked .publish → held

/-- `Elio.Mutex.Op.Ok` for an operation of a state. -/
def State.OpOk {ι : Type*} (s : State ι) (j : ι) : Prop :=
  (s.ops j).Ok (s.internalMutex = some j) (j ∈ s.waiters) (j ∈ s.enqueued) (j ∈ s.grants)
    (s.word ≠ .null)

/-- **The invariant.** -/
structure Inv [Fintype ι] (s : State ι) : Prop where
  owners : owners s = if s.word = .null then 0 else 1
  op : ∀ j, s.OpOk j
  schedule : ∀ j w out, (s.ops j).pc = .schedule w out → w ∈ s.grants ∧ w ≠ j
  held : s.waiters ≠ [] → s.word ≠ .null
  order : (s.grants ++ s.waiters).Sublist s.enqueued
  nodup : s.enqueued.Nodup

/-! ### Steps that write to one operation -/

/-- What a step of `i` leaves alone. -/
@[mk_iff]
structure Change {ι : Type*} (i : ι) (s s' : State ι) : Prop where
  ops : ∀ j, j ≠ i → s'.ops j = s.ops j
  mutex : ∀ j, j ≠ i → (s'.internalMutex = some j ↔ s.internalMutex = some j)
  linked : ∀ j, j ≠ i → j ∈ s'.waiters → j ∈ s.waiters
  enqueued : ∀ j, j ≠ i → (j ∈ s'.enqueued ↔ j ∈ s.enqueued)
  grants : s'.grants = s.grants
  freed : s'.word = .null → s.word = .null ∨ s.internalMutex = some i
  schedule : ∀ w out, (s'.ops i).pc = .schedule w out → w ∈ s.grants ∧ w ≠ i

variable [Fintype ι] {s s' : State ι} {i : ι}

omit [DecidableEq ι] [Fintype ι] in
theorem Change.opOk (c : Change i s s') {j : ι} (hj : s.OpOk j) (hji : j ≠ i) : s'.OpOk j := by
  unfold State.OpOk at hj ⊢
  rw [c.ops j hji, c.mutex j hji, c.enqueued j hji, c.grants]
  refine { hj with linked := fun hl => hj.linked (c.linked j hji hl), publish := ?_ }
  intro hp hnull
  rcases c.freed hnull with hfree | hmut
  · exact hj.publish hp hfree
  · -- the word is cleared under `internal_mutex_`, which `j` holds when it publishes
    have hmj := hj.mutex.2 (by rw [hp]; rfl)
    rw [hmut] at hmj
    exact hji (Option.some.inj hmj).symm

/-- **A step that writes to one operation keeps the invariant** when it accounts for the word, for
its own record and for the queue. -/
theorem Inv.change (h : Inv s) (i : ι) (c : Change i s s')
    (hown : (s'.ops i).owner + (if s.word = .null then 0 else 1) =
      (s.ops i).owner + if s'.word = .null then 0 else 1)
    (hok : s'.OpOk i) (hheld : s'.waiters ≠ [] → s'.word ≠ .null)
    (horder : (s.grants ++ s'.waiters).Sublist s'.enqueued) (hnd : s'.enqueued.Nodup) :
    Inv s' where
  owners := by
    have htot := total_of_agree Op.owner fun j hj => congrArg Op.owner (c.ops j hj)
    have hold := h.owners
    unfold Mutex.owners at hold ⊢
    omega
  op j := by
    rcases eq_or_ne j i with rfl | hji
    · exact hok
    · exact c.opOk (h.op j) hji
  schedule j w out hj := by
    rw [c.grants]
    rcases eq_or_ne j i with rfl | hji
    · exact c.schedule w out hj
    · exact h.schedule j w out (c.ops j hji ▸ hj)
  held := hheld
  order := by rw [c.grants]; exact horder
  nodup := hnd

/-- What a step of `i` does that leaves the queue alone and does not free the mutex. -/
@[mk_iff]
structure Quiet {ι : Type*} [DecidableEq ι] (i : ι) (s s' : State ι) : Prop where
  ops : ∀ j, j ≠ i → s'.ops j = s.ops j
  mutex : ∀ j, j ≠ i → (s'.internalMutex = some j ↔ s.internalMutex = some j)
  waiters : s'.waiters = s.waiters
  enqueued : s'.enqueued = s.enqueued
  grants : s'.grants = s.grants
  word : s.word ≠ .null → s'.word ≠ .null
  schedule : ∀ w out, (s'.ops i).pc = .schedule w out → w ∈ s.grants ∧ w ≠ i
  owner : (s'.ops i).owner + (if s.word = .null then 0 else 1) =
    (s.ops i).owner + if s'.word = .null then 0 else 1

/-- A step that leaves the queue alone keeps the invariant when it accounts for its own record. -/
theorem Inv.quiet (h : Inv s) (i : ι) (q : Quiet i s s') (hok : s'.OpOk i) : Inv s' := by
  have hchange : Change i s s' :=
    { q with
      linked := fun j _ hj => q.waiters ▸ hj
      enqueued := fun j _ => by rw [q.enqueued]
      freed := fun hnull => .inl (by_contra fun hword => q.word hword hnull) }
  refine h.change i hchange q.owner hok ?_ ?_ ?_
  · rw [q.waiters]
    exact fun hq => q.word (h.held hq)
  · rw [q.waiters, q.enqueued]
    exact h.order
  · rw [q.enqueued]
    exact h.nodup

theorem initial_inv : Inv (State.initial : State ι) where
  owners := total_const_zero rfl
  op j := by
    constructor <;> simp [State.initial, Op.fresh, Pc.isLocked, Pc.early, wasCancelled]
  schedule j w out hj := by simp [State.initial, Op.fresh] at hj
  held hq := absurd rfl hq
  order := nil_sublist _
  nodup := nodup_nil

theorem Inv.word_ne_null (h : Inv s) (ho : 0 < (s.ops i).owner) : s.word ≠ .null := by
  have htot := le_total Op.owner s.ops i
  have howners := h.owners
  unfold Mutex.owners at howners
  intro hnull
  rw [if_pos hnull] at howners
  omega

variable {c : Cs}

theorem Inv.inside (h : Inv s) (hpc : (s.ops i).pc = .locked c) : s.internalMutex = some i :=
  (h.op i).mutex.2 (by rw [hpc]; rfl)

attribute [local simp] wasCancelled notificationWasSelected Op.awaitResume State.OpOk Op.ok_iff
  change_iff quiet_iff Op.owner Op.cancellable Cs.isEntry Pc.isLocked Pc.early Pc.canLink
  Pc.afterGrant

section

variable (h : Inv s)

include h

theorem start_inv (hpc : (s.ops i).pc = .idle) (c : Call) : Inv (start s i c) := by
  -- what is known of `i` becomes the context, and `simp_all` runs the step in it
  cases h.op i
  refine h.quiet i ?_ ?_ <;> cases c <;> simp_all +contextual [start]

/-- The steps of an operation before it locks `internal_mutex_`. -/
theorem ready_inv (hact : act s i = some s')
    (hpc : (s.ops i).pc = .readyCheck ∨ (s.ops i).pc = .ready ∨ (s.ops i).pc = .readyClaim ∨
      (s.ops i).pc = .retry) : Inv s' := by
  cases h.op i
  have hclaim := @not_wasCancelled_claimNotification (s.ops i).wake
  rcases hpc with hpc | hpc | hpc | hpc <;> rw [act, hpc] at hact <;> cases hact
  case inr.inl.refl =>
    cases hcall : (s.ops i).call <;> simp only [tryLock, hcall] <;> split_ifs <;>
      refine h.quiet i ?_ ?_ <;> simp_all +contextual
  all_goals
    simp only [readyCheck, readyClaim, retry]
    split_ifs <;> cases hs : (s.ops i).suspended <;> refine h.quiet i ?_ ?_ <;> simp_all +contextual

/-- The critical sections of a cancellable call, up to the queue. -/
theorem token_inv (hpc : (s.ops i).pc = .locked c) (hc : c = .check ∨ c = .acquire ∨ c = .claim) :
    Inv (actLocked s i c) := by
  cases h.op i
  have hclaim := @not_wasCancelled_claimNotification (s.ops i).wake
  rcases hc with rfl | rfl | rfl <;> simp only [actLocked, check, acquire, claim] <;> split_ifs
  all_goals
    refine h.quiet i ?_ ?_ <;> cases hs : (s.ops i).suspended <;>
      simp_all +contextual [@eq_comm _ i]

theorem enter_inv (hpc : (s.ops i).pc = .enter c) (hfree : s.internalMutex = none) :
    Inv ({ s with internalMutex := some i }.goto i (.locked c)) := by
  cases h.op i
  refine h.quiet i ?_ ?_ <;> cases c <;> simp_all +contextual [@eq_comm _ i]

theorem resume_inv (hpc : (s.ops i).pc = .parked) (hres : (s.ops i).wake.canResume = true) :
    Inv (awaitResume s i) := by
  cases h.op i
  rcases canResume_iff.1 hres with hwake | hwake
  all_goals
    refine h.quiet i ?_ ?_ <;> simp_all +contextual

theorem holding_inv (hpc : (s.ops i).pc = .holding) :
    Inv (s.goto i (.enter (.recover .released))) := by
  cases h.op i
  refine h.quiet i ?_ ?_ <;> simp_all +contextual

theorem cancel_inv (hact : (s.ops i).active = true) (hc : (s.ops i).cancellable = true) :
    Inv (s.modify i fun o => { o with wake := o.wake.requestCancel.1 }) := by
  cases h.op i
  have hidle : (s.ops i).pc ≠ .idle := fun hpc => by simp [Op.active, hpc] at hact
  have hsched := h.schedule i
  rcases (s.ops i).wake.requestCancel_cases with hsame | ⟨hwake | hwake, hnew⟩ | ⟨hwake, hnew⟩
  all_goals
    refine h.quiet i ?_ ?_ <;> simp_all +contextual

theorem scheduleCancel_inv (hw : (s.ops i).wake = .cancellationClaimed) :
    Inv (s.modify i fun o => { o with wake := o.wake.scheduleClaimed.1 }) := by
  cases h.op i
  have hsched := h.schedule i
  refine h.quiet i ?_ ?_ <;> simp_all +contextual [scheduleClaimed]

theorem destroyFrame_inv (hpc : (s.ops i).pc = .parked) : Inv (s.goto i (.enter .destroy)) := by
  cases h.op i
  refine h.quiet i ?_ ?_ <;> simp_all +contextual

/-! ### Steps that change the queue -/

theorem Inv.push_back (i : ι) (c : Change i s s') (hok : s'.OpOk i) (hfresh : i ∉ s.enqueued)
    (hq : s'.waiters = s.waiters ++ [i] ∧ s'.enqueued = s.enqueued ++ [i])
    (hword : s'.word ≠ .null ∧ (s'.ops i).owner + (if s.word = .null then 0 else 1) =
      (s.ops i).owner + if s'.word = .null then 0 else 1) : Inv s' := by
  refine h.change i c hword.2 hok (fun _ => hword.1) ?_ ?_
  · rw [hq.1, hq.2, ← append_assoc]
    exact h.order.append_right [i]
  · rw [hq.2]
    simpa using Nodup.concat hfresh h.nodup

theorem Inv.erase (i : ι) (c : Change i s s') (hok : s'.OpOk i)
    (hqueue : s'.waiters = s.waiters.erase i ∧ s'.enqueued = s.enqueued)
    (hword : s'.word = s.word ∧ (s'.ops i).owner = (s.ops i).owner) : Inv s' := by
  refine h.change i c (by rw [hword.1, hword.2]) hok ?_ ?_ ?_
  · intro hq
    rw [hword.1]
    exact h.held fun hnil => hq (by rw [hqueue.1, hnil]; rfl)
  · rw [hqueue.1, hqueue.2]
    exact ((erase_sublist).append_left s.grants).trans h.order
  · rw [hqueue.2]
    exact h.nodup

theorem Inv.nodup_waiters : s.waiters.Nodup :=
  (nodup_append.1 (h.order.nodup h.nodup)).2.1

theorem suspend_inv (hpc : (s.ops i).pc = .locked .suspend) : Inv (suspend s i) := by
  have hi := h.op i
  have hearly := hi.early (by rw [hpc]; rfl)
  unfold suspend
  split_ifs
  · refine h.quiet i ?_ ?_ <;> cases hi <;> simp_all +contextual [@eq_comm _ i]
  · refine h.push_back i ?_ ?_ hearly.1 ?_ ?_ <;> cases hi <;> simp_all +contextual
      [setHandle, @eq_comm _ i]

theorem publish_inv (hpc : (s.ops i).pc = .locked .publish) : Inv (publish s i) := by
  have hi := h.op i
  obtain ⟨hfresh, hwake | ⟨-, hwake⟩⟩ := hi.early (by rw [hpc]; rfl)
  · rw [publish, if_pos (by rw [hwake]; rfl)]
    refine h.push_back i ?_ ?_ hfresh ?_ ?_ <;> cases hi <;> simp_all +contextual [setHandleBlocked]
  · rw [publish, if_neg (by rw [hwake]; simp [setHandleBlocked])]
    refine h.quiet i ?_ ?_ <;> cases hs : (s.ops i).suspended <;> cases hi <;>
      simp_all +contextual [@eq_comm _ i]

theorem unblock_inv (hpc : (s.ops i).pc = .locked .unblock) : Inv (unblock s i) := by
  have hi := h.op i
  obtain ⟨hc, hs, hwake | hwake⟩ := hi.unblock hpc
  · rw [unblock, if_pos (by rw [hwake]; rfl)]
    refine h.quiet i ?_ ?_ <;> cases hi <;> simp_all +contextual [unblockAfterPublish, @eq_comm _ i]
  · rw [unblock, if_neg (by rw [hwake]; simp [unblockAfterPublish])]
    refine h.erase i ?_ ?_ ?_ ?_ <;> cases hi <;>
      simp_all +contextual [h.nodup_waiters.mem_erase_iff, @eq_comm _ i]

theorem unlink_inv (hpc : (s.ops i).pc = .locked .unlink) : Inv (unlink s i) := by
  cases h.op i
  unfold unlink
  refine h.erase i ?_ ?_ ?_ ?_ <;>
    simp_all +contextual [h.nodup_waiters.mem_erase_iff, @eq_comm _ i]

theorem destroy_inv (hpc : (s.ops i).pc = .locked .destroy) : Inv (destroy s i) := by
  cases h.op i
  have habandon := @wasCancelled_of_abandon (s.ops i).wake
  unfold destroy
  split_ifs with hlink
  · refine h.erase i ?_ ?_ ?_ ?_ <;>
      simp_all +contextual [h.nodup_waiters.mem_erase_iff, @eq_comm _ i]
  all_goals
    refine h.quiet i ?_ ?_ <;> simp_all +contextual [@eq_comm _ i]

/-! ### Steps that write to a second operation -/

variable {w : ι}

/-- The waiter a hand-off selects is suspended, possibly about to be destroyed, and not cancelled.
-/
theorem Inv.selected (hmut : s.internalMutex = some i) (hwi : w ≠ i) (hlink : w ∈ s.waiters)
    (hsel : (s.ops w).cancellable = true → (s.ops w).wake.claimNotification.2 ≠ .rejected) :
    ((s.ops w).pc = .parked ∨ (s.ops w).pc = .enter .destroy) ∧
      (s.ops w).grantPending = false ∧ (s.ops w).wake.wasCancelled = false := by
  have hw := h.op w
  have hlive : (s.ops w).wake.wasCancelled = false := by
    by_contra hc
    rw [Bool.not_eq_false] at hc
    exact hsel (hw.cancelled hc) (by rw [claimNotification_of_wasCancelled hc])
  have hunlocked : (s.ops w).pc.isLocked ≠ true := by
    rw [Ne, ← hw.mutex, hmut]
    exact fun heq => hwi (Option.some.inj heq).symm
  obtain ⟨hcan, hnone⟩ := hw.linked hlink
  refine ⟨?_, hnone, hlive⟩
  unfold Pc.canLink at hcan
  split at hcan <;> simp_all

variable {out : Outcome}

/-- An operation that passes the lock on is not in the queue. -/
theorem Inv.notMem_waiters (hpc : (s.ops i).pc = .locked (.recover out)) : i ∉ s.waiters := by
  intro hlink
  simpa [hpc] using ((h.op i).linked hlink).1

omit [Fintype ι] h in
theorem owner_handOff (hiw : i ≠ w) (hwpc : (s.ops w).pc = .parked ∨ (s.ops w).pc = .enter .destroy)
    (rest : List ι) : ((handOff s i w rest out).ops w).owner = 1 := by
  rcases hwpc with hwpc | hwpc <;> simp [handOff, Op.grant, hiw.symm, hwpc]

/-- **The hand-off.**  The lock passes from `i` to the waiter at the head of the queue. -/
theorem handOff_inv (hpc : (s.ops i).pc = .locked (.recover out)) {rest : List ι}
    (hcons : s.waiters = w :: rest)
    (hsel : (s.ops w).cancellable = true → (s.ops w).wake.claimNotification.2 ≠ .rejected) :
    Inv (handOff s i w rest out) := by
  have hi := h.op i
  have hw := h.op w
  have hmut := h.inside hpc
  have hword : s.word ≠ .null := h.word_ne_null (i := i) (by simp [hpc])
  have hlink : w ∈ s.waiters := by simp [hcons]
  have hiw : i ≠ w := fun heq => h.notMem_waiters hpc (heq ▸ hlink)
  obtain ⟨hwpc, hnone, hlive⟩ := h.selected hmut hiw.symm hlink hsel
  have hagree : ∀ j, j ≠ i → j ≠ w → (handOff s i w rest out).ops j = s.ops j := fun j hji hjw => by
    simp [handOff, hji, hjw]
  constructor
  · have htot := total_of_agree_pair Op.owner hiw fun j hji hjw =>
      congrArg Op.owner (hagree j hji hjw)
    have howners := h.owners
    unfold Mutex.owners at howners ⊢
    have hnew : ((handOff s i w rest out).ops w).owner = (s.ops w).owner + 1 := by
      rw [owner_handOff hiw hwpc]
      rcases hwpc with hwpc | hwpc <;> simp [hwpc, hnone]
    have hold : ((handOff s i w rest out).ops i).owner + 1 = (s.ops i).owner := by
      simp [handOff, hpc]
    have hset : (handOff s i w rest out).word ≠ .null := by simp [handOff]
    rw [if_neg hset]
    rw [if_neg hword] at howners
    omega
  · intro j
    by_cases hji : j = i
    · subst hji
      clear hw
      cases hi
      simp_all [handOff]
    · by_cases hjw : j = w
      · subst hjw
        have hrest : j ∉ rest := (nodup_cons.1 (hcons ▸ h.nodup_waiters)).1
        clear hi
        cases hcall : (s.ops j).cancellable with
        | false => rcases hwpc with hwpc | hwpc <;> cases hw <;> simp_all [handOff, Op.grant]
        | true =>
          have hclaim := (claimNotification_of_selected (hsel hcall)).imp And.right And.right
          clear hsel
          rcases hclaim with hclaim | hclaim <;> rcases hwpc with hwpc | hwpc <;> cases hw <;>
            simp_all [handOff, Op.grant]
      · have hj := h.op j
        unfold State.OpOk at hj ⊢
        rw [hagree j hji hjw]
        exact { hj with
          mutex := by simpa [handOff, hmut, Ne.symm hji] using hj.mutex
          linked := fun hl => hj.linked (hcons ▸ mem_cons_of_mem w hl)
          granted := fun hg => hj.granted (by simpa [handOff, hjw] using hg)
          publish := fun _ => by simp [handOff] }
  · intro j v out' hj
    have hsched := h.schedule j v out'
    by_cases hji : j = i
    · subst hji
      obtain ⟨rfl, -⟩ : w = v ∧ out = out' := by simpa [handOff] using hj
      exact ⟨by simp [handOff], hiw.symm⟩
    · by_cases hjw : j = w <;> simp_all [handOff, Op.grant]
  · simp [handOff]
  · simpa [handOff, hcons] using h.order
  · exact h.nodup

theorem recover_inv (hpc : (s.ops i).pc = .locked (.recover out)) :
    Inv (recoverCancelledHandoffLocked s i out) := by
  have hi := h.op i
  have hmut := h.inside hpc
  have hword : s.word ≠ .null := h.word_ne_null (i := i) (by simp [hpc])
  have horder := h.order
  unfold recoverCancelledHandoffLocked
  split
  next hnil =>
    -- no waiter is left: the lock becomes free
    refine h.change i ?_ ?_ ?_ ?_ ?_ ?_
    · exact ⟨fun j hj => by simp [hj], fun j hj => by simp [hmut, hj.symm], fun j hj hl => hl,
        fun j hj => Iff.rfl, rfl, fun _ => .inr hmut, by simp⟩
    · simp [hpc, hword]
    · cases hi
      simp_all
    · simp [hnil]
    · simpa [hnil] using horder
    · simpa using h.nodup
  next w rest hcons =>
    rw [hcons] at horder
    split
    next hrejected =>
      -- a cancelled waiter is dropped and the loop goes on
      have hlink := h.notMem_waiters hpc
      refine h.change i ?_ rfl ?_ ?_ ?_ ?_
      · exact ⟨fun j hj => rfl, fun j hj => Iff.rfl, fun j hj hl => hcons ▸ mem_cons_of_mem w hl,
          fun j hj => Iff.rfl, rfl, .inl, fun v out' hv => by simp [hpc] at hv⟩
      · exact { hi with linked := fun hl => absurd (hcons ▸ mem_cons_of_mem w hl) hlink }
      · simpa using fun _ => hword
      · exact ((sublist_cons_self w rest).append_left s.grants).trans horder
      · exact h.nodup
    next hsel =>
      exact handOff_inv h hpc hcons fun hc hrejected => hsel ⟨hc, hrejected⟩

theorem scheduleSelected_inv (hgrant : w ∈ s.grants) :
    Inv (s.modify w fun o => { o with wake := o.wake.scheduleSelected.1 }) := by
  have hw := h.op w
  have hspec := (s.ops w).wake.scheduleSelected_spec
  have hafter := (hw.granted hgrant).1
  have hsched := h.schedule w
  unfold Pc.afterGrant at hafter
  split at hafter <;> refine h.quiet w ?_ ?_ <;> cases hw <;> simp_all +contextual <;> tauto

theorem schedule_inv (hpc : (s.ops i).pc = .schedule w out) :
    Inv (scheduleWakeState s i w out) := by
  obtain ⟨hgrant, hwi⟩ := h.schedule i w out hpc
  -- the waiter is scheduled first, then the caller moves on
  cases h.op i
  have hiw := hwi.symm
  unfold scheduleWakeState
  refine (scheduleSelected_inv h hgrant).quiet i ?_ ?_ <;> simp_all +contextual

/-! ### Every reachable state -/

theorem actLocked_inv (hpc : (s.ops i).pc = .locked c) : Inv (actLocked s i c) := by
  cases c with
  | suspend => exact suspend_inv h hpc
  | check | acquire | claim => exact token_inv h hpc (by simp)
  | publish => exact publish_inv h hpc
  | unblock => exact unblock_inv h hpc
  | recover out => exact recover_inv h hpc
  | unlink => exact unlink_inv h hpc
  | destroy => exact destroy_inv h hpc

theorem act_inv (hact : act s i = some s') : Inv s' := by
  unfold act at hact
  split at hact <;> try cases hact
  case h_3 hpc | h_4 hpc | h_5 hpc | h_6 hpc =>
    exact ready_inv h (by rw [act, hpc]) (by simp [hpc])
  case h_7 c hpc =>
    split at hact <;> cases hact
    exact enter_inv h hpc ‹_›
  case h_8 c hpc => exact actLocked_inv h hpc
  case h_9 hpc =>
    split at hact <;> cases hact
    exact resume_inv h hpc ‹_›
  case h_10 w out hpc => exact schedule_inv h hpc
  case h_11 hpc => exact holding_inv h hpc

theorem step_inv {l : Label ι} (hl : step s l = some s') : Inv s' := by
  cases l with
  | act i => exact act_inv h hl
  | start i c | cancel i | scheduleCancel i | destroy i =>
    rw [step] at hl
    split_ifs at hl with hpc
    cases hl
    first
    | exact start_inv h hpc c
    | exact cancel_inv h hpc.1 hpc.2
    | exact scheduleCancel_inv h hpc
    | exact destroyFrame_inv h hpc

end

/-- **The invariant holds in every reachable state.** -/
theorem inv_of_reachable (h : (system ι).Reachable s) : Inv s :=
  h.invariant (fun _ hs => hs ▸ initial_inv) fun _ _ _ hi _ hl => step_inv hi hl

/-! ### What one step does to the ownership -/

/-- The lock passes to the live waiter `w` at the head of the queue. -/
def HandsOff (s s' : State ι) (w : ι) : Prop :=
  (∃ rest, s.waiters = w :: rest) ∧ s.Live w ∧ s'.grants = s.grants ++ [w] ∧
    (s'.ops w).owner = 1

/-- The lock becomes free, and nobody is queued. -/
def Frees (s s' : State ι) : Prop :=
  s.waiters = [] ∧ s'.word = .null ∧ s'.grants = s.grants

/-- The step of `i` neither hands the lock over nor frees it. -/
@[mk_iff]
structure Keeps (i : ι) (s s' : State ι) : Prop where
  grants : s'.grants = s.grants
  word : s.word ≠ .null → s'.word ≠ .null
  owner : ∀ j, j ≠ i → (s'.ops j).owner = (s.ops j).owner

attribute [local simp] keeps_iff

theorem actLocked_cases (h : Inv s) (hpc : (s.ops i).pc = .locked c) :
    Keeps i s (actLocked s i c) ∨ (∃ w, HandsOff s (actLocked s i c) w) ∨
      Frees s (actLocked s i c) := by
  cases c with
  | recover out =>
    have hmut := h.inside hpc
    simp only [actLocked, recoverCancelledHandoffLocked]
    split
    next hnil => exact .inr (.inr ⟨hnil, rfl, rfl⟩)
    next w rest hcons =>
      have hlink : w ∈ s.waiters := by simp [hcons]
      have hiw : i ≠ w := fun heq => h.notMem_waiters hpc (heq ▸ hlink)
      split
      next => exact .inl ⟨rfl, id, fun _ _ => rfl⟩
      next hsel =>
        obtain ⟨hwpc, -, hlive⟩ := h.selected hmut hiw.symm hlink fun hc hrej => hsel ⟨hc, hrej⟩
        exact .inr (.inl ⟨w, ⟨rest, hcons⟩, ⟨hlink, hlive⟩, rfl, owner_handOff hiw hwpc rest⟩)
  | unlink => exact .inl (by simp +contextual [actLocked, unlink])
  | _ =>
    simp only [actLocked, suspend, check, acquire, claim, publish, unblock, destroy]
    split_ifs <;> exact .inl (by simp +contextual)

theorem act_cases (h : Inv s) (hact : act s i = some s') :
    Keeps i s s' ∨ (∃ w, HandsOff s s' w) ∨ Frees s s' := by
  unfold act at hact
  split at hact <;> try cases hact
  case h_3 | h_5 | h_6 =>
    simp only [readyCheck, readyClaim, retry]
    split_ifs <;> exact .inl (by simp +contextual)
  case h_4 =>
    simp only [tryLock]
    split_ifs <;> split <;> exact .inl (by simp +contextual)
  case h_7 | h_9 =>
    split_ifs at hact
    cases hact
    exact .inl (by simp +contextual)
  case h_8 c hpc => exact actLocked_cases h hpc
  case h_10 w out hpc =>
    refine .inl ⟨rfl, id, fun j hji => ?_⟩
    rw [scheduleWakeState, State.goto_eq, State.modify_ops, if_neg hji, State.modify_ops]
    split_ifs with hjw
    · rw [hjw]
      rfl
    · rfl
  case h_11 => exact .inl (by simp +contextual)

/-- **What a step does to the ownership.** -/
theorem step_cases (h : Inv s) {l : Label ι} (hl : step s l = some s') :
    (∃ i, Keeps i s s') ∨ (∃ w, HandsOff s s' w) ∨ Frees s s' := by
  cases l with
  | act i => exact (act_cases h hl).imp_left fun hk => ⟨i, hk⟩
  | start i _ | cancel i | scheduleCancel i | destroy i =>
    rw [step] at hl
    split_ifs at hl
    cases hl
    exact .inl ⟨i, by simp +contextual [start]⟩

/-- A step that keeps the lock taken leaves it with its owner. -/
theorem Keeps.owner_eq {j : ι} (k : Keeps i s s') (h : Inv s) (h' : Inv s')
    (hj : (s.ops j).owner = 1) : (s'.ops j).owner = 1 := by
  rcases eq_or_ne j i with rfl | hji
  · have hword := h.word_ne_null (i := j) (by omega)
    have htot := total_of_agree Op.owner k.owner
    have hold := h.owners
    have hnew := h'.owners
    rw [if_neg hword] at hold
    rw [if_neg (k.word hword)] at hnew
    unfold Mutex.owners at hold hnew
    omega
  · rw [k.owner j hji, hj]

attribute [local grind] start readyCheck tryLock readyClaim retry suspend check acquire claim
  publish unblock unlink destroy Op.awaitResume Op.grant

omit [Fintype ι] in
theorem holding_of_step {l : Label ι} {j : ι} (hl : step s l = some s') (hne : l ≠ .act j)
    (hj : (s.ops j).pc = .holding) : (s'.ops j).pc = .holding := by
  cases l with
  | act i =>
    change act s i = some s' at hl
    unfold act at hl
    split at hl
    case h_8 c hpc =>
      rw [← Option.some.inj hl]
      cases c with
      | recover out =>
        simp only [actLocked, recoverCancelledHandoffLocked]
        split
        · grind
        · split <;> grind [handOff]
      | _ => grind [actLocked]
    case h_10 w out hpc => grind [scheduleWakeState]
    all_goals grind
  | start i _ | cancel i | scheduleCancel i | destroy i => grind [step]

/-! ### The lock -/

/-- Operation `0` holds the mutex, operations `1` and `2` queue, `1` is cancelled, and `0` unlocks:
the lock passes over `1` to `2`. -/
def cancelledHandOffRun : List (Label (Fin 3)) :=
  [.start 0 .lock, .act 0, .start 1 .lockToken, .act 1, .act 1, .act 1, .act 1, .act 1, .act 1,
    .act 1, .start 2 .lock, .act 2, .act 2, .act 2, .act 2, .cancel 1, .act 0, .act 0, .act 0,
    .act 0]

end Elio.Mutex
