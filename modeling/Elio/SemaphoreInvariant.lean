/-
**The coroutine semaphore conserves its permits.**

`Elio/Semaphore.lean` models the semaphore.  A permit is in `count_`, or with the operation that
acquired it, was granted it or is handing it back; the operations' share is a total
(`acquired`).  The invariant says that the two add up to the permits the semaphore was
made with and those released since.  It also says that permits and waiters exclude each other: while
somebody is queued, `count_` is zero.

Main definitions:

* `Op.permits`, `acquired` — the permits the operations have;
* `State.Live` — queued, and not cancelled.

Main results:

* `inv_of_reachable` — the invariant holds in every reachable state;
* `conserves_permits` — **no interleaving of acquisitions, releases, cancellations and destructions
  loses or mints a permit, and none leaves a live waiter beside a free permit.**
-/

import Elio.Semaphore
import Mathlib.Tactic.MkIffOfInductiveProp

set_option autoImplicit false

namespace Elio.Semaphore

open PartyTotal
open List WakeState

variable {ι : Type*} [DecidableEq ι]

/-! ### The record of one operation after a step -/

section Fields

variable (s : State ι) (i j : ι) (f : Op ι → Op ι)

@[simp] theorem State.modify_ops :
    (s.modify i f).ops j = if j = i then f (s.ops i) else s.ops j := by
  simp [State.modify, Function.update_apply]

@[simp] theorem State.goto_eq (pc : Pc ι) :
    s.goto i pc = s.modify i fun o => { o with pc := pc } := rfl

@[simp] theorem awaitResume_eq : awaitResume s i = s.modify i Op.awaitResume := rfl

end Fields

/-! ### Permits -/

/-- The permits of an operation: one from the step that debits it or grants it, until the step that
passes it on or puts it back.  The permit of an acquisition that completed stays with the caller. -/
def Op.permits {ι : Type*} (o : Op ι) : ℕ :=
  match o.pc with
  | .holding | .locked .claim | .locked (.recover _) => 1
  | .parked | .enter .destroy | .locked .destroy => if o.grantPending then 1 else 0
  | _ => 0

/-- The permits all operations have: held by callers, granted, or being handed back. -/
def acquired [Fintype ι] (s : State ι) : ℕ := total Op.permits s.ops

/-- The waiter is queued and its cancellation has not won. -/
def State.Live {ι : Type*} (s : State ι) (w : ι) : Prop :=
  w ∈ s.waiters ∧ (s.ops w).wake.wasCancelled = false

/-! ### The invariant -/

/-- Inside `mutex_`. -/
def Pc.isLocked {ι : Type*} : Pc ι → Bool
  | .locked _ => true
  | _ => false

/-- Where a critical section begins. -/
def Cs.isEntry {ι : Type*} : Cs ι → Bool
  | .tryAcquire | .readyClaim | .suspend | .check | .release _ _ | .unlink | .destroy => true
  | _ => false

/-- Locations of an operation that is not cancellable. -/
def Pc.plain {ι : Type*} : Pc ι → Bool
  | .enter .tryAcquire | .locked .tryAcquire | .enter .suspend | .locked .suspend
  | .enter (.release _ _) | .locked (.release _ _) => true
  | _ => false

/-- Locations of a cancellable operation before it can enter the queue. -/
def Pc.token {ι : Type*} : Pc ι → Bool
  | .readyCheck | .enter .readyClaim | .locked .readyClaim | .enter .check | .locked .check
  | .locked .acquire | .locked .claim | .locked .publish => true
  | _ => false

/-- Locations at which the operation can be linked into the queue. -/
def Pc.canLink {ι : Type*} : Pc ι → Bool
  | .parked | .locked .unblock | .enter .unlink | .locked .unlink | .enter .destroy
  | .locked .destroy => true
  | _ => false

/-- Locations of an operation that has been granted a permit. -/
def Pc.afterGrant {ι : Type*} : Pc ι → Bool
  | .parked | .enter .destroy | .locked .destroy | .locked (.recover _) | .schedule _ _
  | .holding | .done _ => true
  | _ => false

/-- The wake states still to be scheduled. -/
def Pc.toSchedule {ι : Type*} : Pc ι → List ι
  | .enter (.release _ ws) | .locked (.release _ ws) | .schedule ws _ => ws
  | _ => []

/-- What the invariant says about one operation, given whether it holds `mutex_`, is linked, and
whether `count_` is zero. -/
@[mk_iff]
structure Op.Ok {ι : Type*} (o : Op ι) (mutex linked empty : Prop) : Prop where
  mutex : mutex ↔ o.pc.isLocked = true
  entry : ∀ c, o.pc = .enter c → c.isEntry = true
  fresh : o.pc = .idle → o.wake = .idle ∧ o.granted = false ∧ o.resumed = false
  plain : o.pc.plain = true →
    o.granted = false ∧ o.resumed = false ∧ o.cancellable = false ∧ o.wake = .idle
  token : o.pc.token = true →
    o.granted = false ∧ o.resumed = false ∧ o.cancellable = true ∧
      (o.wake = .idle ∨ o.wake = .cancelledInline)
  cancelled : o.wake.wasCancelled = true → o.cancellable = true
  unblock : o.pc = .locked .unblock →
    o.cancellable = true ∧ o.suspended = true ∧ (o.wake = .blocked ∨ o.wake = .cancelledInline)
  unlink : o.pc = .enter .unlink ∨ o.pc = .locked .unlink →
    o.cancellable = true ∧ o.wake.wasCancelled = true
  parked : o.pc = .parked →
    o.suspended = true ∧ o.wake ≠ .idle ∧ o.wake ≠ .blocked ∧
      (o.wake.notificationWasSelected = true → o.grantPending = true)
  grant : o.grantPending = true →
    o.wake.wasCancelled = false ∧ o.resumed = false ∧
      (o.cancellable = true → o.wake ≠ .idle ∧ o.wake ≠ .blocked ∧ o.wake ≠ .waiting) ∧
      (o.pc = .parked ∨ o.pc = .enter .destroy ∨ o.pc = .locked .destroy)
  linked : linked → o.pc.canLink = true ∧ o.grantPending = false ∧ o.resumed = false
  granted : o.granted = true → o.pc.afterGrant = true ∧ (o.pc = .parked → o.grantPending = true)
  publish : o.pc = .locked .publish → empty

/-- `Elio.Semaphore.Op.Ok` for an operation of a state. -/
def State.OpOk {ι : Type*} (s : State ι) (j : ι) : Prop :=
  (s.ops j).Ok (s.mutex = some j) (j ∈ s.waiters) (s.count = 0)

/-- **The invariant.** -/
structure Inv [Fintype ι] (s : State ι) : Prop where
  conserve : s.count + acquired s = s.initialCount + s.released
  nonneg : 0 ≤ s.count
  op : ∀ j, s.OpOk j
  schedule : ∀ j w, w ∈ (s.ops j).pc.toSchedule → (s.ops w).granted = true ∧ w ≠ j
  empty : s.waiters ≠ [] → s.count = 0
  nodup : s.waiters.Nodup

/-! ### Steps that write to one operation -/

/-- What a step of `i` leaves alone. -/
@[mk_iff]
structure Change {ι : Type*} (i : ι) (s s' : State ι) : Prop where
  ops : ∀ j, j ≠ i → s'.ops j = s.ops j
  mutex : ∀ j, j ≠ i → (s'.mutex = some j ↔ s.mutex = some j)
  linked : ∀ j, j ≠ i → j ∈ s'.waiters → j ∈ s.waiters
  count : s'.count = s.count ∨ s.mutex = some i
  initialCount : s'.initialCount = s.initialCount
  granted : (s.ops i).granted = true → (s'.ops i).granted = true
  schedule : ∀ w, w ∈ (s'.ops i).pc.toSchedule → w ∈ (s.ops i).pc.toSchedule

variable [Fintype ι] {s s' : State ι} {i : ι}

omit [DecidableEq ι] [Fintype ι] in
theorem Change.opOk (c : Change i s s') {j : ι} (hj : s.OpOk j) (hji : j ≠ i) : s'.OpOk j := by
  unfold State.OpOk at hj ⊢
  rw [c.ops j hji, c.mutex j hji]
  refine { hj with linked := fun hl => hj.linked (c.linked j hji hl), publish := fun hp => ?_ }
  rcases c.count with hcnt | hmut
  · exact hcnt ▸ hj.publish hp
  · -- `count_` changes under `mutex_`, which `j` holds when it publishes
    have hmj := hj.mutex.2 (by rw [hp]; rfl)
    rw [hmut] at hmj
    exact absurd (Option.some.inj hmj).symm hji

/-- **A step that writes to one operation keeps the invariant** when it accounts for its permits,
for its own record and for the queue. -/
theorem Inv.change (h : Inv s) (i : ι) (c : Change i s s')
    (hperm : s'.count + (s'.ops i).permits + s.released =
      s.count + (s.ops i).permits + s'.released)
    (hnonneg : 0 ≤ s'.count) (hok : s'.OpOk i) (hemp : s'.waiters ≠ [] → s'.count = 0)
    (hnd : s'.waiters.Nodup) : Inv s' where
  conserve := by
    have htot := total_of_agree Op.permits fun j hj => congrArg Op.permits (c.ops j hj)
    have hold := h.conserve
    rw [c.initialCount]
    unfold acquired at hold ⊢
    omega
  nonneg := hnonneg
  op j := by
    rcases eq_or_ne j i with rfl | hji
    · exact hok
    · exact c.opOk (h.op j) hji
  schedule j w hw := by
    have hold : w ∈ (s.ops j).pc.toSchedule := by
      rcases eq_or_ne j i with rfl | hji
      · exact c.schedule w hw
      · exact c.ops j hji ▸ hw
    obtain ⟨hgrant, hne⟩ := h.schedule j w hold
    refine ⟨?_, hne⟩
    rcases eq_or_ne w i with rfl | hwi
    · exact c.granted hgrant
    · rw [c.ops w hwi, hgrant]
  empty := hemp
  nodup := hnd

/-- What a step of `i` does that leaves the queue alone and adds no permit to `count_`. -/
@[mk_iff]
structure Quiet {ι : Type*} (i : ι) (s s' : State ι) : Prop where
  ops : ∀ j, j ≠ i → s'.ops j = s.ops j
  mutex : ∀ j, j ≠ i → (s'.mutex = some j ↔ s.mutex = some j)
  waiters : s'.waiters = s.waiters
  count : s'.count = s.count ∨ s.mutex = some i ∧ 0 < s.count ∧ s'.count = s.count - 1
  initialCount : s'.initialCount = s.initialCount
  granted : (s.ops i).granted = true → (s'.ops i).granted = true
  schedule : ∀ w, w ∈ (s'.ops i).pc.toSchedule → w ∈ (s.ops i).pc.toSchedule
  permits : s'.count + (s'.ops i).permits + s.released =
    s.count + (s.ops i).permits + s'.released

/-- A step that leaves the queue alone keeps the invariant when it accounts for its own record. -/
theorem Inv.quiet (h : Inv s) (i : ι) (q : Quiet i s s') (hok : s'.OpOk i) : Inv s' := by
  have hnonneg := h.nonneg
  have hcnt := q.count
  have hchange : Change i s s' :=
    { q with
      linked := fun j _ hj => q.waiters ▸ hj
      count := hcnt.imp_right And.left }
  refine h.change i hchange q.permits (by omega) hok ?_ (q.waiters ▸ h.nodup)
  rw [q.waiters]
  intro hq
  have hzero := h.empty hq
  omega

/-- The step moves no permit. -/
def SamePermits {ι : Type*} (i : ι) (s s' : State ι) : Prop :=
  s'.count = s.count ∧ (s'.ops i).permits = (s.ops i).permits ∧ s'.released = s.released

theorem Inv.push_back (h : Inv s) (i : ι) (c : Change i s s') (hok : s'.OpOk i)
    (hfresh : i ∉ s.waiters) (hwaiters : s'.waiters = s.waiters ++ [i]) (hold : s.count = 0)
    (hsame : SamePermits i s s') : Inv s' := by
  obtain ⟨hcnt, hperm, hrel⟩ := hsame
  refine h.change i c (by omega) (by omega) hok (fun _ => by omega) ?_
  rw [hwaiters]
  simpa using Nodup.concat hfresh h.nodup

theorem Inv.erase (h : Inv s) (i : ι) (c : Change i s s') (hok : s'.OpOk i)
    (hwaiters : s'.waiters = s.waiters.erase i) (hsame : SamePermits i s s') : Inv s' := by
  have hnonneg := h.nonneg
  obtain ⟨hcnt, hperm, hrel⟩ := hsame
  refine h.change i c (by omega) (by omega) hok ?_ (hwaiters ▸ h.nodup.erase i)
  intro hq
  rw [hcnt]
  exact h.empty fun hnil => hq (by rw [hwaiters, hnil]; rfl)

omit [DecidableEq ι] in
theorem initial_inv (n : ℕ) : Inv (State.initial n : State ι) where
  conserve := by
    have hzero : acquired (State.initial n : State ι) = 0 := total_const_zero rfl
    rw [hzero]
    simp [State.initial]
  nonneg := Int.natCast_nonneg n
  op j := by
    constructor <;> simp [State.initial, Op.fresh, Pc.isLocked, Pc.plain, Pc.token,
      wasCancelled]
  schedule j w hw := by simp [State.initial, Op.fresh, Pc.toSchedule] at hw
  empty hq := absurd rfl hq
  nodup := nodup_nil

omit [DecidableEq ι] in
theorem Inv.inside (h : Inv s) {c : Cs ι} (hpc : (s.ops i).pc = .locked c) :
    s.mutex = some i :=
  (h.op i).mutex.2 (by rw [hpc]; rfl)

attribute [local simp] wasCancelled notificationWasSelected Op.awaitResume State.OpOk Op.ok_iff
  change_iff quiet_iff SamePermits Op.permits Op.cancellable Cs.isEntry Pc.isLocked Pc.plain
  Pc.token Pc.canLink Pc.afterGrant Pc.toSchedule

variable {w : ι} {out : Outcome} {toSchedule : List ι}

section

variable (h : Inv s)

include h

theorem start_inv (hpc : (s.ops i).pc = .idle) (c : Call) : Inv (start s i c) := by
  -- what is known of `i` becomes the context, and `simp_all` runs the step in it
  cases h.op i
  refine h.quiet i ?_ ?_ <;> cases c <;> simp_all +contextual [start, Call.entry]

theorem readyCheck_inv (hpc : (s.ops i).pc = .readyCheck) : Inv (readyCheck s i) := by
  cases h.op i
  unfold readyCheck
  split_ifs <;> refine h.quiet i ?_ ?_ <;> cases hs : (s.ops i).suspended <;> simp_all +contextual

theorem tryAcquire_inv (hpc : (s.ops i).pc = .locked .tryAcquire) : Inv (tryAcquire s i) := by
  cases h.op i
  unfold tryAcquire
  split_ifs <;> cases hcall : (s.ops i).call <;> refine h.quiet i ?_ ?_ <;>
    simp_all +contextual [@eq_comm _ i]

/-- The critical sections of a cancellable acquisition, up to the queue. -/
theorem token_inv {c : Cs ι} (hpc : (s.ops i).pc = .locked c)
    (hc : c = .readyClaim ∨ c = .check ∨ c = .acquire ∨ c = .claim) : Inv (actLocked s i c) := by
  have hi := h.op i
  have hnonneg := h.nonneg
  have hpos : s.count ≠ 0 → 0 < s.count := fun hne => by omega
  have hzero : s.count ≤ 0 → s.count = 0 := fun hle => by omega
  rcases hc with rfl | rfl | rfl | rfl <;>
    simp only [actLocked, readyClaim, check, acquire, claim] <;> split_ifs
  all_goals
    obtain ⟨-, -, hc, hwake | hwake⟩ := hi.token (by rw [hpc]; rfl) <;> refine h.quiet i ?_ ?_ <;>
      cases hs : (s.ops i).suspended <;> cases hi <;>
      simp_all +contextual [claimNotification, @eq_comm _ i]

theorem enter_inv {c : Cs ι} (hpc : (s.ops i).pc = .enter c) (hfree : s.mutex = none) :
    Inv ({ s with mutex := some i }.goto i (.locked c)) := by
  cases h.op i
  refine h.quiet i ?_ ?_ <;> cases c <;> simp_all +contextual [@eq_comm _ i]

theorem resume_inv (hpc : (s.ops i).pc = .parked) (hres : (s.ops i).wake.canResume = true) :
    Inv (awaitResume s i) := by
  cases h.op i
  rcases canResume_iff.1 hres with hwake | hwake
  all_goals
    refine h.quiet i ?_ ?_ <;> simp_all +contextual

theorem cancel_inv (hact : (s.ops i).active = true) (hc : (s.ops i).cancellable = true) :
    Inv (s.modify i fun o => { o with wake := o.wake.requestCancel.1 }) := by
  cases h.op i
  have hidle : (s.ops i).pc ≠ .idle := fun hpc => by simp [Op.active, hpc] at hact
  rcases (s.ops i).wake.requestCancel_cases with hsame | ⟨hwake | hwake, hnew⟩ | ⟨hwake, hnew⟩
  all_goals
    refine h.quiet i ?_ ?_ <;> simp_all +contextual

theorem scheduleCancel_inv (hw : (s.ops i).wake = .cancellationClaimed) :
    Inv (s.modify i fun o => { o with wake := o.wake.scheduleClaimed.1 }) := by
  cases h.op i
  refine h.quiet i ?_ ?_ <;> simp_all +contextual [scheduleClaimed]

theorem destroyFrame_inv (hpc : (s.ops i).pc = .parked) : Inv (s.goto i (.enter .destroy)) := by
  cases h.op i
  refine h.quiet i ?_ ?_ <;> simp_all +contextual

/-! ### Steps that change the queue -/

theorem suspend_inv (hpc : (s.ops i).pc = .locked .suspend) : Inv (suspend s i) := by
  have hi := h.op i
  have hnonneg := h.nonneg
  have hlink : i ∉ s.waiters := fun hl => by simpa [hpc] using (hi.linked hl).1
  unfold suspend
  split_ifs
  · refine h.quiet i ?_ ?_ <;> cases hi <;> simp_all +contextual [@eq_comm _ i]
  · refine h.push_back i ?_ ?_ hlink ?_ (by omega) ?_ <;> cases hi <;> simp_all +contextual
      [setHandle, @eq_comm _ i]

theorem publish_inv (hpc : (s.ops i).pc = .locked .publish) : Inv (publish s i) := by
  have hi := h.op i
  have hlink : i ∉ s.waiters := fun hl => by simpa [hpc] using (hi.linked hl).1
  obtain ⟨-, -, -, hwake | hwake⟩ := hi.token (by rw [hpc]; rfl)
  · rw [publish, if_pos (by rw [hwake]; rfl)]
    refine h.push_back i ?_ ?_ hlink ?_ (hi.publish hpc) ?_ <;> cases hi <;>
      simp_all +contextual [setHandleBlocked]
  · rw [publish, if_neg (by rw [hwake]; simp [setHandleBlocked])]
    refine h.quiet i ?_ ?_ <;> cases hs : (s.ops i).suspended <;> cases hi <;>
      simp_all +contextual [@eq_comm _ i]

theorem unblock_inv (hpc : (s.ops i).pc = .locked .unblock) : Inv (unblock s i) := by
  have hi := h.op i
  obtain ⟨hc, hs, hwake | hwake⟩ := hi.unblock hpc
  · rw [unblock, if_pos (by rw [hwake]; rfl)]
    refine h.quiet i ?_ ?_ <;> cases hi <;> simp_all +contextual [unblockAfterPublish, @eq_comm _ i]
  · rw [unblock, if_neg (by rw [hwake]; simp [unblockAfterPublish])]
    refine h.erase i ?_ ?_ ?_ ?_ <;> cases hi <;>
      simp_all +contextual [h.nodup.mem_erase_iff, @eq_comm _ i]

theorem unlink_inv (hpc : (s.ops i).pc = .locked .unlink) : Inv (unlink s i) := by
  cases h.op i
  unfold unlink
  refine h.erase i ?_ ?_ ?_ ?_ <;> simp_all +contextual [h.nodup.mem_erase_iff, @eq_comm _ i]

theorem destroy_inv (hpc : (s.ops i).pc = .locked .destroy) : Inv (destroy s i) := by
  cases h.op i
  have habandon := @wasCancelled_of_abandon (s.ops i).wake
  unfold destroy
  split_ifs with hlink
  · refine h.erase i ?_ ?_ ?_ ?_ <;> simp_all +contextual [h.nodup.mem_erase_iff, @eq_comm _ i]
  all_goals
    refine h.quiet i ?_ ?_ <;> simp_all +contextual [@eq_comm _ i]

/-! ### Steps that write to a second operation -/

omit [DecidableEq ι] in
/-- The waiter a grant selects is suspended, possibly about to be destroyed, and not cancelled. -/
theorem Inv.selected (hmut : s.mutex = some i) (hwi : w ≠ i) (hlink : w ∈ s.waiters)
    (hsel : (s.ops w).rejects = false) :
    ((s.ops w).pc = .parked ∨ (s.ops w).pc = .enter .destroy) ∧
      (s.ops w).wake.wasCancelled = false := by
  have hw := h.op w
  have hlive : (s.ops w).wake.wasCancelled = false := by
    by_contra hc
    rw [Bool.not_eq_false] at hc
    have hcancellable := hw.cancelled hc
    simp_all [Op.rejects, claimNotification_of_wasCancelled hc]
  have hunlocked : (s.ops w).pc.isLocked ≠ true := by
    rw [Ne, ← hw.mutex, hmut]
    exact fun heq => hwi (Option.some.inj heq).symm
  have hunlink := hw.unlink
  have hcan := (hw.linked hlink).1
  refine ⟨?_, hlive⟩
  unfold Pc.canLink at hcan
  split at hcan <;> simp_all

end

/-- What a step of `i` that grants a permit to the head `w` of the queue does. -/
@[mk_iff]
structure Grant {ι : Type*} (i w : ι) (s s' : State ι) : Prop where
  mutex : s.mutex = some i
  head : s.waiters = w :: s'.waiters
  selected : (s.ops w).rejects = false
  ne : w ≠ i
  waiter : s'.ops w = (s.ops w).grant
  ops : ∀ j, j ≠ i → j ≠ w → s'.ops j = s.ops j
  unlocked : s'.mutex = none ∨ s'.mutex = some i
  count : s'.count = s.count
  initialCount : s'.initialCount = s.initialCount
  granted : (s'.ops i).granted = (s.ops i).granted
  schedule : ∀ v, v ∈ (s'.ops i).pc.toSchedule → v = w ∨ v ∈ (s.ops i).pc.toSchedule

omit [DecidableEq ι] [Fintype ι] in
theorem Grant.linked (g : Grant i w s s') : w ∈ s.waiters := by simp [g.head]

omit [DecidableEq ι] in
/-- What the invariant says about the waiter, after it was granted a permit. -/
theorem Grant.opOk_waiter (g : Grant i w s s') (h : Inv s) : s'.OpOk w := by
  have hw := h.op w
  obtain ⟨hpc, hlive⟩ := h.selected g.mutex g.ne g.linked g.selected
  have hrest : w ∉ s'.waiters := (nodup_cons.1 (g.head ▸ h.nodup)).1
  have hsel := g.selected
  have hne := g.ne.symm
  have hlink := hw.linked g.linked
  have hmut : s'.mutex ≠ some w := fun heq => by rcases g.unlocked with hu | hu <;> simp_all
  unfold State.OpOk at hw ⊢
  rw [g.waiter]
  cases hc : (s.ops w).cancellable with
  | false => rcases hpc with hpc | hpc <;> cases hw <;> simp_all [Op.grant]
  | true =>
    have hclaim := claimNotification_of_selected (w := (s.ops w).wake)
      (by simpa [Op.rejects, hc, -Op.cancellable] using hsel)
    clear hsel
    rcases hclaim.imp And.right And.right with hclaim | hclaim <;> rcases hpc with hpc | hpc <;>
      cases hw <;> simp_all [Op.grant]

omit [DecidableEq ι] in
theorem Grant.permits (g : Grant i w s s') (h : Inv s) :
    (s.ops w).permits = 0 ∧ (s'.ops w).permits = 1 := by
  obtain ⟨hpc, -⟩ := h.selected g.mutex g.ne g.linked g.selected
  have hnone := ((h.op w).linked g.linked).2.1
  rw [g.waiter]
  rcases hpc with hpc | hpc <;> simp [Op.grant, hpc, hnone]

/-- **A grant keeps the invariant** when `i` accounts for the permit: it gives up its own, or the
permit is a released one. -/
theorem Grant.inv (g : Grant i w s s') (h : Inv s)
    (hperm : s'.released + (s.ops i).permits = s.released + (s'.ops i).permits + 1)
    (hok : s'.OpOk i) : Inv s' where
  conserve := by
    have htot := total_of_agree_pair Op.permits g.ne.symm fun j hji hjw =>
      congrArg Op.permits (g.ops j hji hjw)
    obtain ⟨hzero, hone⟩ := g.permits h
    have hold := h.conserve
    rw [g.count, g.initialCount]
    unfold acquired at hold ⊢
    omega
  nonneg := g.count ▸ h.nonneg
  op j := by
    by_cases hji : j = i
    · exact hji ▸ hok
    · by_cases hjw : j = w
      · exact hjw ▸ g.opOk_waiter h
      · have hj := h.op j
        have hmj := hj.mutex
        have hmut := g.mutex
        have hunlocked := g.unlocked
        unfold State.OpOk at hj ⊢
        rw [g.ops j hji hjw, g.count]
        exact { hj with
          mutex := by grind
          linked := fun hl => hj.linked (by rw [g.head]; exact mem_cons_of_mem w hl) }
  schedule j v hv := by
    have hgrant : ∀ v, (s.ops v).granted = true → (s'.ops v).granted = true := by
      intro v hv
      by_cases hvi : v = i
      · rw [hvi, g.granted, ← hvi, hv]
      · by_cases hvw : v = w
        · rw [hvw, g.waiter]
          rfl
        · rw [g.ops v hvi hvw, hv]
    by_cases hji : j = i
    · subst hji
      rcases g.schedule v hv with rfl | hold
      · exact ⟨by rw [g.waiter]; rfl, g.ne⟩
      · exact (h.schedule j v hold).imp_left (hgrant v)
    · have hold : v ∈ (s.ops j).pc.toSchedule := by
        by_cases hjw : j = w
        · rwa [hjw, g.waiter, ← hjw] at hv
        · rwa [g.ops j hji hjw] at hv
      exact (h.schedule j v hold).imp_left (hgrant v)
  empty _ := g.count ▸ h.empty (by simp [g.head])
  nodup := (nodup_cons.1 (g.head ▸ h.nodup)).2

section

variable (h : Inv s)

include h

omit [DecidableEq ι] in
/-- The head of the queue is not the operation that holds `mutex_` to give a permit away. -/
theorem Inv.head_ne {rest : List ι} (hcons : s.waiters = w :: rest)
    (hi : (s.ops i).pc.canLink = false) : w ≠ i := by
  rintro rfl
  have hcan := ((h.op w).linked (by simp [hcons])).1
  rw [hi] at hcan
  cases hcan

theorem recover_grant (hpc : (s.ops i).pc = .locked (.recover out)) {rest : List ι}
    (hcons : s.waiters = w :: rest) (hsel : (s.ops w).rejects = false) :
    Grant i w s
      (({ s with waiters := rest }.unlock.modify w Op.grant).goto i (.schedule [w] out)) := by
  have hmut := h.inside hpc
  have hwi : w ≠ i := h.head_ne hcons (by rw [hpc]; rfl)
  have hiw := hwi.symm
  simp_all +contextual [grant_iff]

theorem release_grant {remaining : ℕ}
    (hpc : (s.ops i).pc = .locked (.release (remaining + 1) toSchedule)) {rest : List ι}
    (hcons : s.waiters = w :: rest) (hsel : (s.ops w).rejects = false) :
    Grant i w s
      (({ s with waiters := rest, released := s.released + 1 }.modify w Op.grant).goto i
        (.locked (.release remaining (toSchedule ++ [w])))) := by
  have hmut := h.inside hpc
  have hwi : w ≠ i := h.head_ne hcons (by rw [hpc]; rfl)
  have hiw := hwi.symm
  simp_all +contextual [grant_iff, or_comm]

omit [DecidableEq ι] in
theorem drop_inv {rest : List ι} (hcons : s.waiters = w :: rest) : Inv { s with waiters := rest } :=
  { h with
    op := fun j =>
      { h.op j with
        linked := fun hl => (h.op j).linked (by rw [hcons]; exact mem_cons_of_mem w hl) }
    empty := fun _ => h.empty (by simp [hcons])
    nodup := (nodup_cons.1 (hcons ▸ h.nodup)).2 }

theorem recover_inv (hpc : (s.ops i).pc = .locked (.recover out)) :
    Inv (recoverCancelledHandoffLocked s i out) := by
  cases h.op i
  have hnonneg := h.nonneg
  unfold recoverCancelledHandoffLocked
  split
  next hnil =>
    -- nobody is left: the permit goes back
    refine h.change i ?_ ?_ ?_ ?_ ?_ ?_ <;> simp_all +contextual [@eq_comm _ i]
    omega
  next w rest hcons =>
    split
    next => exact drop_inv h hcons
    next hsel =>
      refine (recover_grant h hpc hcons (by simpa using hsel)).inv h ?_ ?_
      · simp [hpc]
      · have hwi : w ≠ i := h.head_ne hcons (by rw [hpc]; rfl)
        simp_all

theorem release_inv {remaining : ℕ} (hpc : (s.ops i).pc = .locked (.release remaining toSchedule)) :
    Inv (release s i remaining toSchedule) := by
  cases h.op i
  have hnonneg := h.nonneg
  have hemp := h.empty
  have hnd := h.nodup
  unfold release
  split
  next remaining w rest hcons =>
    split
    next => exact drop_inv h hcons
    next hsel =>
      refine (release_grant h hpc hcons (by simpa using hsel)).inv h ?_ ?_
      · simp [hpc]
      · have hwi : w ≠ i := h.head_ne hcons (by rw [hpc]; rfl)
        have hiw := hwi.symm
        simp_all
  next n _ _ hend =>
    -- every permit is given out, or nobody is left
    have hzero : s.waiters ≠ [] → n = 0 := by
      intro hq
      obtain ⟨w, rest, hcons⟩ := exists_cons_of_ne_nil hq
      rcases n with - | k
      · rfl
      · exact absurd hcons (hend k w rest rfl)
    refine h.change i ?_ ?_ ?_ ?_ ?_ hnd <;> simp_all +contextual [@eq_comm _ i]
    all_goals omega

theorem scheduleSelected_inv (hgrant : (s.ops i).granted = true) :
    Inv (s.modify i fun o => { o with wake := o.wake.scheduleSelected.1 }) := by
  have hi := h.op i
  have hspec := (s.ops i).wake.scheduleSelected_spec
  have hafter := (hi.granted hgrant).1
  unfold Pc.afterGrant at hafter
  split at hafter <;> refine h.quiet i ?_ ?_ <;> cases hi <;> simp_all +contextual <;> tauto

theorem schedule_inv (hpc : (s.ops i).pc = .schedule toSchedule out) :
    Inv (scheduleWakeStates s i out toSchedule) := by
  cases toSchedule with
  | nil =>
    have hi := h.op i
    unfold scheduleWakeStates
    refine h.quiet i ?_ ?_ <;> cases hi <;> simp_all +contextual
  | cons w rest =>
    obtain ⟨hgrant, hwi⟩ := h.schedule i w (by simp [hpc, Pc.toSchedule])
    -- the waiter is scheduled first, then the caller moves on
    have hi := h.op i
    have hiw := hwi.symm
    unfold scheduleWakeStates
    refine (scheduleSelected_inv h hgrant).quiet i ?_ ?_ <;> cases hi <;> simp_all +contextual

/-! ### Every reachable state -/

theorem actLocked_inv {c : Cs ι} (hpc : (s.ops i).pc = .locked c) : Inv (actLocked s i c) := by
  cases c with
  | tryAcquire => exact tryAcquire_inv h hpc
  | readyClaim | check | acquire | claim => exact token_inv h hpc (by simp)
  | suspend => exact suspend_inv h hpc
  | publish => exact publish_inv h hpc
  | unblock => exact unblock_inv h hpc
  | recover out => exact recover_inv h hpc
  | release remaining toSchedule => exact release_inv h hpc
  | unlink => exact unlink_inv h hpc
  | destroy => exact destroy_inv h hpc

theorem act_inv (hact : act s i = some s') : Inv s' := by
  unfold act at hact
  split at hact <;> try cases hact
  case h_4 hpc => exact readyCheck_inv h hpc
  case h_5 c hpc =>
    split at hact <;> cases hact
    exact enter_inv h hpc ‹_›
  case h_6 c hpc => exact actLocked_inv h hpc
  case h_7 hpc =>
    split at hact <;> cases hact
    exact resume_inv h hpc ‹_›
  case h_8 ws out hpc => exact schedule_inv h hpc

theorem step_inv {l : Label ι} (hl : step s l = some s') : Inv s' := by
  cases l with
  | act i => exact act_inv h hl
  | start i c | cancel i | scheduleCancel i | destroy i =>
    rw [step] at hl
    split_ifs at hl with hpc
    cases hl
    first
    | exact start_inv h hpc c
    | exact cancel_inv h hpc.1 hpc.2
    | exact scheduleCancel_inv h hpc
    | exact destroyFrame_inv h hpc

end

/-- **The invariant holds in every reachable state.** -/
theorem inv_of_reachable (h : (system ι).Reachable s) : Inv s :=
  h.invariant (fun _ ⟨n, _, hs⟩ => hs ▸ initial_inv n) fun _ _ _ hi _ hl => step_inv hi hl

/-! ### What one step does to the permits -/

/-- The permits `release` still has to give out, and those that will be in `count_` or with a caller
when the operation goes on. -/
def Op.load {ι : Type*} (o : Op ι) : ℕ :=
  match o.pc with
  | .locked .claim | .locked (.recover _) => 1
  | .locked (.release remaining _) => remaining
  | _ => if o.grantPending then 1 else 0

/-- The permits a step asks the semaphore to take: those of a `release` that enters. -/
def demand {ι : Type*} (s : State ι) : Label ι → ℕ
  | .act i =>
    match (s.ops i).pc with
    | .enter (.release n _) => n
    | _ => 0
  | _ => 0

/-- The step of `i` debits a permit or moves none. -/
@[mk_iff]
structure Keeps {ι : Type*} (i : ι) (s s' : State ι) (n : ℕ) : Prop where
  permits : ∀ j, j ≠ i → (s'.ops j).permits = (s.ops j).permits
  load : ∀ j, j ≠ i → (s'.ops j).load = (s.ops j).load
  count : s'.count ≤ s.count
  released : s'.released = s.released
  initialCount : s'.initialCount = s.initialCount
  bound : s'.count + (s'.ops i).load ≤ s.count + (s.ops i).load + n

/-- The step of `i` adds `k` permits to `count_`: its own, or those of its `release`. -/
@[mk_iff]
structure Restores {ι : Type*} (i : ι) (s s' : State ι) (k : ℕ) : Prop where
  ops : ∀ j, j ≠ i → s'.ops j = s.ops j
  count : s'.count = s.count + k
  load : (s.ops i).load = k
  load' : (s'.ops i).load = 0
  permits : (s.ops i).permits = 0 ∨
    (s.ops i).permits = 1 ∧ k = 1 ∧ s.waiters = [] ∧ s'.released = s.released

/-- **What a step of `i` does to the permits**, when it asks for `n` more. -/
def Moves {ι : Type*} (i : ι) (s s' : State ι) (n : ℕ) : Prop :=
  Keeps i s s' n ∨ (∃ k, Restores i s s' k) ∨
    ∃ w, Grant i w s s' ∧ (s.ops i).load = (s'.ops i).load + 1 ∧
      ((s.ops i).permits = 0 ∨ s'.released = s.released)

attribute [local simp] keeps_iff restores_iff Op.load

omit [DecidableEq ι] [Fintype ι] in
theorem drop_moves (rest : List ι) : Moves i s { s with waiters := rest } 0 :=
  .inl ⟨fun _ _ => rfl, fun _ _ => rfl, le_rfl, rfl, rfl, by simp⟩

theorem recover_moves (h : Inv s) (hpc : (s.ops i).pc = .locked (.recover out)) :
    Moves i s (recoverCancelledHandoffLocked s i out) 0 := by
  have hgrant := (h.op i).grant
  unfold recoverCancelledHandoffLocked
  split
  next hnil => exact .inr (.inl ⟨1, by simp_all +contextual⟩)
  next w rest hcons =>
    have hwi : w ≠ i := h.head_ne hcons (by rw [hpc]; rfl)
    split
    next => exact drop_moves rest
    next hsel =>
      refine .inr (.inr ⟨w, recover_grant h hpc hcons (by simpa using hsel), ?_, .inr rfl⟩)
      simp_all [hwi.symm]

theorem release_moves (h : Inv s) {remaining : ℕ}
    (hpc : (s.ops i).pc = .locked (.release remaining toSchedule)) :
    Moves i s (release s i remaining toSchedule) 0 := by
  have hgrant := (h.op i).grant
  unfold release
  split
  next remaining w rest hcons =>
    split
    next => exact drop_moves rest
    next hsel =>
      refine .inr (.inr ⟨w, release_grant h hpc hcons (by simpa using hsel), ?_, .inl ?_⟩)
      · simp [hpc]
      · simp [hpc]
  next n _ _ _ => exact .inr (.inl ⟨n, by simp_all +contextual⟩)

theorem actLocked_moves (h : Inv s) {c : Cs ι} (hpc : (s.ops i).pc = .locked c) :
    Moves i s (actLocked s i c) 0 := by
  cases h.op i
  cases c with
  | recover out => exact recover_moves h hpc
  | release remaining toSchedule => exact release_moves h hpc
  | unlink => exact .inl (by simp +contextual [actLocked, unlink, hpc])
  | tryAcquire =>
    simp only [actLocked, tryAcquire]
    split_ifs
    · exact .inl (by simp_all +contextual)
    · split <;> exact .inl (by simp_all +contextual)
  | _ =>
    simp only [actLocked, readyClaim, suspend, check, acquire, claim, publish, unblock, destroy]
    split_ifs <;> refine .inl ?_ <;> simp_all +contextual <;> split_ifs <;> simp_all

theorem enter_moves (h : Inv s) {c : Cs ι} (hpc : (s.ops i).pc = .enter c) :
    Moves i s ({ s with mutex := some i }.goto i (.locked c)) (demand s (.act i)) := by
  have hent := (h.op i).entry c hpc
  have hgrant := (h.op i).grant
  cases c <;> exact .inl (by simp_all +contextual [demand])

theorem schedule_moves (h : Inv s)
    (hpc : (s.ops i).pc = .schedule toSchedule out) :
    Moves i s (scheduleWakeStates s i out toSchedule) 0 := by
  cases toSchedule with
  | nil => exact .inl (by simp_all +contextual [scheduleWakeStates])
  | cons w rest =>
    have hwi := (h.schedule i w (by simp [hpc])).2
    refine .inl ⟨fun j hji => ?_, fun j hji => ?_, le_rfl, rfl, rfl, ?_⟩
    · by_cases hjw : j = w <;> simp_all [scheduleWakeStates]
    · by_cases hjw : j = w <;> simp_all [scheduleWakeStates]
    · simp [scheduleWakeStates, hpc, hwi.symm]

theorem act_moves (h : Inv s) (hact : act s i = some s') :
    Moves i s s' (demand s (.act i)) := by
  unfold act at hact
  split at hact <;> try cases hact
  case h_4 hpc =>
    unfold readyCheck
    split_ifs
    · refine .inl ?_
      simp_all +contextual [demand]
      split_ifs <;> simp_all
    · exact .inl (by simp_all +contextual [demand])
  case h_7 hpc =>
    split_ifs at hact
    cases hact
    refine .inl ?_
    simp_all +contextual [demand]
    split_ifs <;> simp_all
  case h_5 c hpc =>
    split at hact <;> cases hact
    exact enter_moves h hpc
  case h_6 c hpc =>
    simp only [demand, hpc]
    exact actLocked_moves h hpc
  case h_8 ws out hpc =>
    simp only [demand, hpc]
    exact schedule_moves h hpc

theorem step_moves (h : Inv s) {l : Label ι} (hl : step s l = some s') :
    ∃ i, Moves i s s' (demand s l) := by
  cases l with
  | act i => exact ⟨i, act_moves h hl⟩
  | start i c =>
    rw [step] at hl
    split_ifs at hl
    cases hl
    cases c <;> exact ⟨i, .inl (by simp_all +contextual [start, Call.entry, demand])⟩
  | cancel i | scheduleCancel i | destroy i =>
    rw [step] at hl
    split_ifs at hl
    cases hl
    exact ⟨i, .inl (by simp_all +contextual [demand])⟩

/-- The permit of one operation passes to the live waiter at the head of the queue or, when nobody
is queued, returns to `count_`. -/
def PassesOn {ι : Type*} (s s' : State ι) : Prop :=
  s'.released = s.released ∧
    ((∃ w rest, s.waiters = w :: rest ∧ s.Live w ∧ (s.ops w).permits = 0 ∧
        (s'.ops w).permits = 1 ∧ s'.count = s.count) ∨
      (s.waiters = [] ∧ s'.count = s.count + 1))

omit [DecidableEq ι] in
/-- **A permit leaves an operation only to be passed on.** -/
theorem Moves.passesOn {n : ℕ} (m : Moves i s s' n) (h : Inv s) (h' : Inv s') {j : ι}
    (hold : (s.ops j).permits = 1) (hnew : (s'.ops j).permits ≠ 1) : PassesOn s s' := by
  classical
  rcases m with k | ⟨k, r⟩ | ⟨w, g, -, hown⟩
  · -- the totals leave no room for a loss
    rcases eq_or_ne j i with rfl | hji
    · have htot := total_of_agree Op.permits k.permits
      have hcnt := k.count
      have hpre := h.conserve
      have hafter := h'.conserve
      rw [k.released, k.initialCount] at hafter
      have hle : (s'.ops j).permits ≤ 1 := by grind [Op.permits]
      unfold acquired at hpre hafter
      omega
    · exact absurd (k.permits j hji ▸ hold) hnew
  · rcases eq_or_ne j i with rfl | hji
    · rcases r.permits with hzero | ⟨-, rfl, hnil, hrel⟩
      · omega
      · exact ⟨hrel, .inr ⟨hnil, r.count⟩⟩
    · exact absurd (r.ops j hji ▸ hold) hnew
  · obtain ⟨hzero, hone⟩ := g.permits h
    have hji : j = i := by
      by_contra hji
      rcases eq_or_ne j w with rfl | hjw
      · omega
      · exact hnew (g.ops j hji hjw ▸ hold)
    have hlive := (h.selected g.mutex g.ne g.linked g.selected).2
    refine ⟨?_, .inl ⟨w, s'.waiters, g.head, ⟨g.linked, hlive⟩, hzero, hone, g.count⟩⟩
    rcases hown with hnone | hrel
    · rw [← hji] at hnone
      omega
    · exact hrel

/-! ### Conservation -/

/-- Operations `1` and `2` wait; `3` releases one permit, which `1` is granted; the frame of `1` is
destroyed before it resumes, and the permit passes to `2`. -/
def destroyedGrantRun : List (Label (Fin 4)) :=
  [.start 1 .acquire, .act 1, .act 1, .act 1, .act 1, .start 2 .acquire, .act 2, .act 2, .act 2,
    .act 2, .start 3 (.release 1), .act 3, .act 3, .act 3, .destroy 1, .act 1, .act 1, .act 1]

end Elio.Semaphore
