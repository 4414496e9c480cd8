/-
**`elio::sync::condition_variable`: no notification is lost or wasted.**

A wait is in the list from the step that publishes it until a notification takes it off or it leaves
by itself, which it does only when it was cancelled.  While it is in the list nothing has selected
it.  A notification that takes it off has selected it, unless its cancellation had won; a wait that
was selected is never cancelled, and when the notification has returned it is on its way: it
completes inline, or its handle is with the scheduler.

Main definitions:

* `WaitOk`, `NotifyOk` — what is known of a wait, and of a notification.

Main results:

* `Inv.wait_step`, `Inv.notify_step` — what a step of a wait, and of a notification, has to keep;
* `Inv.select` — **a notification selects the waiter at the front**;
* `inv_of_reachable` — **the invariant holds in every reachable state**.
-/

import Elio.ConditionVariable

set_option autoImplicit false

namespace Elio.ConditionVariable

open List WakeState

variable {ι κ μ : Type*}

/-! ### The invariant -/

/-- Inside `internal_mutex_`. -/
def Pc.isLocked : Pc ι → Bool
  | .locked _ => true
  | _ => false

/-- The wake states of a wait at a location. -/
def Pc.allows : Pc ι → WakeState → Bool
  | .idle, w | .ready, w | .enter .check, w | .locked .check, w | .enter .publish, w
  | .locked .publish, w => w = .idle || w = .cancelledInline
  | .unlock, w | .unblock, w => w = .blocked || w = .notifiedInline || w = .cancelledInline
  | .enter .unlink, w | .locked .unlink, w => w = .notifiedInline || w = .cancelledInline
  | .parked, w => w = .waiting || w = .notificationClaimed || w = .notificationScheduling ||
      w = .cancellationClaimed || w = .cancellationScheduling
  | .resume, w => w = .notifiedInline || w = .cancelledInline || w = .notificationScheduling ||
      w = .cancellationScheduling
  | .enter .finish, w | .locked .finish, w | .relock .cancelled, w | .relocking .cancelled, w
  | .done .cancelled, w => w = .cancelledInline || w = .cancellationScheduling
  | .relock .completed, w | .relocking .completed, w | .done .completed, w =>
    w = .notifiedInline || w = .notificationScheduling
  | .enter .notify, _ | .locked .notify, _ | .schedule _, _ => false

@[local grind =] theorem Pc.allows_abandoned (pc : Pc ι) : pc.allows .abandoned = false := by
  cases pc with
  | enter c | locked c => cases c <;> rfl
  | relock r | relocking r | done r => cases r <;> rfl
  | _ => rfl

/-- Locations at which a wait can be in the list. -/
def Pc.canLink : Pc ι → Bool
  | .unlock | .unblock | .enter .unlink | .locked .unlink | .parked | .resume | .enter .finish
  | .locked .finish => true
  | _ => false

/-- Locations of a notification. -/
def Pc.notifies : Pc ι → Bool
  | .idle | .enter .notify | .locked .notify | .schedule _ | .done .completed => true
  | _ => false

/-- What a notification has selected and not yet scheduled. -/
def Op.pending (o : Op ι) : List ι :=
  match o.pc with
  | .locked .notify => o.selected
  | .schedule ws => ws
  | _ => []

/-- The wait was selected by a notification. -/
def Chosen (ops : ι → Op ι) (w : ι) : Prop := ∃ n, w ∈ (ops n).selected

/-- The wait is still to be scheduled. -/
def Due (ops : ι → Op ι) (w : ι) : Prop := ∃ n, w ∈ (ops n).pending

/-- What is known of a wait, given whether it has a token, is in the list, was selected and is still
to be scheduled. -/
structure WaitOk (cancellable : Bool) (o : Op ι) (linked chosen due : Prop) : Prop where
  stage : o.pc.allows o.wake = true
  link : linked → o.pc.canLink = true ∧ o.suspended = true
  cancelled : o.wake.wasCancelled = true → cancellable = true ∧ ¬ chosen
  unset : o.wake = .idle → ¬ linked ∧ ¬ chosen
  live : o.wake = .blocked ∨ o.wake = .waiting →
    linked ∧ ¬ chosen ∨ cancellable = false ∧ ¬ linked ∧ chosen ∧ due
  notified : o.wake.notificationWasSelected = true → ¬ linked ∧ chosen
  claimed : o.wake = .notificationClaimed → due
  own : o.selected = [] ∧ o.found = []

/-- What is known of a notification. -/
structure NotifyOk (one : Bool) (ops : ι → Op ι) (waiters : List ι) (n : ι) : Prop where
  stage : (ops n).pc.notifies = true
  wake : (ops n).wake = .idle
  early : (ops n).pc = .idle ∨ (ops n).pc = .enter .notify →
    (ops n).selected = [] ∧ (ops n).found = []
  loop : one = true → (ops n).pc = .locked .notify → (ops n).selected = []
  schedule : ∀ ws, (ops n).pc = .schedule ws → ws ≠ [] ∧ ws <:+ (ops n).selected
  single : one = true → (ops n).selected.length ≤ 1
  cover : ∀ w ∈ (ops n).found, (ops n).pc = .locked .notify ∧ w ∈ waiters ∨
    w ∈ (ops n).selected ∨ (ops w).wake.wasCancelled = true ∨
    one = true ∧ (ops n).selected ≠ []

/-- The operation is a wait. -/
def Call.isWait : Call κ μ → Bool
  | .wait _ _ => true
  | _ => false

/-- The operation is `notify_one`. -/
def Call.isOne : Call κ μ → Bool
  | .notifyOne => true
  | _ => false

/-- **The invariant.** -/
structure Inv (calls : ι → Call κ μ) (mutex : Option ι) (waiters : List ι) (ops : ι → Op ι) :
    Prop where
  mutex : ∀ i, mutex = some i ↔ (ops i).pc.isLocked = true
  nodup : waiters.Nodup
  waits : ∀ w ∈ waiters, (calls w).isWait = true
  chosen : ∀ n, ∀ w ∈ (ops n).selected, (calls w).isWait = true
  distinct : ∀ n, (ops n).selected.Nodup
  disjoint : ∀ n n' w, w ∈ (ops n).selected → w ∈ (ops n').selected → n = n'
  wait : ∀ i, (calls i).isWait = true →
    WaitOk (calls i).cancellable (ops i) (i ∈ waiters) (Chosen ops i) (Due ops i)
  notify : ∀ n, (calls n).isWait = false → NotifyOk (calls n).isOne ops waiters n

variable {calls : ι → Call κ μ} {mutex mutex' : Option ι} {waiters waiters' : List ι}
  {ops : ι → Op ι} {i : ι}

/-! ### Steps of one operation -/

attribute [local grind] Pc.isLocked Pc.allows Pc.canLink Pc.notifies Op.pending Call.isWait
  Call.isOne Call.cancellable setHandle setHandleBlocked unblockAfterPublish claimNotification
  requestCancel scheduleClaimed scheduleSelected wasCancelled notificationWasSelected canResume

variable {pc : Pc ι}

/-- What can become of a wake state at the same location. -/
@[local grind →] theorem Pc.allows_of_idle (h : pc.allows .idle = true) :
    pc.allows .cancelledInline = true := by
  unfold allows at *
  split at h <;> simp_all

@[local grind →] theorem Pc.allows_of_blocked (h : pc.allows .blocked = true) :
    pc.allows .notifiedInline = true ∧ pc.allows .cancelledInline = true := by
  unfold allows at *
  split at h <;> simp_all

@[local grind →] theorem Pc.allows_of_waiting (h : pc.allows .waiting = true) :
    pc.allows .notificationClaimed = true ∧ pc.allows .notificationScheduling = true ∧
      pc.allows .cancellationClaimed = true ∧ pc.allows .cancellationScheduling = true := by
  unfold allows at *
  split at h <;> simp_all

@[local grind →] theorem Pc.allows_of_claimed (h : pc.allows .notificationClaimed = true) :
    pc.allows .notificationScheduling = true := by
  unfold allows at *
  split at h <;> simp_all

@[local grind →] theorem Pc.allows_of_cancelled (h : pc.allows .cancellationClaimed = true) :
    pc.allows .cancellationScheduling = true := by
  unfold allows at *
  split at h <;> simp_all

theorem pending_of_allows {o : Op ι} (h : o.pc.allows o.wake = true) : o.pending = [] := by
  grind

variable {w : ι}

/-- What a notification has still to schedule it has selected. -/
theorem NotifyOk.pending_subset {one : Bool} (h : NotifyOk one ops waiters i)
    (hw : w ∈ (ops i).pending) : w ∈ (ops i).selected := by
  have hschedule := h.schedule
  grind

variable {ops' : ι → Op ι}

theorem chosen_congr (h : ∀ n, (ops' n).selected = (ops n).selected) (w : ι) :
    Chosen ops' w ↔ Chosen ops w :=
  exists_congr fun n => by rw [h n]

theorem due_congr (h : ∀ n, (ops' n).pending = (ops n).pending) (w : ι) :
    Due ops' w ↔ Due ops w :=
  exists_congr fun n => by rw [h n]

/-- **A wait takes a step.** -/
theorem Inv.wait_step (h : Inv calls mutex waiters ops) (hcall : (calls i).isWait = true)
    (hother : ∀ j, j ≠ i → ops' j = ops j)
    (hok : WaitOk (calls i).cancellable (ops' i) (i ∈ waiters') (Chosen ops i) (Due ops i))
    (hmut : ∀ j, j ≠ i → (mutex' = some j ↔ mutex = some j))
    (hlocked : mutex' = some i ↔ (ops' i).pc.isLocked = true) (hnd : waiters'.Nodup)
    (hmem : ∀ j, j ≠ i → (j ∈ waiters' ↔ j ∈ waiters))
    (hremove : i ∈ waiters → i ∈ waiters' ∨ mutex = some i)
    (hcancel : (ops i).wake.wasCancelled = true → (ops' i).wake.wasCancelled = true) :
    Inv calls mutex' waiters' ops' := by
  have hold := h.wait i hcall
  have hsel : ∀ n, (ops' n).selected = (ops n).selected := by
    intro n
    rcases eq_or_ne n i with rfl | hne
    · rw [hok.own.1, hold.own.1]
    · rw [hother n hne]
  have hpend : ∀ n, (ops' n).pending = (ops n).pending := by
    intro n
    rcases eq_or_ne n i with rfl | hne
    · rw [pending_of_allows hok.stage, pending_of_allows hold.stage]
    · rw [hother n hne]
  obtain ⟨h1, h2, h3, h4, h5, h6, h7, h8⟩ := h
  constructor
  · intro j
    rcases eq_or_ne j i with rfl | hne <;> grind
  · grind
  · intro w hw
    rcases eq_or_ne w i with rfl | hne <;> grind
  · grind
  · grind
  · grind
  · intro j hj
    rw [chosen_congr hsel, due_congr hpend]
    rcases eq_or_ne j i with rfl | hne <;> grind
  · intro n hn
    have hne : n ≠ i := by grind
    cases h8 n hn
    constructor <;> try grind
    intro w hw
    rcases eq_or_ne w i with rfl | hne <;> grind

/-- **A notification takes a step** that selects and schedules nobody. -/
theorem Inv.notify_step (h : Inv calls mutex waiters ops) (hcall : (calls i).isWait = false)
    (hother : ∀ j, j ≠ i → ops' j = ops j)
    (hsel : (ops' i).selected = (ops i).selected)
    (hpend : (ops' i).pending = (ops i).pending)
    (hok : NotifyOk (calls i).isOne ops' waiters i)
    (hmut : ∀ j, j ≠ i → (mutex' = some j ↔ mutex = some j))
    (hlocked : mutex' = some i ↔ (ops' i).pc.isLocked = true) : Inv calls mutex' waiters ops' := by
  have hsel : ∀ n, (ops' n).selected = (ops n).selected := by
    intro n
    rcases eq_or_ne n i with rfl | hne
    · exact hsel
    · rw [hother n hne]
  have hpend : ∀ n, (ops' n).pending = (ops n).pending := by
    intro n
    rcases eq_or_ne n i with rfl | hne
    · exact hpend
    · rw [hother n hne]
  have hwake := (h.notify i hcall).wake
  obtain ⟨h1, h2, h3, h4, h5, h6, h7, h8⟩ := h
  constructor
  · intro j
    rcases eq_or_ne j i with rfl | hne <;> grind
  · exact h2
  · exact h3
  · grind
  · grind
  · grind
  · intro j hj
    rw [chosen_congr hsel, due_congr hpend]
    rcases eq_or_ne j i with rfl | hne <;> grind
  · intro n hn
    rcases eq_or_ne n i with rfl | hne
    · exact hok
    cases h8 n hn
    constructor <;> try grind
    intro w hw
    rcases eq_or_ne w i with rfl | hne <;> grind

/-- A wait in the list has not been selected, unless its cancellation has won. -/
theorem Inv.linked_cases (h : Inv calls mutex waiters ops) (hw : w ∈ waiters) :
    ((ops w).wake = .blocked ∨ (ops w).wake = .waiting) ∧ ¬ Chosen ops w ∨
      (ops w).wake.wasCancelled = true := by
  cases h.wait w (h.waits w hw)
  cases hwake : (ops w).wake <;> grind

variable {rest : List ι}

/-- A wait whose cancellation has won is taken off the list. -/
theorem Inv.reject (h : Inv calls mutex (w :: rest) ops)
    (hcan : (ops w).wake.wasCancelled = true) : Inv calls mutex rest ops := by
  obtain ⟨h1, h2, h3, h4, h5, h6, h7, h8⟩ := h
  constructor
  · exact h1
  · grind
  · grind
  · exact h4
  · exact h5
  · exact h6
  · intro j hj
    cases h7 j hj
    constructor <;> grind
  · intro n hn
    cases h8 n hn
    constructor <;> grind

/-- The wake state of a wait that is selected. -/
def selectedWake (cancellable : Bool) (wake : WakeState) : WakeState :=
  if cancellable then wake.claimNotification.1 else wake

attribute [local grind] selectedWake

section Awaiter

variable {c : Bool} {o : Op ι} {linked chosen due : Prop}

theorem WaitOk.select (h : WaitOk c o True chosen due)
    (hopen : o.wake = .blocked ∨ o.wake = .waiting) :
    WaitOk c { o with wake := selectedWake c o.wake } False True True := by
  cases h
  cases hwake : o.wake <;> constructor <;> grind -linarith

theorem WaitOk.schedule (h : WaitOk c o linked True due) :
    WaitOk c { o with wake := o.wake.scheduleSelected.1 } linked True False := by
  cases h
  cases hwake : o.wake <;> constructor <;> grind -linarith

theorem WaitOk.cancel (h : WaitOk true o linked chosen due) :
    WaitOk true { o with wake := o.wake.requestCancel.1 } linked chosen due := by
  cases h
  cases hwake : o.wake <;> constructor <;> grind -linarith

theorem WaitOk.scheduleCancel (h : WaitOk c o linked chosen due)
    (hwake : o.wake = .cancellationClaimed) :
    WaitOk c { o with wake := o.wake.scheduleClaimed.1 } linked chosen due := by
  cases h
  cases hwake : o.wake <;> constructor <;> grind -linarith

end Awaiter

/-- **A notification selects the waiter at the front.** -/
theorem Inv.select (h : Inv calls mutex (w :: rest) ops) (hcall : (calls i).isWait = false)
    (hpc : (ops i).pc = .locked .notify) (hopen : (ops w).wake = .blocked ∨ (ops w).wake = .waiting)
    (hother : ∀ j, j ≠ i → j ≠ w → ops' j = ops j)
    (hat : ops' w = { ops w with wake := selectedWake (calls w).cancellable (ops w).wake })
    (hsel : (ops' i).selected = (ops i).selected ++ [w])
    (hfound : (ops' i).found = (ops i).found) (hwake : (ops' i).wake = (ops i).wake)
    (hstage : (ops' i).pc = .locked .notify ∧ (calls i).isOne = false ∨
    (ops' i).pc = .schedule (ops' i).selected ∧ (calls i).isOne = true)
    (hmut : ∀ j, j ≠ i → (mutex' = some j ↔ mutex = some j))
    (hlocked : mutex' = some i ↔ (ops' i).pc.isLocked = true) : Inv calls mutex' rest ops' := by
  have hnot : ¬ Chosen ops w := by
    rcases h.linked_cases mem_cons_self with ⟨-, hnot⟩ | hcan
    · exact hnot
    · grind -linarith
  have hsame : ∀ n, n ≠ i → (ops' n).selected = (ops n).selected ∧
      (ops' n).pending = (ops n).pending := by
    intro n hni
    rcases eq_or_ne n w with rfl | hnw
    · rw [hat]
      exact ⟨rfl, rfl⟩
    · rw [hother n hni hnw]
      exact ⟨rfl, rfl⟩
  -- the waiter is now among those that were selected, and has still to be scheduled
  have hchosen : ∀ j, Chosen ops' j ↔ j = w ∨ Chosen ops j := by
    intro j
    constructor
    · rintro ⟨n, hn⟩
      by_cases hni : n = i <;> grind -linarith [Chosen]
    · rintro (rfl | ⟨n, hn⟩)
      · exact ⟨i, by grind -linarith⟩
      · exact ⟨n, by by_cases hni : n = i <;> grind -linarith⟩
  have hdue : ∀ j, Due ops' j ↔ j = w ∨ Due ops j := by
    intro j
    constructor
    · rintro ⟨n, hn⟩
      by_cases hni : n = i <;> grind -linarith [Due]
    · rintro (rfl | ⟨n, hn⟩)
      · exact ⟨i, by grind -linarith⟩
      · exact ⟨n, by by_cases hni : n = i <;> grind -linarith⟩
  have hnew : ∀ n, w ∉ (ops n).selected := fun n hn => hnot ⟨n, hn⟩
  obtain ⟨h1, h2, h3, h4, h5, h6, h7, h8⟩ := h
  constructor
  · intro j
    by_cases hji : j = i <;> by_cases hjw : j = w <;> grind -linarith
  · grind -linarith
  · grind -linarith
  · intro n
    by_cases hni : n = i <;> grind -linarith
  · intro n
    by_cases hni : n = i <;> grind -linarith
  · intro n n' v
    by_cases hni : n = i <;> by_cases hni' : n' = i <;> grind -linarith
  · intro j hj
    rw [hchosen, hdue]
    by_cases hjw : j = w
    · subst hjw
      have hselect := WaitOk.select (by simpa using h7 j hj) hopen
      grind -linarith
    · have := hother j (by grind -linarith) hjw
      grind -linarith
  · intro n hn
    cases h8 n hn
    by_cases hni : n = i
    · subst hni
      constructor <;> try grind -linarith
      intro v hv
      by_cases hvw : v = w <;> by_cases hvn : v = n <;> grind -linarith
    · have := hother n hni (by grind -linarith)
      constructor <;> try grind -linarith
      intro v hv
      by_cases hvw : v = w <;> by_cases hvi : v = i <;> grind -linarith

/-- **A notification schedules the next that it has selected.** -/
theorem Inv.schedule (h : Inv calls mutex waiters ops) (hcall : (calls i).isWait = false)
    (hpc : (ops i).pc = .schedule (w :: rest)) (hother : ∀ j, j ≠ i → j ≠ w → ops' j = ops j)
    (hat : ops' w = { ops w with wake := (ops w).wake.scheduleSelected.1 })
    (hself : ops' i = { ops i with
    pc := if rest = [] then .done .completed else .schedule rest }) :
    Inv calls mutex waiters ops' := by
  obtain ⟨-, hsuffix⟩ := (h.notify i hcall).schedule _ hpc
  have hmem : w ∈ (ops i).selected := hsuffix.subset mem_cons_self
  have hnd := nodup_cons.1 ((h.distinct i).sublist hsuffix.sublist)
  have hsel : ∀ n, (ops' n).selected = (ops n).selected := by
    intro n
    by_cases hni : n = i <;> by_cases hnw : n = w <;> grind
  have hsame : ∀ n, n ≠ i → (ops' n).pending = (ops n).pending := by
    intro n hni
    rcases eq_or_ne n w with rfl | hnw
    · rw [hat]
      rfl
    · rw [hother n hni hnw]
  have hcan : ∀ v, (ops v).wake.wasCancelled = true → (ops' v).wake.wasCancelled = true := by
    intro v hv
    by_cases hvi : v = i <;> by_cases hvw : v = w <;> grind [scheduleSelected_spec]
  -- nobody else has selected the wait, so it is not due any more
  have honly : ∀ n, n ≠ i → w ∉ (ops n).pending := by
    intro n hni hn
    cases hn' : (calls n).isWait with
    | true => grind [pending_of_allows (h.wait n hn').stage]
    | false => exact hni (h.disjoint n i w ((h.notify n hn').pending_subset hn) hmem)
  have hdue : ∀ j, Due ops' j ↔ j ≠ w ∧ Due ops j := by
    intro j
    constructor
    · rintro ⟨n, hn⟩
      refine ⟨?_, n, ?_⟩ <;> by_cases hni : n = i <;> grind
    · rintro ⟨hjw, n, hn⟩
      exact ⟨n, by by_cases hni : n = i <;> grind⟩
  have hchosen := chosen_congr hsel
  obtain ⟨h1, h2, h3, h4, h5, h6, h7, h8⟩ := h
  constructor
  · intro j
    by_cases hji : j = i <;> by_cases hjw : j = w <;> grind
  · exact h2
  · exact h3
  · grind
  · grind
  · grind
  · intro j hj
    rw [hchosen, hdue]
    by_cases hjw : j = w
    · subst hjw
      have hch : Chosen ops j := ⟨i, hmem⟩
      have hschedule := WaitOk.schedule (by simpa [hch] using h7 j hj)
      grind
    · have := hother j (by grind) hjw
      grind
  · intro n hn
    cases h8 n hn
    by_cases hni : n = i
    · subst hni
      constructor <;> try grind
      intro ws hws
      grind [(suffix_cons w rest).trans hsuffix]
    · have := hother n hni (by grind)
      constructor <;> grind

/-! ### The steps of the waits -/

variable {s s' : State ι κ μ}

/-- The invariant of a state. -/
def State.Ok (calls : ι → Call κ μ) (s : State ι κ μ) : Prop :=
  Inv calls s.internalMutex s.waiters s.ops

theorem initial_ok : (State.initial : State ι κ μ).Ok calls where
  mutex := fun _ => ⟨nofun, nofun⟩
  nodup := nodup_nil
  waits := nofun
  chosen := nofun
  distinct := fun _ => nodup_nil
  disjoint := nofun
  wait := fun i _ => by
    have hfree : ¬ Chosen (State.initial : State ι κ μ).ops i := fun ⟨_, hn⟩ => by cases hn
    exact ⟨rfl, nofun, nofun, fun _ => ⟨nofun, hfree⟩, (nofun), nofun,
      nofun, rfl, rfl⟩
  notify := fun n _ =>
    ⟨rfl, rfl, fun _ => ⟨rfl, rfl⟩, fun _ _ => rfl, nofun, fun _ => Nat.zero_le _, nofun⟩

@[local grind =] theorem State.release_ops : s.release.ops = s.ops := rfl

@[local grind =] theorem State.release_waiters : s.release.waiters = s.waiters := rfl

@[local grind =] theorem State.release_internalMutex : s.release.internalMutex = none := rfl

variable [DecidableEq ι]

@[local grind =] theorem State.modify_ops (f : Op ι → Op ι) (j : ι) :
    (s.modify i f).ops j = if j = i then f (s.ops i) else s.ops j := by
  simp [State.modify, Function.update_apply]

@[local grind =] theorem State.modify_internalMutex (f : Op ι → Op ι) :
    (s.modify i f).internalMutex = s.internalMutex := rfl

@[local grind =] theorem State.modify_waiters (f : Op ι → Op ι) :
    (s.modify i f).waiters = s.waiters := rfl

attribute [local grind] State.goto

theorem select_ops (calls : ι → Call κ μ) (s : State ι κ μ) (rest : List ι) (hne : w ≠ i) (j : ι) :
    (select calls s i w rest).ops j =
      if j = i then { s.ops i with selected := (s.ops i).selected ++ [w] }
      else if j = w then { s.ops w with wake := selectedWake (calls w).cancellable (s.ops w).wake }
      else s.ops j := by
  unfold select
  grind

theorem endNotify_ops (hne : (s.ops i).selected ≠ []) (j : ι) :
    (endNotify s i).ops j =
      if j = i then { s.ops i with pc := .schedule (s.ops i).selected } else s.ops j := by
  unfold endNotify
  grind

omit [DecidableEq ι] in
/-- A wait moves to a location without the mutex at which the same is known. -/
theorem move_ok (h : s.Ok calls) (hcall : (calls i).isWait = true) (pc : Pc ι) (r : Bool)
    (hfree : (s.ops i).pc.isLocked = false) (hpc : pc.isLocked = false)
    (hstage : pc.allows (s.ops i).wake = true)
    (hlink : (s.ops i).pc.canLink = true → pc.canLink = true)
    (hother : ∀ j, j ≠ i → s'.ops j = s.ops j)
    (hself : s'.ops i = { s.ops i with pc := pc, lockReleased := r })
    (hwaiters : s'.waiters = s.waiters) (hinternal : s'.internalMutex = s.internalMutex) :
    s'.Ok calls := by
  cases h.wait i hcall
  have hmut := h.mutex i
  have hnd := h.nodup
  refine Inv.wait_step h hcall hother ⟨?_, ?_, ?_, ?_, ?_, ?_, ?_, ?_⟩ ?_ ?_ ?_ ?_ ?_ ?_ <;> grind

variable [DecidableEq κ] [DecidableEq μ]

attribute [local grind] ready unblock resume

variable {r : CancelResult}

/-- Taking the lock again does not touch the condition variable. -/
theorem relock_cases (hstep : relock s i r (calls i) = some s') :
    (∃ pc, (pc = .relocking r ∨ pc = .done r) ∧ s'.ops i = { s.ops i with pc := pc }) ∧
      (∀ j, j ≠ i → s'.ops j = s.ops j) ∧ s'.waiters = s.waiters ∧
      s'.internalMutex = s.internalMutex := by
  unfold relock at hstep
  split at hstep
  · split_ifs at hstep
    · obtain ⟨m, -, rfl⟩ := Option.map_eq_some_iff.1 hstep
      exact ⟨⟨.relocking r, by grind⟩, by grind, rfl, rfl⟩
    · cases hstep
      exact ⟨⟨.done r, by grind⟩, by grind, rfl, rfl⟩
  · split_ifs at hstep <;> cases hstep <;> exact ⟨⟨.done r, by grind⟩, by grind, rfl, rfl⟩
  · cases hstep
    exact ⟨⟨.done r, by grind⟩, by grind, rfl, rfl⟩

section

variable (h : s.Ok calls) (hcall : (calls i).isWait = true)

include h hcall

/-- The steps that leave the list alone. -/
theorem free_ok (hstep : act calls s i = some s')
    (hpc : (s.ops i).pc = .ready ∨ (s.ops i).pc = .unblock ∨ (s.ops i).pc = .resume) :
    s'.Ok calls := by
  cases h.wait i hcall
  have hmut := h.mutex i
  have hnd := h.nodup
  rcases hpc with hpc | hpc | hpc
  all_goals
    rw [act, hpc] at hstep
    obtain rfl := Option.some.inj hstep
    refine Inv.wait_step h hcall ?_ ⟨?_, ?_, ?_, ?_, ?_, ?_, ?_, ?_⟩ ?_ ?_ ?_ ?_ ?_ ?_ <;> grind -linarith

theorem locked_ok {c : Cs} (hpc : (s.ops i).pc = .locked c)
    (hc : c = .check ∨ c = .unlink ∨ c = .finish) : (actLocked calls s i c).Ok calls := by
  cases h.wait i hcall
  have hmut := h.mutex
  have hnd := h.nodup
  unfold actLocked
  rcases hc with rfl | rfl | rfl
  all_goals
    refine Inv.wait_step h hcall ?_ ⟨?_, ?_, ?_, ?_, ?_, ?_, ?_, ?_⟩ ?_ ?_ ?_ ?_ ?_ ?_ <;>
      grind -linarith [check, unlink, finish]

theorem publish_ok (hpc : (s.ops i).pc = .locked .publish) : (publish s i (calls i)).Ok calls := by
  cases h.wait i hcall
  have hmut := h.mutex
  have hnd := h.nodup
  unfold publish pushBack
  split
  · split <;>
      refine Inv.wait_step h hcall ?_ ⟨?_, ?_, ?_, ?_, ?_, ?_, ?_, ?_⟩ ?_ ?_ ?_ ?_ ?_ ?_ <;> grind -linarith
  all_goals
    refine Inv.wait_step h hcall ?_ ⟨?_, ?_, ?_, ?_, ?_, ?_, ?_, ?_⟩ ?_ ?_ ?_ ?_ ?_ ?_ <;> grind -linarith

theorem unlock_ok (hpc : (s.ops i).pc = .unlock) (hstep : unlock s i (calls i) = some s') :
    s'.Ok calls := by
  have hstage := (h.wait i hcall).stage
  unfold unlock at hstep
  refine move_ok h hcall .unblock true ?_ rfl ?_ ?_ ?_ ?_ ?_ ?_ <;> grind

theorem relock_ok (hpc : (s.ops i).pc = .relock r) (hstep : relock s i r (calls i) = some s') :
    s'.Ok calls := by
  have hstage := (h.wait i hcall).stage
  obtain ⟨⟨pc, hnext, hself⟩, hother, hwaiters, hinternal⟩ := relock_cases hstep
  refine move_ok h hcall pc (s.ops i).lockReleased ?_ ?_ ?_ ?_ hother hself hwaiters hinternal <;>
    cases r <;> grind

omit [DecidableEq κ] in
theorem relocking_ok (hpc : (s.ops i).pc = .relocking r)
    (hstep : relocking s i r (calls i) = some s') : s'.Ok calls := by
  have hstage := (h.wait i hcall).stage
  unfold relocking at hstep
  refine move_ok h hcall (.done r) (s.ops i).lockReleased ?_ rfl ?_ ?_ ?_ ?_ ?_ ?_ <;>
    cases r <;> grind

/-- **A step of a wait.** -/
theorem act_wait_ok (hstep : act calls s i = some s') : s'.Ok calls := by
  have hok := h.wait i hcall
  have hstage := hok.stage
  unfold act at hstep
  split at hstep
  case h_1 | h_2 => cases hstep
  case h_3 hpc | h_7 hpc | h_9 hpc => exact free_ok h hcall (by rw [act, hpc, hstep]) (by simp [hpc])
  case h_4 c hpc =>
    -- `internal_mutex_` is acquired
    by_cases hfree : s.internalMutex = none
    case neg => rw [if_neg hfree] at hstep; cases hstep
    rw [if_pos hfree] at hstep
    cases hstep
    cases hok
    have hnd := h.nodup
    refine Inv.wait_step h hcall ?_ ⟨?_, ?_, ?_, ?_, ?_, ?_, ?_, ?_⟩ ?_ ?_ ?_ ?_ ?_ ?_ <;>
      cases c <;> grind -linarith
  case h_5 c hpc =>
    cases hstep
    cases c with
    | check | unlink | finish => exact locked_ok h hcall hpc (by simp)
    | publish => exact publish_ok h hcall hpc
    | notify => simp [hpc, Pc.allows] at hstage
  case h_6 hpc => exact unlock_ok h hcall hpc hstep
  case h_8 hpc =>
    refine move_ok h hcall .resume (s.ops i).lockReleased ?_ rfl ?_ ?_ ?_ ?_ ?_ ?_ <;> grind -linarith
  case h_10 r hpc => exact relock_ok h hcall hpc hstep
  case h_11 r hpc => exact relocking_ok h hcall hpc hstep
  case h_12 ws hpc => simp [hpc, Pc.allows] at hstage

end

/-! ### The steps of the notifications -/

section

variable (h : s.Ok calls) (hcall : (calls i).isWait = false)

include h hcall

omit [DecidableEq κ] [DecidableEq μ] in
/-- The loop of a notification ends with nobody in the list. -/
theorem endNotify_ok (hpc : (s.ops i).pc = .locked .notify) (hemp : s.waiters = []) :
    (endNotify s i).Ok calls := by
  have hmut := h.mutex
  cases h.notify i hcall
  unfold endNotify
  refine Inv.notify_step h hcall ?_ ?_ ?_ ⟨?_, ?_, ?_, ?_, ?_, ?_, ?_⟩ ?_ ?_ <;> grind

/-- **A turn of the loop of a notification.** -/
theorem notify_ok (hpc : (s.ops i).pc = .locked .notify) : (notify calls s i).Ok calls := by
  have hmut := h.mutex
  unfold notify
  split
  next hemp => exact endNotify_ok h hcall hpc hemp
  next w rest hwaiters =>
    have h' : Inv calls s.internalMutex (w :: rest) s.ops := hwaiters ▸ h
    have hcases := h'.linked_cases mem_cons_self
    have hwait := h'.waits w mem_cons_self
    have hcancellable := (h.wait w hwait).cancelled
    have hne : w ≠ i := by grind -linarith
    split_ifs with hrejected hone
    · refine h'.reject ?_
      grind -linarith
    all_goals
      have hopen : (s.ops w).wake = .blocked ∨ (s.ops w).wake = .waiting := by
        grind -linarith [claimNotification_of_wasCancelled]
      have hops := select_ops calls s rest hne
    · have hend := endNotify_ops (s := select calls s i w rest) (i := i) (by simp [hops])
      refine h'.select hcall hpc hopen ?_ ?_ ?_ ?_ ?_ ?_ ?_ ?_
      all_goals try simp only [hend, hops]
      all_goals grind -linarith [endNotify]
    · refine h'.select hcall hpc hopen ?_ ?_ ?_ ?_ ?_ ?_ ?_ ?_
      all_goals try simp only [hops]
      all_goals grind -linarith [select]

omit [DecidableEq κ] [DecidableEq μ] in
theorem schedule_ok {ws : List ι} (hpc : (s.ops i).pc = .schedule ws) :
    (schedule s i ws).Ok calls := by
  have hold := (h.notify i hcall).schedule ws hpc
  cases ws with
  | nil => exact absurd rfl hold.1
  | cons w rest =>
    have hwait := h.chosen i w (hold.2.subset mem_cons_self)
    unfold schedule
    refine Inv.schedule h hcall hpc ?_ ?_ ?_ <;> grind

/-- **A step of a notification.** -/
theorem act_notify_ok (hstep : act calls s i = some s') : s'.Ok calls := by
  have hok := h.notify i hcall
  have hstage := hok.stage
  unfold act at hstep
  split at hstep
  case h_4 c hpc =>
    by_cases hfree : s.internalMutex = none
    case neg => rw [if_neg hfree] at hstep; cases hstep
    rw [if_pos hfree] at hstep
    cases hstep
    cases hok
    refine Inv.notify_step h hcall ?_ ?_ ?_ ⟨?_, ?_, ?_, ?_, ?_, ?_, ?_⟩ ?_ ?_ <;> grind
  case h_5 c hpc =>
    cases hstep
    obtain rfl : c = .notify := by cases c <;> simp_all [Pc.notifies]
    exact notify_ok h hcall hpc
  case h_12 ws hpc =>
    cases hstep
    exact schedule_ok h hcall hpc
  all_goals simp_all [Pc.notifies]

end

/-! ### The invariant of the system -/

/-- The call is made: nothing changes but the location of the operation and the locks of users. -/
theorem start_frame (hstep : start calls s i = some s') :
    s'.mutexes = s.mutexes ∧ s'.waiters = s.waiters ∧ s'.internalMutex = s.internalMutex ∧
      ∃ pc, ((calls i).isWait = true ∧ (pc = .ready ∨ pc = .enter .publish) ∨
        (calls i).isWait = false ∧ pc = .enter .notify) ∧ s'.ops = (s.goto i pc).ops := by
  unfold start at hstep
  split at hstep
  next lock c hc =>
    have hpc : (calls i).isWait = true ∧ ((if c then .ready else .enter .publish : Pc ι) = .ready ∨
        (if c then .ready else .enter .publish : Pc ι) = .enter .publish) := by
      rw [hc]
      cases c <;> simp [Call.isWait]
    dsimp only at hstep
    generalize (if c then .ready else .enter .publish : Pc ι) = pc at hstep hpc
    split at hstep
    · split_ifs at hstep
      cases hstep
      exact ⟨rfl, rfl, rfl, pc, .inl hpc, rfl⟩
    · split at hstep
      · cases hstep
      · cases hstep
        exact ⟨rfl, rfl, rfl, pc, .inl hpc, rfl⟩
      · split_ifs at hstep
        cases hstep
        exact ⟨rfl, rfl, rfl, pc, .inl hpc, rfl⟩
    · cases hstep
      exact ⟨rfl, rfl, rfl, pc, .inl hpc, rfl⟩
  next hc =>
    cases hstep
    refine ⟨rfl, rfl, rfl, .enter .notify, .inr ⟨?_, rfl⟩, rfl⟩
    cases hcall : calls i <;> simp_all [Call.isWait]

theorem start_ok (h : s.Ok calls) (hpc : (s.ops i).pc = .idle)
    (hstep : start calls s i = some s') : s'.Ok calls := by
  obtain ⟨-, hwaiters, hinternal, pc, hpcs, hops⟩ := start_frame hstep
  have hops : ∀ j, s'.ops j = if j = i then { s.ops i with pc := pc } else s.ops j := by
    intro j
    rw [hops]
    grind
  have hmut := h.mutex i
  rcases hpcs with ⟨hcall, hpcs⟩ | ⟨hcall, rfl⟩
  · have hstage := (h.wait i hcall).stage
    refine move_ok h hcall pc (s.ops i).lockReleased ?_ ?_ ?_ ?_ ?_ ?_ hwaiters hinternal <;> grind
  · cases h.notify i hcall
    have hok : NotifyOk (calls i).isOne s'.ops s.waiters i := by
      constructor <;> grind
    rw [State.Ok, hwaiters]
    refine Inv.notify_step h hcall ?_ ?_ ?_ hok ?_ ?_ <;> grind

variable [Fintype ι]

/-- **Every step keeps the invariant.** -/
theorem step_ok (h : s.Ok calls) {l : Label ι κ μ} (hstep : step calls s l = some s') :
    s'.Ok calls := by
  unfold step at hstep
  split at hstep
  case h_1 i =>
    split_ifs at hstep with hpc
    exact start_ok h hpc hstep
  case h_2 i =>
    cases hcall : (calls i).isWait with
    | true => exact act_wait_ok h hcall hstep
    | false => exact act_notify_ok h hcall hstep
  case h_3 i =>
    split_ifs at hstep with hcancel
    cases hstep
    have hcall : (calls i).isWait = true := by
      cases hc : calls i <;> grind -linarith
    have hok := WaitOk.cancel (hcancel.2 ▸ h.wait i hcall)
    have hmut := h.mutex i
    have hnd := h.nodup
    refine Inv.wait_step h hcall ?_ ?_ ?_ ?_ ?_ ?_ ?_ ?_ <;> grind -linarith [wasCancelled_requestCancel]
  case h_4 i =>
    split_ifs at hstep with hwake
    cases hstep
    have hcall : (calls i).isWait = true := by
      by_contra hnot
      have := (h.notify i (by simpa using hnot)).wake
      grind -linarith
    have hok := (h.wait i hcall).scheduleCancel hwake
    have hmut := h.mutex i
    have hnd := h.nodup
    refine Inv.wait_step h hcall ?_ ?_ ?_ ?_ ?_ ?_ ?_ ?_ <;> grind -linarith
  case h_5 k l =>
    split_ifs at hstep
    obtain ⟨m, -, rfl⟩ := Option.map_eq_some_iff.1 hstep
    exact h
  case h_6 k =>
    split_ifs at hstep
    cases hstep
    exact h
  case h_7 k =>
    split at hstep
    · cases hstep
    · cases hstep
      exact h
    · split_ifs at hstep
      cases hstep
      exact h

/-- **The invariant holds in every reachable state.** -/
theorem inv_of_reachable (h : (system calls).Reachable s) :
    Inv calls s.internalMutex s.waiters s.ops :=
  h.invariant (I := State.Ok calls) (fun _ hs => hs ▸ initial_ok) fun _ _ _ hok _ hl =>
    step_ok hok hl

end Elio.ConditionVariable
