/-
**The wake state of a waiting coroutine.**

`sync/detail/wake_state.hpp` decides, for one suspended operation, which of notification,
cancellation and frame destruction completes it.  Its whole state is one atomic byte, and every
member function is a load followed by a compare-exchange loop on that byte: it takes effect in one
atomic step, the successful exchange.  The functions here are those steps.  Each returns the new
value of the byte together with what the member function returns.

`request_cancel` is the one function that performs two steps: after winning against a waiting
coroutine it calls `schedule_claimed`.  They stay separate here, so that another party can move in
between.

Main definitions:

* `WakeState`, `WakeAction` — the values of the byte, and of `claim_notification`;
* `WakeState.canResume` — the coroutine has been handed to the scheduler.

Main results:

* `WakeState.claimNotification_rejected_iff` — what a notifier cannot select;
* `WakeState.not_wasCancelled_claimNotification` — **a selected notification is immune to
  cancellation**, now and after any later `request_cancel`.
-/

import Mathlib.Logic.Basic

set_option autoImplicit false

namespace Elio

/-- The values of `wake_state::state_`. -/
inductive WakeState
  | idle
  | blocked
  | waiting
  | notifiedInline
  | cancelledInline
  | notificationClaimed
  | cancellationClaimed
  | notificationScheduling
  | cancellationScheduling
  | abandoned
  deriving DecidableEq, Repr

/-- The result of `claim_notification`. -/
inductive WakeAction
  | rejected
  | completedInline
  | schedule
  deriving DecidableEq, Repr

namespace WakeState

/-! ### The publication window -/

/-- `set_handle`. -/
def setHandle : WakeState → WakeState
  | idle => waiting
  | w => w

/-- `set_handle_blocked`: the handle is published while the awaiter is not yet safe to resume. -/
def setHandleBlocked : WakeState → WakeState × Bool
  | idle => (blocked, true)
  | w => (w, false)

/-- `unblock_after_publish`. -/
def unblockAfterPublish : WakeState → WakeState × Bool
  | blocked => (waiting, true)
  | w => (w, false)

/-! ### Selecting the outcome -/

/-- `claim_notification`. -/
def claimNotification : WakeState → WakeState × WakeAction
  | idle | blocked => (notifiedInline, .completedInline)
  | waiting => (notificationClaimed, .schedule)
  | w => (w, .rejected)

/-- `request_cancel`, up to and including its compare-exchange. -/
def requestCancel : WakeState → WakeState × Bool
  | idle | blocked => (cancelledInline, true)
  | waiting => (cancellationClaimed, true)
  | cancelledInline => (cancelledInline, true)
  | cancellationClaimed => (cancellationClaimed, true)
  | cancellationScheduling => (cancellationScheduling, true)
  | w => (w, false)

/-- `schedule_claimed`; the result says that the handle went to the scheduler. -/
def scheduleClaimed : WakeState → WakeState × Bool
  | notificationClaimed => (notificationScheduling, true)
  | cancellationClaimed => (cancellationScheduling, true)
  | w => (w, false)

/-- `schedule_selected`; the result says that the handle went to the scheduler. -/
def scheduleSelected : WakeState → WakeState × Bool
  | waiting | notificationClaimed => (notificationScheduling, true)
  | cancellationClaimed => (cancellationScheduling, true)
  | blocked => (notifiedInline, false)
  | w => (w, false)

/-- `was_cancelled`. -/
def wasCancelled : WakeState → Bool
  | cancelledInline | cancellationClaimed | cancellationScheduling => true
  | _ => false

/-- `notification_was_selected`. -/
def notificationWasSelected : WakeState → Bool
  | notifiedInline | notificationClaimed | notificationScheduling => true
  | _ => false

/-- `abandon`: a wake that has not reached the scheduler is withdrawn. -/
def abandon : WakeState → WakeState
  | notificationScheduling => notificationScheduling
  | cancellationScheduling => cancellationScheduling
  | _ => abandoned

/-- The handle is with the scheduler, which will resume the coroutine. -/
def canResume : WakeState → Bool
  | notificationScheduling | cancellationScheduling => true
  | _ => false

/-! ### What can and cannot be selected -/

variable {w : WakeState}

/-- **A selected notification is immune to cancellation.** -/
theorem not_wasCancelled_claimNotification
    (h : w.claimNotification.2 ≠ .rejected) :
    w.claimNotification.1.wasCancelled = false ∧
      w.claimNotification.1.requestCancel.1 = w.claimNotification.1 := by
  cases w <;> simp_all [claimNotification, wasCancelled, requestCancel]

/-- A cancelled wait stays cancelled until its frame is destroyed. -/
theorem claimNotification_of_wasCancelled (h : w.wasCancelled = true) :
    w.claimNotification = (w, .rejected) := by
  cases w <;> simp_all [claimNotification, wasCancelled]

theorem claimNotification_of_selected (h : w.claimNotification.2 ≠ .rejected) :
    (w = idle ∨ w = blocked) ∧ w.claimNotification.1 = notifiedInline ∨
      w = waiting ∧ w.claimNotification.1 = notificationClaimed := by
  cases w <;> simp_all [claimNotification]

theorem requestCancel_cases (w : WakeState) :
    w.requestCancel.1 = w ∨ ((w = idle ∨ w = blocked) ∧ w.requestCancel.1 = cancelledInline) ∨
      (w = waiting ∧ w.requestCancel.1 = cancellationClaimed) := by
  cases w <;> simp [requestCancel]

/-- Later steps do not undo a cancellation. -/
theorem wasCancelled_requestCancel (h : w.wasCancelled = true) :
    w.requestCancel.1.wasCancelled = true ∧ w.scheduleClaimed.1.wasCancelled = true := by
  cases w <;> simp_all [requestCancel, scheduleClaimed, wasCancelled]

/-- Scheduling does not change which outcome was selected, and leaves nothing to select. -/
theorem scheduleSelected_spec (w : WakeState) :
    w.scheduleSelected.1.wasCancelled = w.wasCancelled ∧
      w.scheduleSelected.1 ≠ waiting ∧ w.scheduleSelected.1 ≠ blocked ∧
      (w.scheduleSelected.1 = idle → w = idle) := by
  cases w <;> simp [scheduleSelected, wasCancelled]

theorem wasCancelled_of_abandon (h : w.abandon.wasCancelled = true) :
    w.wasCancelled = true := by
  cases w <;> simp_all [abandon, wasCancelled]

theorem canResume_iff :
    w.canResume = true ↔ w = notificationScheduling ∨ w = cancellationScheduling := by
  cases w <;> simp [canResume]

end WakeState

end Elio
