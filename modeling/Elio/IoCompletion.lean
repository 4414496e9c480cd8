/-
**Who owns an `op_state`, and when its coroutine is resumed.**

An I/O awaitable owns the `op_state` of its operation; the backend, epoll or io_uring, holds a
pointer to it until the operation completes.  A completion claims the state by a transition from
pending to completed and copies the coroutine handle into a list; the destructor of the awaitable
claims it by a transition to orphaned, and then the completion frees the state.  The handles of a
list are resumed when all completions of a call are processed, and the coroutines resumed first may
destroy the frames of the others, which nobody checks.

A call that processes completions is one step; what its coroutines do comes between the steps that
resume them.  The handle lists of calls made by resumed coroutines are on a stack.

Main definitions:

* `system` — the transition system of a backend.

Main results:

* `completions_owned` — **every `op_state` is freed exactly once and every awaiter is resumed at
  most once; no handle is used after its awaitable was destroyed**, if the awaitable is not
  destroyed while its handle waits in a list.
-/

import Elio.TransitionSystem
import Mathlib.Data.List.Basic
import Mathlib.Data.Nat.Notation
import Mathlib.Logic.Function.Basic

set_option autoImplicit false

namespace Elio.IoCompletion

/-- `op_state::phase`. -/
inductive Phase
  | pending
  | completed
  | orphaned
  deriving DecidableEq, Repr

inductive Backend
  | epoll
  | ioUring
  deriving DecidableEq, Repr

/-- An operation with its awaitable. -/
structure Op where
  /-- `prepare` has accepted it. -/
  prepared : Bool := false
  /-- The backend has not completed it. -/
  held : Bool := false
  phase : Phase := .pending
  /-- The awaitable exists. -/
  alive : Bool := false
  /-- How often the `op_state` was freed, and the handle resumed. -/
  freed : ℕ := 0
  resumed : ℕ := 0
  /-- The handle was resumed or queried after the awaitable was destroyed. -/
  late : Bool := false
  /-- The awaitable was destroyed while the handle was in a list. -/
  cut : Bool := false
  deriving DecidableEq, Repr

structure State (ι : Type*) where
  ops : ι → Op := fun _ => {}
  /-- The lists of deferred handles of the calls in progress, the innermost first. -/
  deferred : List (List ι) := []

variable {ι : Type*} [DecidableEq ι]

def State.modify (s : State ι) (i : ι) (f : Op → Op) : State ι :=
  { s with ops := Function.update s.ops i (f (s.ops i)) }

/-- `prepare` accepts the operation. -/
def Op.prepare (o : Op) : Op := { o with prepared := true, held := true, alive := true }

/-- `handle.done()` or `handle.resume()`. -/
def Op.touch (o : Op) : Op := { o with late := o.late || !o.alive }

/-- `claim_resume` and `dispatch_op_state`.  The epoll backend asks whether the coroutine is done.
-/
def Op.complete (b : Backend) (o : Op) : Op :=
  match o.phase with
  | .pending =>
    let o := { o with held := false, phase := .completed }
    if b = .epoll then o.touch else o
  | .orphaned => { o with held := false, freed := o.freed + 1 }
  | .completed => { o with held := false }

/-- A call processes completions and collects the handles it has claimed. -/
def complete (b : Backend) (s : State ι) : List ι → Option (State ι × List ι)
  | [] => some (s, [])
  | i :: rest =>
    if (s.ops i).held then
      (complete b (s.modify i (Op.complete b)) rest).map fun r =>
        (r.1, if (s.ops i).phase = .pending then i :: r.2 else r.2)
    else none

/-- `resume_deferred`, for one handle.  The epoll backend asks first whether the coroutine is done;
one that waits is not, and of a frame that is gone the answer is anything. -/
def Op.resume (b : Backend) (done : Bool) (o : Op) : Op :=
  if b = .epoll ∧ !o.alive ∧ done then o.touch
  else { o.touch with resumed := o.resumed + 1 }

/-- `~io_awaitable_base`. -/
def Op.destroy (waiting : Bool) (o : Op) : Op :=
  match o.phase with
  | .pending => { o with alive := false, phase := .orphaned }
  | _ => { o with alive := false, freed := o.freed + 1, cut := waiting }

inductive Label (ι : Type*)
  | prepare (i : ι)
  | complete (is : List ι)
  /-- The next handle of the innermost call, or its return. -/
  | resume (done : Bool)
  | destroy (i : ι)

def step (b : Backend) (s : State ι) : Label ι → Option (State ι)
  | .prepare i =>
    if (s.ops i).prepared then none
    else some (s.modify i Op.prepare)
  | .complete is =>
    (complete b s is).map fun r => { r.1 with deferred := r.2 :: s.deferred }
  | .resume done =>
    match s.deferred with
    | [] => none
    | [] :: calls => some { s with deferred := calls }
    | (i :: rest) :: calls =>
      some { s.modify i (Op.resume b done) with deferred := rest :: calls }
  | .destroy i =>
    if (s.ops i).alive then some (s.modify i (Op.destroy (i ∈ s.deferred.flatten))) else none

/-- **The operations of a backend.** -/
def system (b : Backend) : TransitionSystem (State ι) (Label ι) where
  init s := s = {}
  step := step b

/-! ### Ownership -/

/-- What is known of an operation whose handle is `waiting` times in the lists. -/
def Ok (o : Op) (waiting : ℕ) : Prop :=
  (o.prepared = false → o.held = false ∧ o.alive = false ∧ o.phase = .pending ∧
    o.cut = false) ∧
  (o.phase = .pending → o.prepared → o.held = true ∧ o.alive = true) ∧
  (o.phase = .completed → o.held = false) ∧
  (o.phase = .orphaned → o.alive = false) ∧
  o.freed = (if o.prepared ∧ !o.alive ∧ !o.held then 1 else 0) ∧
  waiting + o.resumed ≤ 1 ∧
  (o.phase ≠ .completed → waiting + o.resumed = 0 ∧ o.late = false) ∧
  (o.alive = true → o.cut = false) ∧
  (o.cut = false → o.late = false ∧ (0 < waiting → o.alive = true))

variable {o : Op} {w : ℕ}

theorem ok_prepare (h : Ok o w) (hnew : o.prepared = false) : Ok o.prepare w := by
  unfold Ok at *
  grind [Op.prepare]

variable {b : Backend}

theorem ok_complete (h : Ok o w) (hheld : o.held) :
    Ok (o.complete b) (if o.phase = .pending then w + 1 else w) := by
  obtain ⟨prepared, held, phase, alive, freed, resumed, late, cut⟩ := o
  unfold Ok at *
  cases phase <;> cases b <;> grind [Op.complete, Op.touch]

theorem ok_resume {done : Bool} (h : Ok o (w + 1)) : Ok (o.resume b done) w := by
  obtain ⟨prepared, held, phase, alive, freed, resumed, late, cut⟩ := o
  unfold Ok at *
  cases phase <;> cases b <;> cases alive <;> cases done <;> grind [Op.resume, Op.touch]

theorem ok_destroy (h : Ok o w) (halive : o.alive) : Ok (o.destroy (decide (0 < w))) w := by
  obtain ⟨prepared, held, phase, alive, freed, resumed, late, cut⟩ := o
  unfold Ok at *
  cases phase <;> grind [Op.destroy]

/-- The operations of a state, inside a call that has collected a list. -/
def Inv (hand : List ι) (s : State ι) : Prop :=
  ∀ i, Ok (s.ops i) ((hand ++ s.deferred.flatten).count i)

variable {s : State ι}

theorem inv_complete {is : List ι} {r : State ι × List ι} {hand : List ι} (h : Inv hand s)
    (hr : complete b s is = some r) : Inv (hand ++ r.2) r.1 ∧ r.1.deferred = s.deferred := by
  induction is generalizing s r hand with
  | nil =>
    cases hr
    exact ⟨by simpa using h, rfl⟩
  | cons i rest ih =>
    simp only [complete, Option.ite_none_right_eq_some, Option.map_eq_some_iff] at hr
    obtain ⟨hheld, u, hu, rfl⟩ := hr
    have hnext : Inv (if (s.ops i).phase = .pending then hand ++ [i] else hand)
        (s.modify i (Op.complete b)) := by
      intro j
      have hok := ok_complete (b := b) (h i) hheld
      by_cases hj : j = i
      · subst hj
        simp only [State.modify, Function.update_self]
        convert hok using 1
        split <;> simp [List.count_append]
        omega
      · have := h j
        simp only [State.modify, Function.update_of_ne hj]
        convert this using 1
        split <;> simp [List.count_append, Ne.symm hj]
    obtain ⟨hinv, hdeferred⟩ := ih hnext hu
    refine ⟨?_, hdeferred⟩
    split at hinv <;> simp_all

theorem Inv.modify (h : Inv [] s) (i : ι) (f : Op → Op) (hi : Ok (f (s.ops i)) w)
    {deferred : List (List ι)} (hw : deferred.flatten.count i = w)
    (hother : ∀ j, j ≠ i → deferred.flatten.count j = s.deferred.flatten.count j) :
    Inv [] { s.modify i f with deferred := deferred } := by
  intro j
  by_cases hj : j = i
  · subst hj
    simpa [State.modify, hw] using hi
  · have := h j
    simpa [State.modify, hj, hother j hj] using this

theorem inv_step {s' : State ι} {l : Label ι} (h : Inv [] s) (hstep : step b s l = some s') :
    Inv [] s' := by
  cases l with
  | prepare i =>
    simp only [step, Option.ite_none_left_eq_some, Option.some.injEq] at hstep
    obtain ⟨hnew, rfl⟩ := hstep
    exact h.modify i _ (ok_prepare (h i) (by simpa using hnew)) rfl fun _ _ => rfl
  | complete is =>
    simp only [step, Option.map_eq_some_iff] at hstep
    obtain ⟨r, hr, rfl⟩ := hstep
    obtain ⟨hinv, hdeferred⟩ := inv_complete h hr
    intro j
    simpa [hdeferred] using hinv j
  | resume done =>
    simp only [step] at hstep
    split at hstep
    · cases hstep
    · rename_i calls hdeferred
      cases hstep
      intro j
      simpa [hdeferred] using h j
    · rename_i i rest calls hdeferred
      cases hstep
      have hi := h i
      rw [hdeferred, List.nil_append, List.flatten_cons, List.cons_append,
        List.count_cons_self] at hi
      refine h.modify i _ (ok_resume hi) rfl fun j hj => ?_
      simp [hdeferred, Ne.symm hj]
  | destroy i =>
    simp only [step, Option.ite_none_right_eq_some, Option.some.injEq] at hstep
    obtain ⟨halive, rfl⟩ := hstep
    have hwaiting : decide (i ∈ s.deferred.flatten) = decide (0 < s.deferred.flatten.count i) := by
      simp only [List.count_pos_iff]
    rw [hwaiting]
    exact h.modify i _ (ok_destroy (h i) halive) rfl fun _ _ => rfl

/-- **Every `op_state` is freed exactly once, when neither the awaitable nor the backend has it any
more, and every awaiter is resumed at most once.  A handle is used after its awaitable was destroyed
only if the awaitable was destroyed while the handle waited in a list.** -/
theorem completions_owned {b : Backend} {s : State ι} (h : (system b).Reachable s) (i : ι) :
    (s.ops i).freed = (if (s.ops i).prepared ∧ !(s.ops i).alive ∧ !(s.ops i).held then 1 else 0) ∧
    (s.ops i).resumed ≤ 1 ∧ ((s.ops i).cut = false → (s.ops i).late = false) := by
  have hinv : Inv [] s := by
    refine h.invariant ?_ fun s l s' hs _ hstep => inv_step hs hstep
    rintro _ rfl i
    simp [Ok]
  obtain ⟨-, -, -, -, hfreed, hresumed, -, -, hlate⟩ := hinv i
  exact ⟨hfreed, by omega, fun hcut => (hlate hcut).1⟩

/-- One operation completes and is resumed, one is destroyed before it completes. -/
theorem completions_owned_two :
    ∃ s : State Bool, (system .ioUring).Reachable s ∧ (s.ops true).freed = 1 ∧
      (s.ops true).resumed = 1 ∧ (s.ops false).freed = 1 ∧ (s.ops false).resumed = 0 ∧
      ((s.ops true).cut = false → (s.ops true).late = false) := by
  have hrun : ((system .ioUring).run {} [.prepare true, .prepare false, .destroy false,
      .complete [false, true], .resume false, .resume false, .destroy true]).isSome := rfl
  have hs := TransitionSystem.reachable_of_run rfl (Option.some_get hrun).symm
  exact ⟨_, hs, rfl, rfl, rfl, rfl, (completions_owned hs true).2.2⟩

/-- Two operations complete in one call; the coroutine resumed first destroys the frame of the
other. -/
def destroyingRun : List (Label Bool) :=
  [.prepare true, .prepare false, .complete [true, false], .resume false, .destroy false,
    .resume false]

/-- The handle of the destroyed frame is used afterwards, on either backend. -/
theorem handle_used_after_destruction :
    (∃ s : State Bool, (system .epoll).Reachable s ∧ (s.ops false).alive = false ∧
      (s.ops false).late = true) ∧
    ∃ s : State Bool, (system .ioUring).Reachable s ∧ (s.ops false).alive = false ∧
      (s.ops false).late = true := by
  have hepoll : ((system .epoll).run {} destroyingRun).isSome := rfl
  have huring : ((system .ioUring).run {} destroyingRun).isSome := rfl
  exact ⟨⟨_, TransitionSystem.reachable_of_run rfl (Option.some_get hepoll).symm, rfl, rfl⟩,
    ⟨_, TransitionSystem.reachable_of_run rfl (Option.some_get huring).symm, rfl, rfl⟩⟩

end Elio.IoCompletion
