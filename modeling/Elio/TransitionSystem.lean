/-
**Labelled transition systems: runs, reachable states and invariants.**

A concurrent program is a system whose atomic steps are named by labels.  A label says which party
moves and how an external choice (a cancellation, a timer, a peer) falls out, so that the step
itself is a function: `step s l` is the state after the step, and `none` when the step is not
enabled in `s`.  A run is a list of labels, and every interleaving of the parties is one.

Some results speak only about runs whose steps all meet a condition on the state before the step.
`ReachableVia` is reachability along such runs, and `Reachable`
is the unconditional case.

Main definitions:

* `TransitionSystem` — initial states and a step function;
* `ReachableVia`, `Reachable` — the states reached by runs;
* `run` — running a list of labels.

Main results:

* `ReachableVia.invariant` — **the invariant rule**: what holds initially and is preserved by every
  step holds in every state reached;
* `reachable_of_run` — a run that succeeds ends in a reachable state.
-/

import Mathlib.Logic.Basic

set_option autoImplicit false

/-- A system with states `S` whose steps are named by labels `L`. -/
structure TransitionSystem (S L : Type*) where
  /-- The states a run may start in. -/
  init : S → Prop
  /-- The state after a step, or `none` when the step is not enabled. -/
  step : S → L → Option S

namespace TransitionSystem

-- runs of two and of three parties
instance neZeroTwo : @NeZero Nat Zero.ofOfNat0 2 := ⟨by decide⟩

instance neZeroThree : @NeZero Nat Zero.ofOfNat0 3 := ⟨by decide⟩

variable {S L : Type*} (M : TransitionSystem S L)

/-- The states reached by runs every step of which satisfies `C` in the state it starts from. -/
inductive ReachableVia (C : S → L → Prop) : S → Prop
  | init {s : S} : M.init s → ReachableVia C s
  | step {s s' : S} {l : L} :
      ReachableVia C s → C s l → M.step s l = some s' → ReachableVia C s'

/-- The states reached by some run. -/
def Reachable : S → Prop := M.ReachableVia fun _ _ => True

variable {M} {C : S → L → Prop} {s s' : S} {l : L}

/-- **The invariant rule.** -/
theorem ReachableVia.invariant {I : S → Prop} (h : M.ReachableVia C s)
    (hinit : ∀ s, M.init s → I s)
    (hstep : ∀ s l s', I s → C s l → M.step s l = some s' → I s') : I s := by
  induction h with
  | init hs => exact hinit _ hs
  | step _ hC hl ih => exact hstep _ _ _ ih hC hl

theorem ReachableVia.mono {D : S → L → Prop} (hCD : ∀ s l, C s l → D s l)
    (h : M.ReachableVia C s) : M.ReachableVia D s := by
  induction h with
  | init hs => exact .init hs
  | step _ hC hl ih => exact .step ih (hCD _ _ hC) hl

theorem ReachableVia.reachable (h : M.ReachableVia C s) : M.Reachable s :=
  h.mono fun _ _ _ => trivial

theorem Reachable.next (h : M.Reachable s) (hl : M.step s l = some s') : M.Reachable s' :=
  ReachableVia.step h trivial hl

variable (M) in
/-- The state after a list of steps, if all of them are enabled in turn. -/
def run (s : S) : List L → Option S
  | [] => some s
  | l :: ls => (M.step s l).bind fun s' => run s' ls

variable {ls : List L} {t : S}

theorem run_cons : M.run s (l :: ls) = some t ↔ ∃ u, M.step s l = some u ∧ M.run u ls = some t := by
  simp [run, Option.bind_eq_some_iff]

theorem Reachable.of_run (h : M.Reachable s) (hr : M.run s ls = some t) : M.Reachable t := by
  induction ls generalizing s with
  | nil =>
    simp only [run, Option.some.injEq] at hr
    exact hr ▸ h
  | cons l ls ih =>
    obtain ⟨u, hl, hr⟩ := run_cons.1 hr
    exact ih (h.next hl) hr

/-- A run from an initial state ends in a reachable state. -/
theorem reachable_of_run (hs : M.init s) (hr : M.run s ls = some t) : M.Reachable t :=
  Reachable.of_run (ReachableVia.init hs) hr

variable (M) in
/-- The state after a list of steps that all satisfy `C` in turn. -/
def runVia (C : S → L → Prop) [∀ s l, Decidable (C s l)] (s : S) : List L → Option S
  | [] => some s
  | l :: ls => if C s l then (M.step s l).bind fun s' => runVia C s' ls else none

/-- A conditional run ends in a state that is reached under the condition. -/
theorem ReachableVia.of_runVia [∀ s l, Decidable (C s l)] (h : M.ReachableVia C s)
    (hr : M.runVia C s ls = some t) : M.ReachableVia C t := by
  induction ls generalizing s with
  | nil =>
    simp only [runVia, Option.some.injEq] at hr
    exact hr ▸ h
  | cons l ls ih =>
    simp only [runVia, Option.ite_none_right_eq_some, Option.bind_eq_some_iff] at hr
    obtain ⟨hC, u, hl, hr⟩ := hr
    exact ih (.step h hC hl) hr

end TransitionSystem
