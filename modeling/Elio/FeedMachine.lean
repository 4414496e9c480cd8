/-
**Machines that are fed a stream in pieces.**

An incremental decoder keeps the input it has not used, takes as many steps as that input allows,
and then waits for more.  Its result should not depend on how the stream was cut.  That is a
property of single steps: a step that the machine takes on the input it has leads to the same end as
the machine that gets the rest of the input before it takes the step.

Main definitions:

* `FeedMachine` — a machine with a step function, an operation that appends input, and a weight that
  every step lowers;
* `run` — all the steps that the input allows;
* `feed`, `feedAll` — appending a piece, or a list of pieces, and running;
* `Joins` — the property of single steps.

Main results:

* `run_append_run` — **running before more input arrives makes no difference**;
* `feedAll_eq_feed_flatten` — **the pieces of a stream lead where the whole stream leads**.
-/

import Mathlib.Data.Nat.Init
import Mathlib.Order.Basic

set_option autoImplicit false

/-- A machine with states `S` that is fed lists of `A`. -/
structure FeedMachine (S A : Type*) where
  /-- One step, or `none` when the machine waits for input or has ended. -/
  advance : S → Option S
  /-- More input arrives. -/
  append : S → List A → S
  /-- A bound on the steps that are left. -/
  weight : S → ℕ
  advance_weight : ∀ {s s' : S}, advance s = some s' → weight s' < weight s
  append_nil : ∀ s, append s [] = s
  append_append : ∀ s d e, append (append s d) e = append s (d ++ e)

namespace FeedMachine

variable {S A : Type*} (M : FeedMachine S A)

/-- At most `n` steps. -/
def runFor : ℕ → S → S
  | 0, s => s
  | n + 1, s =>
    match M.advance s with
    | none => s
    | some s' => runFor n s'

/-- All steps. -/
def run (s : S) : S := M.runFor (M.weight s) s

/-- More input arrives, and the machine takes the steps that it allows. -/
def feed (s : S) (d : List A) : S := M.run (M.append s d)

/-- The input arrives in pieces. -/
def feedAll (s : S) (pieces : List (List A)) : S := pieces.foldl M.feed s

variable {M} {s : S}

theorem runFor_of_none (h : M.advance s = none) (n : ℕ) : M.runFor n s = s := by
  cases n with
  | zero => rfl
  | succ n => rw [runFor, h]

/-- More steps than the weight make no difference. -/
theorem runFor_of_le {n : ℕ} (h : M.weight s ≤ n) : M.runFor n s = M.run s := by
  rw [run]
  -- the induction is on the weight, which bounds both runs
  generalize hw : M.weight s = w at h
  induction w using Nat.strong_induction_on generalizing n s with
  | _ w ih =>
    cases hadv : M.advance s with
    | none => rw [runFor_of_none hadv, runFor_of_none hadv]
    | some s' =>
      have hlt := M.advance_weight hadv
      obtain ⟨n, rfl⟩ : ∃ k, n = k + 1 := ⟨n - 1, by omega⟩
      obtain ⟨w, rfl⟩ : ∃ k, w = k + 1 := ⟨w - 1, by omega⟩
      rw [runFor, runFor, hadv]
      have hfst := ih (M.weight s') (by omega) (n := n) rfl (by omega)
      have hsnd := ih (M.weight s') (by omega) (n := w) rfl (by omega)
      exact hfst.trans hsnd.symm

theorem run_of_none (h : M.advance s = none) : M.run s = s := runFor_of_none h _

theorem run_of_some {s' : S} (h : M.advance s = some s') : M.run s = M.run s' := by
  have hlt := M.advance_weight h
  obtain ⟨w, hw⟩ : ∃ k, M.weight s = k + 1 := ⟨M.weight s - 1, by omega⟩
  rw [run, hw, runFor, h]
  exact runFor_of_le (by omega)

/-- **The rule for runs**: what every step preserves, a run of any length preserves. -/
theorem runFor_induction {P : S → Prop} (hstep : ∀ s s', P s → M.advance s = some s' → P s')
    (h : P s) (n : ℕ) : P (M.runFor n s) := by
  induction n generalizing s with
  | zero => exact h
  | succ n ih =>
    rw [runFor]
    cases hadv : M.advance s with
    | none => exact h
    | some s' => exact ih (hstep s s' h hadv)

theorem run_induction {P : S → Prop} (hstep : ∀ s s', P s → M.advance s = some s' → P s') (h : P s)
    : P (M.run s) :=
  runFor_induction hstep h _

/-- **A change of the state that the steps do not see**, as long as the run keeps `P`. -/
theorem run_map {f : S → S} {P : S → Prop} (hbad : ∀ s s', ¬ P s → M.advance s = some s' → ¬ P s')
    (hnone : ∀ s, P s → M.advance s = none → M.advance (f s) = none)
    (hsome : ∀ s s', P s' → M.advance s = some s' → M.advance (f s) = some (f s')) (h : P (M.run s))
    : M.run (f s) = f (M.run s) := by
  induction hw : M.weight s using Nat.strong_induction_on generalizing s with
  | _ w ih =>
    cases hadv : M.advance s with
    | none =>
      rw [run_of_none hadv] at h ⊢
      exact run_of_none (hnone s h hadv)
    | some s' =>
      rw [run_of_some hadv] at h ⊢
      -- what is lost stays lost
      have hgood : P s' := by
        by_contra hnot
        exact run_induction hbad hnot h
      rw [run_of_some (hsome s s' hgood hadv)]
      exact ih (M.weight s') (hw ▸ M.advance_weight hadv) h rfl

variable (M) in
/-- A step on the input that is there leads where the machine goes that gets the rest of the input
first. -/
def Joins : Prop :=
  ∀ s s' d, M.advance s = some s' → M.run (M.append s d) = M.run (M.append s' d)

/-- **Running before more input arrives makes no difference.** -/
theorem run_append_run (hM : M.Joins) (s : S) (d : List A) :
    M.run (M.append (M.run s) d) = M.run (M.append s d) := by
  induction hw : M.weight s using Nat.strong_induction_on generalizing s with
  | _ w ih =>
    cases hadv : M.advance s with
    | none => rw [run_of_none hadv]
    | some s' =>
      rw [run_of_some hadv, hM s s' d hadv]
      exact ih (M.weight s') (hw ▸ M.advance_weight hadv) s' rfl

theorem feed_feed (hM : M.Joins) (s : S) (d e : List A) :
    M.feed (M.feed s d) e = M.feed s (d ++ e) := by
  rw [feed, feed, run_append_run hM, M.append_append, feed]

/-- **The pieces of a stream lead where the whole stream leads.** -/
theorem feedAll_eq_feed_flatten (hM : M.Joins) (s : S) (piece : List A) (pieces : List (List A)) :
    M.feedAll s (piece :: pieces) = M.feed s (piece :: pieces).flatten := by
  induction pieces generalizing s piece with
  | nil => simp [feedAll]
  | cons next rest ih =>
    have hhead : M.feedAll s (piece :: next :: rest) = M.feedAll (M.feed s piece) (next :: rest) :=
      rfl
    rw [hhead, ih, feed_feed hM]
    rfl

end FeedMachine
