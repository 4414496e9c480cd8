/-
**The slot of a single completion waiter.**

`coro/detail/completion_waiter.hpp` lets one coroutine wait for a completion that another party
announces.  The waiter registers itself in the slot unless the completion is there already; a
producer selects it with `take()`, which hands out a lease for the current generation, and then
claims the handle with that lease.  Odd generations hold a selected waiter.  Every operation runs
under the mutex of the slot, so each is one function of the slot.

A waiter is named by the coroutine it resumes: `handle_` and the registration are one and the same
here, because a slot that holds a registration that is not selected also holds its handle.

Main definitions:

* `CompletionSlot` — the slot.

Main results:

* `CompletionSlot.claim_of_selected` — **the lease of a taken waiter claims exactly that waiter**,
  and leaves the slot empty.
-/

import Mathlib.Data.Nat.Init

set_option autoImplicit false

namespace Elio

/-- `completion_waiter_slot`. -/
@[ext] structure CompletionSlot (α : Type*) where
  waiter : Option α
  selectedHandle : Option α
  generation : ℕ
  deriving DecidableEq, Repr

namespace CompletionSlot

variable {α : Type*}

/-- A slot nobody has registered in. -/
def empty : CompletionSlot α where
  waiter := none
  selectedHandle := none
  generation := 0

/-- A producer holds a lease for the waiter. -/
def selected (c : CompletionSlot α) : Bool := c.generation % 2 = 1

/-- `register_waiter`: whether the waiter suspends. -/
def registerWaiter (c : CompletionSlot α) (w : α) (ready : Bool) : CompletionSlot α × Bool :=
  if ready then (c, false)
  else if c.waiter.isSome then (c, false)
  else ({ c with waiter := some w }, true)

/-- `take`: the lease, if there is a waiter to select. -/
def take (c : CompletionSlot α) : CompletionSlot α × Option ℕ :=
  if c.waiter.isNone ∨ c.selected then (c, none)
  else
    ({ c with selectedHandle := c.waiter, generation := c.generation + 1 },
      some (c.generation + 1))

/-- `claim` with the lease of a generation: the handle to schedule. -/
def claim (c : CompletionSlot α) (generation : ℕ) : CompletionSlot α × Option α :=
  if ¬c.selected ∨ c.generation ≠ generation then (c, none)
  else
    ({ waiter := none, selectedHandle := none, generation := c.generation + 1 }, c.selectedHandle)

/-- `remove`, by the destructor of the waiter. -/
def remove [DecidableEq α] (c : CompletionSlot α) (w : α) : CompletionSlot α :=
  if c.waiter = some w then
    if c.selected then { waiter := none, selectedHandle := none, generation := c.generation + 1 }
    else { c with waiter := none }
  else c

/-! ### What the operations do -/

variable {c : CompletionSlot α} {w : α} {g : ℕ}

theorem selected_succ (c : CompletionSlot α) (v h : Option α) :
    (⟨v, h, c.generation + 1⟩ : CompletionSlot α).selected = !c.selected := by
  unfold selected
  rcases Nat.mod_two_eq_zero_or_one c.generation with hg | hg <;> simp [Nat.add_mod, hg]

theorem take_of_idle (h : c.waiter = none ∨ c.selected = true) : c.take = (c, none) := by
  unfold take
  rw [if_pos (h.imp_left fun hnone => by simp [hnone])]

theorem take_of_waiting (hw : c.waiter = some w) (hs : c.selected = false) :
    c.take = (⟨some w, some w, c.generation + 1⟩, some (c.generation + 1)) := by
  simp [take, hw, hs]

theorem claim_of_stale (h : c.selected = false ∨ c.generation ≠ g) : c.claim g = (c, none) := by
  unfold claim
  rw [if_pos (h.imp_left fun hs => by simp [hs])]

theorem claim_of_selected (hs : c.selected = true) :
    c.claim c.generation = (⟨none, none, c.generation + 1⟩, c.selectedHandle) := by
  simp [claim, hs]

theorem remove_of_ne [DecidableEq α] (h : c.waiter ≠ some w) : c.remove w = c := if_neg h

end CompletionSlot

end Elio
