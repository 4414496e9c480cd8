/-
**Linearizability.**

A concurrent object is compared with a sequential one: the calls that have returned, and perhaps
some that are still under way, can be put in one order in which the sequential object gives the same
results, and the order never puts a call before one that had returned when the call was made.

Main definitions:

* `SequentialObject` — what a call does to a state, and returns;
* `Replays` — calls one after another;
* `History` — which calls were made, what they have returned, and which returned before which were
  made;
* `Linearization`, `Linearizable` — an order of the calls that explains a history.

Main results:

* `Replays.concat`, `Replays.of_append` — a replay grows at its end, and can be cut in two.
-/

import Mathlib.Data.List.Basic
import Mathlib.Data.List.Nodup

set_option autoImplicit false

/-- A sequential object with states `S`, calls `C` and results `R`. -/
structure SequentialObject (S C R : Type*) where
  initial : S
  apply : S → C → S × R

namespace SequentialObject

variable {S C R ι : Type*} (obj : SequentialObject S C R) (calls : ι → C)

/-- Calls one after another, each with the result it gives, lead from one state to another. -/
def Replays : S → List (ι × R) → S → Prop
  | s, [], t => s = t
  | s, (i, r) :: order, t =>
    (obj.apply s (calls i)).2 = r ∧ Replays (obj.apply s (calls i)).1 order t

/-- **A replay grows at its end.** -/
theorem Replays.concat {s t : S} {order : List (ι × R)} (h : obj.Replays calls s order t) (i : ι) :
    obj.Replays calls s (order ++ [(i, (obj.apply t (calls i)).2)]) (obj.apply t (calls i)).1 := by
  induction order generalizing s with
  | nil =>
    cases h
    exact ⟨rfl, rfl⟩
  | cons first order ih => exact ⟨h.1, ih h.2⟩

theorem Replays.of_append {s t : S} {order order' : List (ι × R)}
    (h : obj.Replays calls s (order ++ order') t) :
    ∃ u, obj.Replays calls s order u ∧ obj.Replays calls u order' t := by
  induction order generalizing s with
  | nil => exact ⟨s, rfl, h⟩
  | cons first order ih =>
    obtain ⟨u, hfst, hrest⟩ := ih h.2
    exact ⟨u, ⟨h.1, hfst⟩, hrest⟩

end SequentialObject

/-- What is seen of calls of a concurrent object. -/
structure History (ι R : Type*) where
  /-- The call was made. -/
  invoked : ι → Prop
  /-- What the call has returned. -/
  result : ι → Option R
  /-- The first call had returned when the second was made. -/
  precedes : ι → ι → Prop

/-- The calls that are kept. -/
def History.restrict {ι R : Type*} (h : History ι R) (keep : ι → Bool) : History ι R where
  invoked i := h.invoked i ∧ keep i
  result i := if keep i then h.result i else none
  precedes := h.precedes

variable {S C R ι : Type*}

/-- An order of calls with results that explains a history. -/
structure Linearization (obj : SequentialObject S C R) (calls : ι → C) (h : History ι R)
    (order : List (ι × R)) : Prop where
  nodup : (order.map Prod.fst).Nodup
  invoked : ∀ entry ∈ order, h.invoked entry.1
  complete : ∀ i r, h.result i = some r → (i, r) ∈ order
  respects : order.Pairwise fun a b => ¬ h.precedes b.1 a.1
  replays : ∃ t, obj.Replays calls obj.initial order t

/-- **There is an order that explains the history.** -/
def Linearizable (obj : SequentialObject S C R) (calls : ι → C) (h : History ι R) : Prop :=
  ∃ order, Linearization obj calls h order
