/-
**`elio::sync::LockfreeMPMCRing` is a queue.**

Every slot belongs to one position at a time, its base: the slot is free for it, claimed by the
producer of it, full, or taken by the consumer of it, and the sequence number tells the first two
from the last two.  A slot goes on to the position one round later when its consumer has stored the
next sequence number.  Sequence numbers only grow, so a call that has seen the number it needs, and
finds its position still to be claimed, claims a slot in the right state.

The order in which the positions are claimed is then an order of the calls in which a queue gives
the same results.  This is so for the calls that succeed: a call that fails may have seen a slot of
which another call had claimed the position, but not stored the number yet.

Main definitions:

* `Phase` — the state of a slot with a base.

Main results:

* `inv_of_reachable` — **the invariant holds in every reachable state**;
* `ring_is_fifo` — **the calls that succeed are those of a bounded queue**;
* `empty_beside_a_value` — a call may fail although the queue has a value.
-/

import Elio.LockfreeRing
import Mathlib.Data.Nat.ModEq

set_option autoImplicit false

namespace Elio.LockfreeRing

open Function (update update_self update_of_ne)
open List

variable {ι α : Type*}

/-! ### Positions of a slot -/

/-- Two positions of a slot are a round apart. -/
theorem add_le_of_mod_eq {a b capacity : ℕ} (h : a % capacity = b % capacity) (hlt : a < b) :
    a + capacity ≤ b := by
  have hdvd : capacity ∣ b - a := (Nat.modEq_iff_dvd' hlt.le).1 h
  have := Nat.le_of_dvd (by omega) hdvd
  omega

theorem ne_succ_of_mod_eq {a b capacity : ℕ} (hcapacity : 2 ≤ capacity)
    (h : a % capacity = b % capacity) : a ≠ b + 1 := by
  rintro rfl
  have := add_le_of_mod_eq h.symm (Nat.lt_succ_self b)
  omega

theorem index_eq {capacity k : ℕ} (h : capacity = 2 ^ k) (position : ℕ) :
    index capacity position = position % capacity := by
  rw [index, h, Nat.and_two_pow_sub_one_eq_mod]

theorem two_le_of_power {capacity k : ℕ} (h : capacity = 2 ^ (k + 1)) : 2 ≤ capacity := by
  have := Nat.two_pow_pos k
  omega

/-! ### The invariant -/

/-- The call has claimed a position and not yet stored the sequence number. -/
def InFlight (s : State ι α) (i : ι) : Prop := (s.ops i).pc = .move ∨ (s.ops i).pc = .publish

/-- The state of a slot whose base is `base`. -/
inductive Phase (calls : ι → Call α) (s : State ι α) (slot : Slot α) (base : ℕ) : Prop
  | free : slot.sequence = base → s.head ≤ base → Phase calls s slot base
  | claimed (i : ι) (value : α) : slot.sequence = base → s.tail ≤ base → base < s.head →
      calls i = .push value → InFlight s i → (s.ops i).position = base → Phase calls s slot base
  | full : slot.sequence = base + 1 → s.tail ≤ base → base < s.head →
      slot.value = s.queue[base - s.tail]? → Phase calls s slot base
  | taken (i : ι) : slot.sequence = base + 1 → base < s.tail → calls i = .pop → InFlight s i →
      (s.ops i).position = base → Phase calls s slot base

/-- What is known of a slot. -/
structure SlotOk (capacity : ℕ) (calls : ι → Call α) (s : State ι α) (k base : ℕ) : Prop where
  base_mod : base % capacity = k
  base_lt : base < s.tail + capacity
  head_le : s.head ≤ base + capacity
  phase : Phase calls s (s.slots k) base

/-- What is known of a producer that has claimed its position. -/
structure Pushing (capacity : ℕ) (s : State ι α) (i : ι) (value : α) : Prop where
  tail_le : s.tail ≤ (s.ops i).position
  lt_head : (s.ops i).position < s.head
  sequence : (s.slots ((s.ops i).position % capacity)).sequence = (s.ops i).position
  queued : s.queue[(s.ops i).position - s.tail]? = some value
  logged : (i, .pushed true) ∈ s.log
  moved : (s.ops i).pc = .publish → (s.slots ((s.ops i).position % capacity)).value = some value

/-- What is known of a consumer that has claimed its position. -/
structure Popping (capacity : ℕ) (s : State ι α) (i : ι) (value : α) : Prop where
  lt_tail : (s.ops i).position < s.tail
  sequence : (s.slots ((s.ops i).position % capacity)).sequence = (s.ops i).position + 1
  logged : (i, .popped (some value)) ∈ s.log
  full : (s.ops i).pc = .move → (s.slots ((s.ops i).position % capacity)).value = some value
  moved : (s.ops i).pc = .publish → (s.ops i).value = some value

/-- What is known of a call. -/
structure OpOk (capacity : ℕ) (calls : ι → Call α) (s : State ι α) (i : ι) : Prop where
  position_le : (s.ops i).pc = .sequence ∨ (s.ops i).pc = .compare →
    (s.ops i).position ≤ s.counter (calls i)
  seen : (s.ops i).pc = .compare → (calls i).expected (s.ops i).position ≤
    (s.slots ((s.ops i).position % capacity)).sequence
  pushing : InFlight s i → ∀ value, calls i = .push value → Pushing capacity s i value
  popping : InFlight s i → calls i = .pop → ∃ value, Popping capacity s i value
  claimed : ∀ r, (i, r) ∈ s.log → InFlight s i ∨ (s.ops i).pc = .done
  result : ∀ r, (s.ops i).result = some r → (s.ops i).pc = .done ∧
    (r = (calls i).failure ∧ (∀ r', (i, r') ∉ s.log) ∨ (i, r) ∈ s.log)

/-- What a call that succeeds returns. -/
def Call.Succeeds : Call α → Result α → Prop
  | .push _, r => r = .pushed true
  | .pop, r => ∃ value, r = .popped (some value)

/-- The producers, in the order in which they have claimed their positions. -/
def pushes (log : List (ι × Result α)) : List ι :=
  log.filterMap fun entry => match entry.2 with
    | .pushed true => some entry.1
    | _ => none

/-- **The invariant.** -/
structure Inv (capacity : ℕ) (calls : ι → Call α) (s : State ι α) : Prop where
  length : s.tail + s.queue.length = s.head
  slots : ∀ k < capacity, ∃ base, SlotOk capacity calls s k base
  ops : ∀ i, OpOk capacity calls s i
  unique : ∀ i j, InFlight s i → InFlight s j → (calls i = .pop ↔ calls j = .pop) →
    (s.ops i).position = (s.ops j).position → i = j
  returned : ∀ i ∈ s.returned, (s.ops i).pc = .done
  earlier : ∀ i, ∀ j ∈ s.earlier i, (s.ops j).pc = .done
  nodup : (s.log.map Prod.fst).Nodup
  successes : ∀ i r, (i, r) ∈ s.log → (calls i).Succeeds r
  respects : s.log.Pairwise fun a b => b.1 ∉ s.earlier a.1
  replays : (fifo capacity).Replays calls [] s.log s.queue
  positions : ∀ p i, (pushes s.log)[p]? = some i → (s.ops i).position = p
  claims : (pushes s.log).length = s.head

variable {capacity : ℕ} {calls : ι → Call α} {s s' : State ι α} {i : ι}

theorem initial_inv : Inv capacity calls (.initial : State ι α) where
  length := rfl
  slots k hk := ⟨k, Nat.mod_eq_of_lt hk, by
    rw [State.initial, Nat.zero_add]
    exact hk, Nat.zero_le _, .free rfl (Nat.zero_le _)⟩
  ops i := by
    refine ⟨?_, ?_, ?_, ?_, ?_, ?_⟩ <;> simp [State.initial, InFlight]
  unique i j hi := by
    rcases hi with hi | hi <;> cases hi
  returned i hi := nomatch hi
  earlier i j hj := nomatch hj
  nodup := nodup_nil
  successes i r hr := nomatch hr
  respects := List.Pairwise.nil
  replays := rfl
  positions p i hi := by cases p <;> cases hi
  claims := rfl

/-- The sequence number tells the first two phases from the last two. -/
theorem Phase.sequence {slot : Slot α} {base : ℕ} (h : Phase calls s slot base) :
    slot.sequence = base ∨ slot.sequence = base + 1 := by
  cases h with
  | free hseq | claimed _ _ hseq => exact .inl hseq
  | full hseq | taken _ hseq => exact .inr hseq

/-! ### What stays -/

variable {log : List (ι × Result α)}

theorem mem_pushes : i ∈ pushes log ↔ (i, .pushed true) ∈ log := by
  rw [pushes, mem_filterMap]
  constructor
  · rintro ⟨⟨j, r⟩, hmem, heq⟩
    match r, heq with
    | .pushed true, heq =>
      obtain rfl : j = i := Option.some.inj heq
      exact hmem
  · exact fun hmem => ⟨_, hmem, rfl⟩

theorem pushes_concat_pushed (log : List (ι × Result α)) (i : ι) :
    pushes (log ++ [(i, .pushed true)]) = pushes log ++ [i] := by
  rw [pushes, filterMap_append]
  rfl

theorem pushes_concat_popped (log : List (ι × Result α)) (i : ι) (value : Option α) :
    pushes (log ++ [(i, .popped value)]) = pushes log := by
  rw [pushes, filterMap_append]
  exact append_nil _

/-- A call that is not the one that moves is where it was. -/
theorem inFlight_iff {j : ι} (hop : s'.ops j = s.ops j) : InFlight s' j ↔ InFlight s j := by
  rw [InFlight, InFlight, hop]

/-- A call that did not move is still what it was, when what it has claimed is. -/
theorem OpOk.frame {j : ι} (h : OpOk capacity calls s j) (hop : s'.ops j = s.ops j)
    (hcounter : s.counter (calls j) ≤ s'.counter (calls j))
    (hseq : (s.slots ((s.ops j).position % capacity)).sequence ≤
      (s'.slots ((s.ops j).position % capacity)).sequence)
    (hlog : ∀ r, (j, r) ∈ s'.log ↔ (j, r) ∈ s.log)
    (hpush : InFlight s j → ∀ value, calls j = .push value →
      s'.slots ((s.ops j).position % capacity) = s.slots ((s.ops j).position % capacity) ∧
      s'.tail ≤ (s.ops j).position ∧ (s.ops j).position < s'.head ∧
      s'.queue[(s.ops j).position - s'.tail]? = some value)
    (hpop : InFlight s j → calls j = .pop →
      s'.slots ((s.ops j).position % capacity) = s.slots ((s.ops j).position % capacity) ∧
      s.tail ≤ s'.tail) : OpOk capacity calls s' j := by
  have hflight := inFlight_iff hop
  refine ⟨?_, ?_, ?_, ?_, ?_, ?_⟩
  · intro hpc
    rw [hop] at hpc ⊢
    exact (h.position_le hpc).trans hcounter
  · intro hpc
    rw [hop] at hpc ⊢
    exact (h.seen hpc).trans hseq
  · intro hin value hcall
    obtain ⟨hslot, htail, hhead, hq⟩ := hpush (hflight.1 hin) value hcall
    have hold := h.pushing (hflight.1 hin) value hcall
    refine ⟨?_, ?_, ?_, ?_, (hlog _).2 hold.logged, ?_⟩ <;> rw [hop]
    · exact htail
    · exact hhead
    · rw [hslot]
      exact hold.sequence
    · exact hq
    · rw [hslot]
      exact hold.moved
  · intro hin hcall
    obtain ⟨hslot, htail⟩ := hpop (hflight.1 hin) hcall
    obtain ⟨value, hold⟩ := h.popping (hflight.1 hin) hcall
    refine ⟨value, ?_, ?_, (hlog _).2 hold.logged, ?_, ?_⟩ <;> rw [hop]
    · exact hold.lt_tail.trans_le htail
    · rw [hslot]
      exact hold.sequence
    · rw [hslot]
      exact hold.full
    · exact hold.moved
  · intro r hr
    rw [hflight, hop]
    exact h.claimed r ((hlog r).1 hr)
  · intro r hr
    rw [hop] at hr ⊢
    simp only [hlog]
    exact h.result r hr

/-- Slots whose parts are what they were. -/
theorem SlotOk.frame {k base : ℕ} (h : SlotOk capacity calls s k base)
    (hslot : s'.slots k = s.slots k) (htail : s.tail ≤ s'.tail)
    (hhead : s.head ≤ s'.head) (hround : s'.head ≤ base + capacity)
    (hfree : s.head ≤ base → s'.head ≤ base) (hused : s.tail ≤ base → s'.tail ≤ base)
    (hq : s.tail ≤ base → base < s.head →
      s'.queue[base - s'.tail]? = s.queue[base - s.tail]?)
    (hops : ∀ i, InFlight s i → (s.ops i).position = base →
      InFlight s' i ∧ (s'.ops i).position = base) : SlotOk capacity calls s' k base := by
  refine ⟨h.base_mod, by have := h.base_lt; omega, hround, ?_⟩
  rw [hslot]
  cases h.phase with
  | free hseq hle => exact .free hseq (hfree hle)
  | claimed i value hseq hle hlt hcall hin hpos =>
    obtain ⟨hin', hposition'⟩ := hops i hin hpos
    exact .claimed i value hseq (hused hle) (hlt.trans_le hhead) hcall hin' hposition'
  | full hseq hle hlt hval =>
    exact .full hseq (hused hle) (hlt.trans_le hhead) (by rw [hval, hq hle hlt])
  | taken i hseq hlt hcall hin hpos =>
    obtain ⟨hin', hposition'⟩ := hops i hin hpos
    exact .taken i hseq (hlt.trans_le htail) hcall hin' hposition'

/-! ### The slot of a claim -/

section

variable (h : Inv capacity calls s) (hcapacity : 2 ≤ capacity)

include h hcapacity

/-- The slot of a producer that has seen its number, while its position is still to be claimed, is
free. -/
theorem Inv.base_of_push (hpc : (s.ops i).pc = .compare) {value : α} (hcall : calls i = .push value)
    (hhead : s.head = (s.ops i).position) :
    SlotOk capacity calls s (s.head % capacity) s.head ∧ s.head < s.tail + capacity := by
  have hseen := (h.ops i).seen hpc
  rw [hcall, ← hhead] at hseen
  obtain ⟨base, hslot⟩ := h.slots (s.head % capacity) (Nat.mod_lt _ (by omega))
  have hlen := h.length
  have hlt := hslot.base_lt
  have hbase : base = s.head := by
    rcases lt_trichotomy base s.head with hless | heq | hmore
    · -- a base before the head has too small a number
      have hround := add_le_of_mod_eq hslot.base_mod hless
      have hseq := hslot.phase.sequence
      simp only [Call.expected] at hseen
      omega
    · exact heq
    · have hround := add_le_of_mod_eq hslot.base_mod.symm hmore
      omega
  rw [hbase] at hslot hlt
  exact ⟨hslot, hlt⟩

/-- The slot of a consumer that has seen its number, while its position is still to be claimed, is
full. -/
theorem Inv.base_of_pop (hpc : (s.ops i).pc = .compare) (hcall : calls i = .pop)
    (htail : s.tail = (s.ops i).position) :
    SlotOk capacity calls s (s.tail % capacity) s.tail ∧ s.tail < s.head ∧
      (s.slots (s.tail % capacity)).sequence = s.tail + 1 ∧
      (s.slots (s.tail % capacity)).value = s.queue[0]? := by
  have hseen := (h.ops i).seen hpc
  rw [hcall, ← htail] at hseen
  simp only [Call.expected] at hseen
  obtain ⟨base, hslot⟩ := h.slots (s.tail % capacity) (Nat.mod_lt _ (by omega))
  have hlt := hslot.base_lt
  have hbase : base = s.tail := by
    rcases lt_trichotomy base s.tail with hless | heq | hmore
    · have hseq := hslot.phase.sequence
      omega
    · exact heq
    · have hround := add_le_of_mod_eq hslot.base_mod.symm hmore
      omega
  subst hbase
  refine ⟨hslot, ?_⟩
  cases hslot.phase with
  | free hseq | claimed _ _ hseq => omega
  | full hseq _ hhead hval =>
    rw [Nat.sub_self] at hval
    exact ⟨hhead, hseq, hval⟩
  | taken _ _ hlt => omega

theorem Inv.slot_ne {j : ι} (hi : InFlight s i) (hj : InFlight s j) (hne : j ≠ i) :
    (s.ops j).position % capacity ≠ (s.ops i).position % capacity := by
  intro hmod
  -- the sequence number of the slot says whose it is
  have hapart := ne_succ_of_mod_eq hcapacity hmod
  have hapart' := ne_succ_of_mod_eq hcapacity hmod.symm
  cases hcall : calls i with
  | push value =>
    have hseq := ((h.ops i).pushing hi value hcall).sequence
    rw [← hmod] at hseq
    cases hcall' : calls j with
    | push value' =>
      have hsequence' := ((h.ops j).pushing hj value' hcall').sequence
      refine hne (h.unique j i hj hi ?_ (hsequence'.symm.trans hseq))
      rw [hcall, hcall']
      simp
    | pop =>
      obtain ⟨_, hpopping⟩ := (h.ops j).popping hj hcall'
      exact hapart' (hseq.symm.trans hpopping.sequence)
  | pop =>
    obtain ⟨_, hpopping⟩ := (h.ops i).popping hi hcall
    have hseq := hpopping.sequence
    rw [← hmod] at hseq
    cases hcall' : calls j with
    | push value' =>
      have hsequence' := ((h.ops j).pushing hj value' hcall').sequence
      exact hapart (hsequence'.symm.trans hseq)
    | pop =>
      obtain ⟨_, hpopping'⟩ := (h.ops j).popping hj hcall'
      have := hpopping'.sequence.symm.trans hseq
      exact hne (h.unique j i hj hi (by rw [hcall, hcall']) (by omega))

/-- The base of the slot of a call is its position. -/
theorem Inv.base_of_inFlight (hin : InFlight s i) :
    SlotOk capacity calls s ((s.ops i).position % capacity) (s.ops i).position := by
  obtain ⟨base, hslot⟩ := h.slots ((s.ops i).position % capacity) (Nat.mod_lt _ (by omega))
  have hapart := ne_succ_of_mod_eq hcapacity hslot.base_mod
  have hapart' := ne_succ_of_mod_eq hcapacity hslot.base_mod.symm
  have hseq := hslot.phase.sequence
  have hbase : base = (s.ops i).position := by
    cases hcall : calls i with
    | push value =>
      have hsequence' := ((h.ops i).pushing hin value hcall).sequence
      omega
    | pop =>
      obtain ⟨value, hpopping⟩ := (h.ops i).popping hin hcall
      have hsequence' := hpopping.sequence
      omega
  rwa [hbase] at hslot

/-! ### Calls that fail -/

/-- **A producer that fails has found the queue full, or its slot not yet given back** by the
consumer of the round before. -/
theorem Inv.full_of_failing (hpc : (s.ops i).pc = .sequence) {value : α}
    (hcall : calls i = .push value)
    (hless : (s.slots ((s.ops i).position % capacity)).sequence < (s.ops i).position) :
    s.tail + capacity ≤ s.head ∨ ∃ j, calls j = .pop ∧ InFlight s j ∧
      (s.ops j).position % capacity = (s.ops i).position % capacity := by
  have hpos := (h.ops i).position_le (.inl hpc)
  rw [hcall] at hpos
  simp only [State.counter] at hpos
  obtain ⟨base, hslot⟩ := h.slots ((s.ops i).position % capacity) (Nat.mod_lt _ (by omega))
  have hround : base < (s.ops i).position → base + capacity ≤ (s.ops i).position :=
    add_le_of_mod_eq hslot.base_mod
  cases hslot.phase with
  | free hseq hle => omega
  | claimed | full => exact .inl (by omega)
  | taken j _ _ hcall' hin hbase => exact .inr ⟨j, hcall', hin, by rw [hbase, hslot.base_mod]⟩

/-- **A consumer that fails has found the queue empty, or its slot not yet published** by the
producer of its position. -/
theorem Inv.empty_of_failing (hpc : (s.ops i).pc = .sequence) (hcall : calls i = .pop)
    (hless : (s.slots ((s.ops i).position % capacity)).sequence < (s.ops i).position + 1) :
    s.queue = [] ∨ ∃ j value, calls j = .push value ∧ InFlight s j ∧
      (s.ops j).position = (s.ops i).position := by
  have hpos := (h.ops i).position_le (.inl hpc)
  rw [hcall] at hpos
  simp only [State.counter] at hpos
  have hlen := h.length
  obtain ⟨base, hslot⟩ := h.slots ((s.ops i).position % capacity) (Nat.mod_lt _ (by omega))
  have hhead := hslot.head_le
  have hround : base < (s.ops i).position → base + capacity ≤ (s.ops i).position :=
    add_le_of_mod_eq hslot.base_mod
  have hemp : s.head ≤ s.tail → s.queue = [] := fun hle =>
    eq_nil_of_length_eq_zero (by omega)
  cases hslot.phase with
  | free hseq hle => exact .inl (hemp (by omega))
  | claimed j value hseq htail _ hcall' hin hbase =>
    exact .inr ⟨j, value, hcall', hin, by omega⟩
  | full hseq htail => omega
  | taken _ hseq => exact .inl (hemp (by omega))

end

/-- A queue gives back what was put in, in this order. -/
theorem pushed_eq_popped_append {queue queue' : List α}
    (h : (fifo capacity).Replays calls queue log queue') :
    queue ++ pushedValues calls log = poppedValues log ++ queue' := by
  induction log generalizing queue with
  | nil =>
    cases h
    simp [pushedValues, poppedValues]
  | cons entry log ih =>
    obtain ⟨i, r⟩ := entry
    obtain ⟨rfl, hrest⟩ := h
    have hih := ih hrest
    simp only [pushedValues, poppedValues] at hih
    simp only [pushedValues, poppedValues, filterMap_cons]
    cases hcall : calls i with
    | push value =>
      rw [hcall] at hih
      simp only [fifo] at hih ⊢
      split_ifs at hih ⊢
      · rw [← hih, append_assoc]
        rfl
      · exact hih
    | pop =>
      rw [hcall] at hih
      cases queue with
      | nil => exact hih
      | cons value queue => exact congrArg (value :: ·) hih

/-- **The queue is never longer than the capacity.** -/
theorem Inv.length_le (h : Inv capacity calls s) (hcapacity : 2 ≤ capacity) :
    s.queue.length ≤ capacity := by
  have hlen := h.length
  rcases Nat.eq_zero_or_pos s.head with hzero | hpos
  · omega
  · -- the slot of the last position that was claimed
    obtain ⟨base, hslot⟩ := h.slots ((s.head - 1) % capacity) (Nat.mod_lt _ (by omega))
    have hlt := hslot.base_lt
    have hle := hslot.head_le
    have hround : base < s.head - 1 → base + capacity ≤ s.head - 1 :=
      add_le_of_mod_eq hslot.base_mod
    omega

theorem call_of_popped {queue queue' : List α} {value : Option α}
    (h : (fifo capacity).Replays calls queue log queue') (hmem : (i, .popped value) ∈ log) :
    calls i = .pop := by
  induction log generalizing queue with
  | nil => cases hmem
  | cons entry log ih =>
    rcases mem_cons.1 hmem with rfl | hmem
    · have hres := h.1
      cases hcall : calls i with
      | push value' =>
        simp only [hcall, fifo] at hres
        split_ifs at hres
      | pop => rfl
    · exact ih h.2 hmem

/-! ### The order of the calls -/

section

variable (h : Inv capacity calls s)

include h

theorem Inv.not_logged (hpre : ¬ InFlight s i) (hactive : (s.ops i).pc ≠ .done) (r : Result α) :
    (i, r) ∉ s.log := by
  intro hr
  rcases (h.ops i).claimed r hr with hin | hdone
  · exact hpre hin
  · exact hactive hdone

theorem Inv.respects_concat (hactive : (s.ops i).pc ≠ .done) (r : Result α) :
    (s.log ++ [(i, r)]).Pairwise fun a b => b.1 ∉ s.earlier a.1 := by
  refine pairwise_append.2 ⟨h.respects, pairwise_singleton _ _, ?_⟩
  intro a _ b hb hearlier
  rw [mem_singleton.1 hb] at hearlier
  exact hactive (h.earlier a.1 i hearlier)

theorem Inv.nodup_concat (hunlogged : ∀ r, (i, r) ∉ s.log) (r : Result α) :
    ((s.log ++ [(i, r)]).map Prod.fst).Nodup := by
  rw [map_append]
  refine nodup_append.2 ⟨h.nodup, nodup_singleton _, ?_⟩
  rintro a ha b hb rfl
  obtain ⟨⟨j, r'⟩, hmem, hj⟩ := mem_map.1 ha
  rw [mem_singleton.1 hb] at hj
  obtain rfl : j = i := hj
  exact hunlogged r' hmem

theorem Inv.successes_concat {r : Result α} (hr : (calls i).Succeeds r) (j : ι) (r' : Result α)
    (hmem : (j, r') ∈ s.log ++ [(i, r)]) : (calls j).Succeeds r' := by
  rcases mem_append.1 hmem with hmem | hmem
  · exact h.successes j r' hmem
  · obtain ⟨rfl, rfl⟩ := Prod.mk.inj (mem_singleton.1 hmem)
    exact hr

omit h in
theorem mem_concat_of_ne {j : ι} (hne : j ≠ i) (log : List (ι × Result α)) (r r' : Result α) :
    (j, r) ∈ log ++ [(i, r')] ↔ (j, r) ∈ log := by
  simp [hne]

theorem Inv.not_failed {r : Result α} (hlogged : (i, r) ∈ s.log) : failed s i = false := by
  rw [failed]
  cases hres : (s.ops i).result with
  | none => rfl
  | some r' =>
    rcases ((h.ops i).result r' hres).2 with ⟨-, hunlogged⟩ | hlogged'
    · exact absurd hlogged (hunlogged r)
    · have hsuccess := h.successes i r' hlogged'
      cases hcall : calls i with
      | push value =>
        rw [hcall] at hsuccess
        obtain rfl : r' = .pushed true := hsuccess
        rfl
      | pop =>
        rw [hcall] at hsuccess
        obtain ⟨value, rfl⟩ : ∃ value, r' = .popped (some value) := hsuccess
        rfl

/-- The order of the claims explains what is seen of the calls that have not failed. -/
theorem Inv.linearization :
    Linearization (fifo capacity) calls ((history s).restrict fun i => !failed s i) s.log where
  nodup := h.nodup
  invoked entry hent := by
    obtain ⟨i, r⟩ := entry
    refine ⟨fun hidle => ?_, by simp [h.not_failed hent]⟩
    rcases (h.ops i).claimed r hent with (hpc | hpc) | hpc <;>
      exact absurd (hpc.symm.trans hidle) (by nofun)
  complete i r hr := by
    simp only [History.restrict, Bool.not_eq_true', Option.ite_none_right_eq_some] at hr
    obtain ⟨hnot, hres⟩ := hr
    rcases ((h.ops i).result r hres).2 with ⟨hfailure, -⟩ | hlogged
    · have hresult' : (s.ops i).result = some (calls i).failure := hfailure ▸ hres
      rw [failed, hresult'] at hnot
      cases hcall : calls i <;> simp [hcall, Call.failure] at hnot
    · exact hlogged
  respects := h.respects
  replays := ⟨s.queue, h.replays⟩

end

theorem mem_returned_concat {returned : List ι} {j : ι} (hj : j ∈ returned ++ [i]) :
    j ∈ returned ∨ j = i ∧ Pc.done = .done := by
  rcases mem_append.1 hj with hj | hj
  · exact .inl hj
  · exact .inr ⟨mem_singleton.1 hj, rfl⟩

theorem done_of_done (hactive : (s.ops i).pc ≠ .done) (hother : ∀ j, j ≠ i → s'.ops j = s.ops j)
    {j : ι} (hj : (s.ops j).pc = .done) : (s'.ops j).pc = .done := by
  rwa [hother j fun hji => hactive (hji ▸ hj)]

theorem still_inFlight (hpc : (s.ops i).pc = .compare) (hother : ∀ j, j ≠ i → s'.ops j = s.ops j)
    {j : ι} {position : ℕ} (hj : InFlight s j) (hpos : (s.ops j).position = position) :
    InFlight s' j ∧ (s'.ops j).position = position := by
  have hne : j ≠ i := by
    rintro rfl
    simp [InFlight, hpc] at hj
  exact ⟨(inFlight_iff (hother j hne)).2 hj, by rw [hother j hne, hpos]⟩

/-! ### The state in parts -/

section Fields

variable (s : State ι α) (k : ℕ) (slot : Slot α)

@[simp] theorem setSlot_self : (s.setSlot k slot).slots k = slot := update_self ..

@[simp] theorem setSlot_of_ne {k' : ℕ} (h : k' ≠ k) : (s.setSlot k slot).slots k' = s.slots k' :=
  update_of_ne h ..

variable [DecidableEq ι] (i : ι) (op : Op α)

@[simp] theorem setOp_self : (s.setOp i op).ops i = op := update_self ..

@[simp] theorem setOp_of_ne {j : ι} (h : j ≠ i) : (s.setOp i op).ops j = s.ops j :=
  update_of_ne h ..

end Fields

variable [DecidableEq ι]

/-! ### Steps that claim nothing -/

section

variable (h : Inv capacity calls s)

include h

/-- **A call that claims nothing** changes its own place in the program, and the slot that it has
claimed before. -/
theorem Inv.frame (hcapacity : 2 ≤ capacity) (hactive : (s.ops i).pc ≠ .done)
    (hother : ∀ j, j ≠ i → s'.ops j = s.ops j) (hhead : s'.head = s.head) (htail : s'.tail = s.tail)
    (hq : s'.queue = s.queue) (hlog : s'.log = s.log) (hop : OpOk capacity calls s' i)
    (hflight : InFlight s' i → InFlight s i)
    (hpos : InFlight s i → (s'.ops i).position = (s.ops i).position)
    (hslots : ∀ k, (InFlight s i → k ≠ (s.ops i).position % capacity) → s'.slots k = s.slots k)
    (hslot : InFlight s i →
      (s.slots ((s.ops i).position % capacity)).sequence ≤
        (s'.slots ((s.ops i).position % capacity)).sequence ∧
      ∃ base, SlotOk capacity calls s' ((s.ops i).position % capacity) base)
    (hret : ∀ j ∈ s'.returned, j ∈ s.returned ∨ j = i ∧ (s'.ops i).pc = .done)
    (hearlier : ∀ j, s'.earlier j = s.earlier j ∨
      j = i ∧ ¬ InFlight s i ∧ s'.earlier j = s.returned) : Inv capacity calls s' := by
  have hlogged : ∀ r, (i, r) ∈ s.log → InFlight s i := fun r hr =>
    ((h.ops i).claimed r hr).resolve_right hactive
  have hflights : ∀ j, InFlight s' j →
      InFlight s j ∧ (s'.ops j).position = (s.ops j).position := by
    intro j hj
    by_cases hne : j = i
    · subst hne
      exact ⟨hflight hj, hpos (hflight hj)⟩
    · exact ⟨(inFlight_iff (hother j hne)).1 hj, by rw [hother j hne]⟩
  refine
    { length := by rw [htail, hq, hhead]; exact h.length
      slots := ?_
      ops := ?_
      unique := ?_
      returned := ?_
      earlier := ?_
      nodup := hlog ▸ h.nodup
      successes := hlog ▸ h.successes
      respects := ?_
      replays := by rw [hlog, hq]; exact h.replays
      positions := ?_
      claims := by rw [hlog, hhead]; exact h.claims }
  · intro k hk
    by_cases hmine : InFlight s i ∧ k = (s.ops i).position % capacity
    · rw [hmine.2]
      exact (hslot hmine.1).2
    · obtain ⟨base, hbase⟩ := h.slots k hk
      refine ⟨base, hbase.frame (hslots k fun hin heq => hmine ⟨hin, heq⟩) htail.ge hhead.ge
        (hhead.trans_le hbase.head_le) hhead.trans_le htail.trans_le
        (fun _ _ => by rw [hq, htail]) fun j hj hbase' => ?_⟩
      have hne : j ≠ i := by
        rintro rfl
        exact hmine ⟨hj, by rw [hbase', hbase.base_mod]⟩
      exact ⟨(inFlight_iff (hother j hne)).2 hj, by rw [hother j hne, hbase']⟩
  · intro j
    by_cases hne : j = i
    · rw [hne]
      exact hop
    · -- the slots that the others have claimed are not this one
      have hkept : InFlight s j →
          s'.slots ((s.ops j).position % capacity) = s.slots ((s.ops j).position % capacity) :=
        fun hj => hslots _ fun hin => h.slot_ne hcapacity hin hj hne
      refine (h.ops j).frame (hother j hne) ?_ ?_ (fun r => by rw [hlog]) ?_ ?_
      · cases calls j with
        | push _ => exact hhead.ge
        | pop => exact htail.ge
      · by_cases hmine : InFlight s i ∧
            (s.ops j).position % capacity = (s.ops i).position % capacity
        · rw [hmine.2]
          exact (hslot hmine.1).1
        · rw [hslots _ fun hin heq => hmine ⟨hin, heq⟩]
      · intro hj value hcall
        have hold := (h.ops j).pushing hj value hcall
        rw [htail, hhead, hq]
        exact ⟨hkept hj, hold.tail_le, hold.lt_head, hold.queued⟩
      · exact fun hj _ => ⟨hkept hj, htail.ge⟩
  · intro j j' hj hj' hkind hpositions
    obtain ⟨hin, heq⟩ := hflights j hj
    obtain ⟨hin', heq'⟩ := hflights j' hj'
    exact h.unique j j' hin hin' hkind (by rw [← heq, ← heq', hpositions])
  · intro j hj
    rcases hret j hj with hj | ⟨rfl, hdone⟩
    · exact done_of_done hactive hother (h.returned j hj)
    · exact hdone
  · intro j j' hj'
    refine done_of_done hactive hother ?_
    rcases hearlier j with heq | ⟨-, -, heq⟩
    · exact h.earlier j j' (heq ▸ hj')
    · exact h.returned j' (heq ▸ hj')
  · rw [hlog]
    refine h.respects.imp_of_mem ?_
    rintro ⟨a, r⟩ ⟨b, r'⟩ ha - hnot
    rcases hearlier a with heq | ⟨rfl, hout, -⟩
    · simpa only [heq] using hnot
    · exact absurd (hlogged r ha) hout
  · intro p j hj
    rw [hlog] at hj
    by_cases hne : j = i
    · subst hne
      rw [hpos (hlogged _ (mem_pushes.1 (mem_of_getElem? hj)))]
      exact h.positions p j hj
    · rw [hother j hne]
      exact h.positions p j hj

/-- A call that has claimed nothing moves to another place before its claim, or fails. -/
theorem Inv.quiet (hcapacity : 2 ≤ capacity) {op : Op α} (returned : List ι) (earlier : ι → List ι)
    (hpre : ¬ InFlight s i) (hactive : (s.ops i).pc ≠ .done)
    (hpos : op.pc = .sequence ∨ op.pc = .compare → op.position ≤ s.counter (calls i))
    (hseen : op.pc = .compare →
      (calls i).expected op.position ≤ (s.slots (op.position % capacity)).sequence)
    (hclaims : op.pc ≠ .move ∧ op.pc ≠ .publish)
    (hres : op.result = (s.ops i).result ∨ op.pc = .done ∧ op.result = some (calls i).failure)
    (hret : ∀ j ∈ returned, j ∈ s.returned ∨ j = i ∧ op.pc = .done)
    (hearlier : ∀ j, earlier j = s.earlier j ∨ j = i ∧ earlier j = s.returned) :
    Inv capacity calls { s.setOp i op with returned := returned, earlier := earlier } := by
  have hnot : ¬ InFlight (s.setOp i op) i := by
    rw [InFlight, setOp_self]
    exact not_or.2 hclaims
  have hunlogged := h.not_logged hpre hactive
  refine h.frame hcapacity hactive (fun j hne => setOp_of_ne _ _ _ hne) rfl rfl rfl rfl ?_
    (fun hin => absurd hin hnot) (fun hin => absurd hin hpre) (fun _ _ => rfl)
    (fun hin => absurd hin hpre) ?_ ?_
  · refine ⟨?_, ?_, fun hin => absurd hin hnot, fun hin => absurd hin hnot,
      fun r hr => absurd hr (hunlogged r), ?_⟩ <;> simp only [setOp_self]
    · exact hpos
    · exact hseen
    · intro r hr
      rcases hres with hsame | ⟨hdone, hfailure⟩
      · exact absurd ((h.ops i).result r (hsame ▸ hr)).1 hactive
      · exact ⟨hdone, .inl ⟨Option.some.inj (hr.symm.trans hfailure), hunlogged⟩⟩
  · simpa only [setOp_self] using hret
  · exact fun j => (hearlier j).imp_right fun hj => ⟨hj.1, hpre, hj.2⟩

/-! ### Claims -/

/-- **A call claims its position**: what is to be known of the slots, of the call itself, and of the
producers that have claimed theirs before. -/
theorem Inv.claim (hpc : (s.ops i).pc = .compare) {r : Result α}
    (hother : ∀ j, j ≠ i → s'.ops j = s.ops j) (hself : s'.ops i = { s.ops i with pc := .move })
    (hslots : s'.slots = s.slots) (hret : s'.returned = s.returned)
    (hearlier : s'.earlier = s.earlier) (hlog : s'.log = s.log ++ [(i, r)])
    (hsuccess : (calls i).Succeeds r) (hhead : s.head ≤ s'.head) (htail : s.tail ≤ s'.tail)
    (hlen : s'.tail + s'.queue.length = s'.head)
    (hbases : ∀ k < capacity, ∃ base, SlotOk capacity calls s' k base)
    (hpushing : ∀ value, calls i = .push value → Pushing capacity s' i value)
    (hpopping : calls i = .pop → ∃ value, Popping capacity s' i value)
    (hproducers : ∀ j, InFlight s j → ∀ value, calls j = .push value →
      s'.tail ≤ (s.ops j).position ∧ (s.ops j).position < s'.head ∧
      s'.queue[(s.ops j).position - s'.tail]? = some value)
    (hfresh : ∀ j, InFlight s j → (calls i = .pop ↔ calls j = .pop) →
      (s.ops j).position ≠ (s.ops i).position)
    (hreplays : (fifo capacity).Replays calls [] s'.log s'.queue)
    (hpositions : ∀ p j, (pushes s'.log)[p]? = some j → (s.ops j).position = p)
    (hclaims : (pushes s'.log).length = s'.head) : Inv capacity calls s' := by
  have hactive : (s.ops i).pc ≠ .done := by simp [hpc]
  have hunlogged := h.not_logged (by simp [InFlight, hpc]) hactive
  have hsame : ∀ j, (s'.ops j).position = (s.ops j).position := by
    intro j
    by_cases hne : j = i
    · rw [hne, hself]
    · rw [hother j hne]
  refine
    { length := hlen
      slots := hbases
      ops := ?_
      unique := ?_
      returned := fun j hj => done_of_done hactive hother (h.returned j (hret ▸ hj))
      earlier := fun j j' hj' => done_of_done hactive hother (h.earlier j j' (hearlier ▸ hj'))
      nodup := hlog ▸ h.nodup_concat hunlogged _
      successes := hlog ▸ h.successes_concat hsuccess
      respects := by rw [hlog, hearlier]; exact h.respects_concat hactive _
      replays := hreplays
      positions := fun p j hj => by rw [hsame]; exact hpositions p j hj
      claims := hclaims }
  · intro j
    by_cases hne : j = i
    · subst hne
      have hin : InFlight s' j := .inl (by rw [hself])
      refine ⟨?_, ?_, fun _ => hpushing, fun _ => hpopping, fun _ _ => .inl hin, ?_⟩ <;> rw [hself]
      · rintro (hpc | hpc) <;> cases hpc
      · exact nofun
      · exact fun r hr => absurd ((h.ops j).result r hr).1 hactive
    · refine (h.ops j).frame (hother j hne) ?_ (by rw [hslots])
        (fun r => by rw [hlog]; exact mem_concat_of_ne hne _ _ _) ?_ ?_
      · cases calls j with
        | push _ => exact hhead
        | pop => exact htail
      · exact fun hin value hcall => ⟨by rw [hslots], hproducers j hin value hcall⟩
      · exact fun _ _ => ⟨by rw [hslots], htail⟩
  · intro j j' hj hj' hkind hpositions
    rw [hsame, hsame] at hpositions
    -- the call itself has a position that nobody has claimed
    by_cases hne : j = i <;> by_cases hne' : j' = i
    · rw [hne, hne']
    · subst hne
      exact absurd hpositions.symm (hfresh j' ((inFlight_iff (hother j' hne')).1 hj') hkind)
    · subst hne'
      exact absurd hpositions (hfresh j ((inFlight_iff (hother j hne)).1 hj) hkind.symm)
    · exact h.unique j j' ((inFlight_iff (hother j hne)).1 hj)
        ((inFlight_iff (hother j' hne')).1 hj') hkind hpositions

/-- **A producer claims its position.** -/
theorem Inv.claim_push (hcapacity : 2 ≤ capacity) (hpc : (s.ops i).pc = .compare) {value : α}
    (hcall : calls i = .push value) (hhead : s.head = (s.ops i).position) :
    Inv capacity calls (s.claim i (.push value)) := by
  obtain ⟨hslot, hroom⟩ := h.base_of_push hcapacity hpc hcall hhead
  have hlen := h.length
  have hq : ∀ n < s.queue.length, (s.queue ++ [value])[n]? = s.queue[n]? := fun n hn =>
    getElem?_append_left hn
  have hother : ∀ j, j ≠ i → (s.claim i (.push value)).ops j = s.ops j := fun j hne =>
    setOp_of_ne _ _ _ hne
  have hself : (s.claim i (.push value)).ops i = { s.ops i with pc := .move } := setOp_self ..
  have hseq : (s.slots (s.head % capacity)).sequence = s.head := by
    cases hslot.phase with
    | free hseq => exact hseq
    | claimed _ _ _ _ hlt | full _ _ hlt | taken _ _ hlt => omega
  refine h.claim hpc hother hself rfl rfl rfl rfl (by rw [hcall]; rfl) (Nat.le_succ _) le_rfl
    ?_ ?_ ?_ ?_ ?_ ?_ ?_ ?_ ?_
  · change s.tail + (s.queue ++ [value]).length = s.head + 1
    rw [length_append, length_singleton]
    omega
  · intro k hk
    by_cases heq : k = s.head % capacity
    · -- the slot that is claimed
      subst heq
      have hfits : s.head + 1 ≤ s.head + capacity := by omega
      have htail : s.tail ≤ s.head := by omega
      exact ⟨s.head, rfl, hslot.base_lt, hfits, .claimed i value hseq htail
        (Nat.lt_succ_self _) hcall (.inl (by rw [hself])) (by rw [hself]; exact hhead.symm)⟩
    · obtain ⟨base, hbase⟩ := h.slots k hk
      have hmod := hbase.base_mod
      have hround := hbase.head_le
      have hne : base ≠ s.head := by
        rintro rfl
        exact heq hmod.symm
      have hne' : base + capacity ≠ s.head := by
        intro hcontra
        rw [← hcontra, Nat.add_mod_right] at heq
        exact heq hmod.symm
      refine ⟨base, hbase.frame rfl le_rfl (Nat.le_succ _) ?_ ?_ id ?_ ?_⟩
      · change s.head + 1 ≤ base + capacity
        omega
      · intro hle
        change s.head + 1 ≤ base
        omega
      · intro hle hlt
        change (s.queue ++ [value])[base - s.tail]? = _
        exact hq _ (by omega)
      · exact fun _ => still_inFlight hpc hother
  · intro value' hcall'
    obtain rfl : value = value' := Call.push.inj (hcall.symm.trans hcall')
    have hqueued : (s.queue ++ [value])[s.head - s.tail]? = some value := by
      rw [getElem?_append_right (by omega),
        show s.head - s.tail - s.queue.length = 0 by omega]
      rfl
    have htail : s.tail ≤ s.head := by omega
    refine ⟨?_, ?_, ?_, ?_, mem_append_right _ (mem_singleton_self _), ?_⟩ <;>
      rw [hself] <;> rw [← hhead]
    · exact htail
    · exact Nat.lt_succ_self _
    · exact hseq
    · exact hqueued
    · exact nofun
  · exact fun hpop => nomatch hcall.symm.trans hpop
  · intro j hin value' hcall'
    have hold := (h.ops j).pushing hin value' hcall'
    have hlt := hold.lt_head
    have htail := hold.tail_le
    have hkept : (s.queue ++ [value])[(s.ops j).position - s.tail]? = some value' := by
      rw [hq _ (by omega)]
      exact hold.queued
    exact ⟨htail, hlt.trans (Nat.lt_succ_self _), hkept⟩
  · intro j hin hkind
    cases hcall' : calls j with
    | push value' =>
      have := ((h.ops j).pushing hin value' hcall').lt_head
      omega
    | pop =>
      rw [hcall, hcall'] at hkind
      exact absurd (hkind.2 rfl) (by nofun)
  · have hreplay := h.replays.concat (i := i)
    have happly : (fifo capacity).apply s.queue (calls i) =
        (s.queue ++ [value], .pushed true) := by
      rw [hcall]
      exact if_pos (by omega)
    rw [happly] at hreplay
    exact hreplay
  · intro p j hj
    simp only [State.claim, pushes_concat_pushed] at hj
    rcases lt_or_ge p (pushes s.log).length with hlt | hge
    · rw [getElem?_append_left hlt] at hj
      exact h.positions p j hj
    · have hclaims := h.claims
      rw [getElem?_append_right hge, getElem?_singleton] at hj
      split_ifs at hj with hp
      rw [← Option.some.inj hj]
      omega
  · simp only [State.claim, pushes_concat_pushed, length_append, length_singleton,
      h.claims]

/-- **A consumer claims its position.** -/
theorem Inv.claim_pop (hcapacity : 2 ≤ capacity) (hpc : (s.ops i).pc = .compare)
    (hcall : calls i = .pop) (htail : s.tail = (s.ops i).position) :
    Inv capacity calls (s.claim i .pop) := by
  obtain ⟨hslot, hlt, hseq, hval⟩ := h.base_of_pop hcapacity hpc hcall htail
  have hlen := h.length
  obtain ⟨value, rest, hq⟩ : ∃ value rest, s.queue = value :: rest := by
    cases hq : s.queue with
    | nil =>
      rw [hq, length_nil] at hlen
      omega
    | cons value rest => exact ⟨value, rest, rfl⟩
  rw [hq] at hlen hval
  have hother : ∀ j, j ≠ i → (s.claim i .pop).ops j = s.ops j := fun j hne =>
    setOp_of_ne _ _ _ hne
  have hself : (s.claim i .pop).ops i = { s.ops i with pc := .move } := setOp_self ..
  -- a position that is not the first keeps its value
  have hrest : ∀ position, s.tail < position →
      s.queue.tail[position - (s.tail + 1)]? = s.queue[position - s.tail]? := by
    intro position hpos
    rw [hq, tail_cons, show position - s.tail = (position - (s.tail + 1)) + 1 by omega,
      getElem?_cons_succ]
  refine h.claim hpc hother hself rfl rfl rfl rfl (by rw [hcall, hq]; exact ⟨value, rfl⟩)
    le_rfl (Nat.le_succ _) ?_ ?_ ?_ ?_ ?_ ?_ ?_ ?_ ?_
  · change s.tail + 1 + s.queue.tail.length = s.head
    rw [hq, tail_cons]
    rw [length_cons] at hlen
    omega
  · intro k hk
    by_cases heq : k = s.tail % capacity
    · -- the slot that is claimed
      subst heq
      have hbase : s.tail < s.tail + 1 + capacity := by omega
      exact ⟨s.tail, rfl, hbase, hslot.head_le, .taken i hseq (Nat.lt_succ_self _) hcall
        (.inl (by rw [hself])) (by rw [hself]; exact htail.symm)⟩
    · obtain ⟨base, hbase⟩ := h.slots k hk
      have hne : base ≠ s.tail := by
        rintro rfl
        exact heq hbase.base_mod.symm
      refine ⟨base, hbase.frame rfl (Nat.le_succ _) le_rfl hbase.head_le id ?_ ?_ ?_⟩
      · intro hle
        change s.tail + 1 ≤ base
        omega
      · exact fun hle _ => hrest base (by omega)
      · exact fun _ => still_inFlight hpc hother
  · exact fun value' hpush => nomatch hcall.symm.trans hpush
  · intro _
    have hlogged : (i, Result.popped (some value)) ∈ s.log ++ [(i, .popped s.queue.head?)] := by
      rw [hq]
      exact mem_append_right _ (mem_singleton_self _)
    refine ⟨value, ?_, ?_, hlogged, ?_, ?_⟩ <;> rw [hself] <;> simp only [← htail]
    · exact Nat.lt_succ_self _
    · exact hseq
    · exact fun _ => hval
    · exact nofun
  · intro j hin value' hcall'
    have hold := (h.ops j).pushing hin value' hcall'
    -- the producer of the first position has stored its number
    have hnot : (s.ops j).position ≠ s.tail := by
      intro hcontra
      have := hold.sequence
      rw [hcontra] at this
      omega
    have hle := hold.tail_le
    have hmore : s.tail + 1 ≤ (s.ops j).position := by omega
    exact ⟨hmore, hold.lt_head, (hrest _ hmore).trans hold.queued⟩
  · intro j hin hkind
    obtain ⟨_, hold⟩ := (h.ops j).popping hin (hkind.1 hcall)
    have := hold.lt_tail
    omega
  · have hreplay := h.replays.concat (i := i)
    have happly : (fifo capacity).apply s.queue (calls i) =
        (s.queue.tail, .popped s.queue.head?) := by
      rw [hcall, hq]
      rfl
    rw [happly] at hreplay
    exact hreplay
  · intro p j hj
    simp only [State.claim, pushes_concat_popped] at hj
    exact h.positions p j hj
  · simp only [State.claim, pushes_concat_popped]
    exact h.claims

/-! ### The slot of a call -/

/-- A call changes its slot, and its own place in the program. -/
theorem Inv.own (hcapacity : 2 ≤ capacity) (hin : InFlight s i) {slot : Slot α} {op : Op α}
    (returned : List ι) (hpos : op.position = (s.ops i).position)
    (hseq : (s.slots ((s.ops i).position % capacity)).sequence ≤ slot.sequence)
    (hret : ∀ j ∈ returned, j ∈ s.returned ∨ j = i ∧ op.pc = .done)
    (hslot : ∃ base, SlotOk capacity calls
      { (s.setSlot ((s.ops i).position % capacity) slot).setOp i op with returned := returned }
      ((s.ops i).position % capacity) base)
    (hop : OpOk capacity calls
      { (s.setSlot ((s.ops i).position % capacity) slot).setOp i op with returned := returned } i) :
    Inv capacity calls
      { (s.setSlot ((s.ops i).position % capacity) slot).setOp i op with
        returned := returned } := by
  have hactive : (s.ops i).pc ≠ .done := by
    intro hdone
    rw [InFlight, hdone] at hin
    rcases hin with hin | hin <;> cases hin
  refine h.frame hcapacity hactive (fun j hne => setOp_of_ne _ _ _ hne) rfl rfl rfl rfl hop
    (fun _ => hin) (fun _ => ?_) (fun k hk => setSlot_of_ne _ _ _ (hk hin)) (fun _ => ⟨?_, hslot⟩)
    ?_ (fun _ => .inl rfl)
  · rw [setOp_self, hpos]
  · simpa only [State.setOp, setSlot_self] using hseq
  · simpa only [setOp_self] using hret

/-- **The value goes into its slot, or out of it.** -/
theorem Inv.move {k : ℕ} (hpower : capacity = 2 ^ (k + 1)) (hpc : (s.ops i).pc = .move) :
    Inv capacity calls (s.move capacity i (calls i)) := by
  have hcapacity := two_le_of_power hpower
  have hin : InFlight s i := .inl hpc
  have hbase := h.base_of_inFlight hcapacity hin
  have hnone : ∀ r, (s.ops i).result ≠ some r := by
    intro r hr
    have := ((h.ops i).result r hr).1
    rw [hpc] at this
    cases this
  cases hcall : calls i with
  | push value =>
    have hpushing := (h.ops i).pushing hin value hcall
    simp only [State.move, index_eq hpower]
    refine h.own hcapacity hin s.returned rfl le_rfl (fun j hj => .inl hj)
      ⟨(s.ops i).position, ?_⟩ ?_
    · refine ⟨rfl, hbase.base_lt, hbase.head_le, ?_⟩
      refine .claimed i value ?_ hpushing.tail_le hpushing.lt_head hcall ?_ ?_
      · simp only [State.setOp, setSlot_self]
        exact hpushing.sequence
      · simp [InFlight]
      · simp
    · refine ⟨by simp, by simp, fun _ value' hcall' => ?_, fun _ hpop => ?_,
        fun _ _ => by simp [InFlight], fun r hr => absurd (by simpa using hr) (hnone r)⟩
      · obtain rfl : value = value' := by
          rw [hcall] at hcall'
          exact Call.push.inj hcall'
        refine ⟨?_, ?_, ?_, ?_, hpushing.logged, fun _ => ?_⟩ <;>
          simp only [setOp_self] <;> simp only [State.setOp, setSlot_self]
        · exact hpushing.tail_le
        · exact hpushing.lt_head
        · exact hpushing.sequence
        · exact hpushing.queued
      · rw [hcall] at hpop
        cases hpop
  | pop =>
    obtain ⟨value, hpopping⟩ := (h.ops i).popping hin hcall
    simp only [State.move, index_eq hpower]
    refine h.own hcapacity hin s.returned rfl le_rfl (fun j hj => .inl hj)
      ⟨(s.ops i).position, ?_⟩ ?_
    · refine ⟨rfl, hbase.base_lt, hbase.head_le, ?_⟩
      refine .taken i ?_ hpopping.lt_tail hcall ?_ ?_
      · simp only [State.setOp, setSlot_self]
        exact hpopping.sequence
      · simp [InFlight]
      · simp
    · refine ⟨by simp, by simp, fun _ value' hpush => ?_, fun _ _ => ⟨value, ?_⟩,
        fun _ _ => by simp [InFlight], fun r hr => absurd (by simpa using hr) (hnone r)⟩
      · rw [hcall] at hpush
        cases hpush
      · refine ⟨?_, ?_, hpopping.logged, fun hpc' => ?_, fun _ => ?_⟩ <;>
          simp only [setOp_self] at *
        · exact hpopping.lt_tail
        · simp only [State.setOp, setSlot_self]
          exact hpopping.sequence
        · cases hpc'
        · exact hpopping.full hpc

/-- **The sequence number is stored.** -/
theorem Inv.publish {k : ℕ} (hpower : capacity = 2 ^ (k + 1)) (hpc : (s.ops i).pc = .publish) :
    Inv capacity calls
      ((s.setSlot (index capacity (s.ops i).position)
        { s.slots (index capacity (s.ops i).position) with
          sequence := (calls i).stored capacity (s.ops i).position }).finish i
        ((s.ops i).success (calls i))) := by
  have hcapacity := two_le_of_power hpower
  have hin : InFlight s i := .inr hpc
  have hbase := h.base_of_inFlight hcapacity hin
  simp only [State.finish, index_eq hpower]
  cases hcall : calls i with
  | push value =>
    have hpushing := (h.ops i).pushing hin value hcall
    have hseq := hpushing.sequence
    refine h.own hcapacity hin (s.returned ++ [i]) rfl ?_ (fun _ => mem_returned_concat)
      ⟨(s.ops i).position, ?_⟩ ?_
    · simp only [Call.stored]
      omega
    · -- the slot is full
      refine ⟨rfl, hbase.base_lt, hbase.head_le, .full ?_ hpushing.tail_le hpushing.lt_head ?_⟩
      · simp only [State.setOp, setSlot_self, Call.stored]
      · simp only [State.setOp, setSlot_self]
        exact (hpushing.moved hpc).trans hpushing.queued.symm
    · refine ⟨by simp, by simp, ?_, ?_, fun _ _ => .inr (by simp), fun r hr => ?_⟩
      · simp [InFlight]
      · simp [InFlight]
      · simp only [setOp_self, Option.some.injEq] at hr ⊢
        rw [← hr]
        exact ⟨trivial, .inr hpushing.logged⟩
  | pop =>
    obtain ⟨value, hpopping⟩ := (h.ops i).popping hin hcall
    have hseq := hpopping.sequence
    have hlt := hpopping.lt_tail
    refine h.own hcapacity hin (s.returned ++ [i]) rfl ?_ (fun _ => mem_returned_concat)
      ⟨(s.ops i).position + capacity, ?_⟩ ?_
    · simp only [Call.stored]
      omega
    · -- the slot is free for the next round
      have hhead := hbase.head_le
      refine ⟨Nat.add_mod_right _ _, ?_, ?_, .free ?_ hhead⟩
      · exact Nat.add_lt_add_right hlt _
      · exact hhead.trans (Nat.le_add_right _ _)
      · simp only [State.setOp, setSlot_self, Call.stored]
    · refine ⟨by simp, by simp, ?_, ?_, fun _ _ => .inr (by simp), fun r hr => ?_⟩
      · simp [InFlight]
      · simp [InFlight]
      · simp only [setOp_self, Option.some.injEq] at hr ⊢
        rw [← hr, Op.success, hpopping.moved hpc]
        exact ⟨trivial, .inr hpopping.logged⟩

/-! ### Runs -/

/-- The local copy of `head_` or `tail_` is loaded again. -/
theorem Inv.reload (hcapacity : 2 ≤ capacity) (hactive : (s.ops i).pc ≠ .done)
    (hpre : ¬ InFlight s i) :
    Inv capacity calls
      (s.setOp i { s.ops i with pc := .sequence, position := s.counter (calls i) }) :=
  h.quiet hcapacity s.returned s.earlier hpre hactive (fun _ => le_rfl) (by simp) (by simp)
    (.inl rfl) (fun _ => .inl) (fun _ => .inl rfl)

end

theorem act_inv {k : ℕ} (hpower : capacity = 2 ^ (k + 1)) (h : Inv capacity calls s)
    (hact : act capacity calls s i = some s') : Inv capacity calls s' := by
  have hcapacity := two_le_of_power hpower
  rw [act] at hact
  simp only [index_eq hpower] at hact
  cases hpc : (s.ops i).pc with
  | idle | done =>
    rw [hpc] at hact
    cases hact
  | load =>
    simp only [hpc] at hact
    cases hact
    exact h.reload hcapacity (by simp [hpc]) (by simp [InFlight, hpc])
  | sequence =>
    have hpos := (h.ops i).position_le (.inl hpc)
    simp only [hpc] at hact
    split_ifs at hact with hequal hless <;> cases hact
    · -- the slot is ready
      exact h.quiet hcapacity s.returned s.earlier (by simp [InFlight, hpc]) (by simp [hpc])
        (fun _ => hpos) (fun _ => hequal.ge) (by simp) (.inl rfl) (fun _ => .inl)
        (fun _ => .inl rfl)
    · -- the call fails
      exact h.quiet hcapacity (s.returned ++ [i]) s.earlier (by simp [InFlight, hpc]) (by simp [hpc])
        (by simp) (by simp) (by simp) (.inr ⟨rfl, rfl⟩) (fun _ => mem_returned_concat)
        (fun _ => .inl rfl)
    · exact h.quiet hcapacity s.returned s.earlier (by simp [InFlight, hpc]) (by simp [hpc])
        (by simp) (by simp) (by simp) (.inl rfl) (fun _ => .inl) (fun _ => .inl rfl)
  | compare =>
    simp only [hpc] at hact
    split_ifs at hact with hequal <;> cases hact
    · cases hcall : calls i with
      | push value =>
        rw [hcall] at hequal
        exact h.claim_push hcapacity hpc hcall hequal
      | pop =>
        rw [hcall] at hequal
        exact h.claim_pop hcapacity hpc hcall hequal
    · exact h.reload hcapacity (by simp [hpc]) (by simp [InFlight, hpc])
  | move =>
    simp only [hpc] at hact
    cases hact
    exact h.move hpower hpc
  | publish =>
    simp only [hpc] at hact
    cases hact
    have := h.publish hpower hpc
    rwa [index_eq hpower] at this

theorem step_inv {k : ℕ} (hpower : capacity = 2 ^ (k + 1)) {l : Label ι}
    (h : Inv capacity calls s) (hstep : step capacity calls s l = some s') :
    Inv capacity calls s' := by
  have hcapacity := two_le_of_power hpower
  cases l with
  | start i =>
    rw [step] at hstep
    split_ifs at hstep with hpc
    cases hstep
    refine h.quiet hcapacity s.returned (update s.earlier i s.returned) (by simp [InFlight, hpc])
      (by simp [hpc]) (by simp) (by simp) (by simp) (.inl rfl) (fun _ => .inl) ?_
    intro j
    by_cases hne : j = i
    · rw [hne, update_self]
      exact .inr ⟨rfl, rfl⟩
    · exact .inl (update_of_ne hne ..)
  | act i => exact act_inv hpower h hstep
  | spurious i =>
    rw [step] at hstep
    split_ifs at hstep with hpc
    cases hstep
    exact h.reload hcapacity (by simp [hpc]) (by simp [InFlight, hpc])

/-- **The invariant holds in every reachable state.** -/
theorem inv_of_reachable {k : ℕ} (hpower : capacity = 2 ^ (k + 1))
    (h : (system capacity calls).Reachable s) : Inv capacity calls s :=
  h.invariant (fun _ hs => hs ▸ initial_inv) fun _ _ _ hinv _ hstep => step_inv hpower hinv hstep

/-! ### The ring is a queue -/

/-- Two producers and a consumer. -/
def threeCalls : Fin 3 → Call ℕ
  | 0 => .push 1
  | 1 => .push 2
  | 2 => .pop

/-- The first producer claims its position and is held up; the second returns; then the consumer
looks. -/
def heldUp : List (Label (Fin 3)) :=
  [.start 0, .act 0, .act 0, .act 0, .start 1, .act 1, .act 1, .act 1, .act 1, .act 1, .start 2,
    .act 2, .act 2]

theorem isSome_heldUp :
    ((system (roundedCapacity 2) threeCalls).run .initial heldUp).isSome := rfl

/-- The state after `heldUp`. -/
def heldUpState : State (Fin 3) ℕ :=
  ((system (roundedCapacity 2) threeCalls).run .initial heldUp).get isSome_heldUp

theorem reachable_heldUpState : (system (roundedCapacity 2) threeCalls).Reachable heldUpState :=
  TransitionSystem.reachable_of_run rfl (Option.some_get isSome_heldUp).symm

end Elio.LockfreeRing
