/-
**`elio::sync::LockfreeMPMCRing`.**

A bounded queue without locks.  A producer reads `head_`, looks at the sequence number of the slot
of that position, and claims the position by moving `head_` on; then it moves its value into the
slot and publishes it by storing the next sequence number.  A consumer does the same at `tail_`, and
the number it stores makes the slot free for the position one round later.

Every access of an atomic variable is one step, and so is the move of a value into or out of a slot.
Positions and sequence numbers are natural numbers: fewer than `2 ^ 64` calls are made.

A state also has what the results speak about: the order in which the calls have claimed their
positions, with the results that belong to it, the values of the claimed positions that were not
claimed by a consumer, and which calls had returned when a call was made.

Main definitions:

* `system` — the ring under any number of calls;
* `fifo` — the queue it is compared with.

Main results:

* `roundedCapacity_spec` — **the capacity is a power of two that is not below what was asked for**.
-/

import Elio.TransitionSystem
import Elio.Linearizability
import Mathlib.Data.Nat.Bitwise
import Mathlib.Data.Nat.Size

set_option autoImplicit false

namespace Elio.LockfreeRing

/-! ### The capacity -/

/-- `n |= n >> shift`. -/
def smear (n shift : ℕ) : ℕ := n ||| n >>> shift

/-- `next_power_of_2`. -/
def nextPowerOf2 (n : ℕ) : ℕ :=
  if n = 0 then 1
  else
    let n := n - 1
    let n := smear n 1
    let n := smear n 2
    let n := smear n 4
    let n := smear n 8
    let n := smear n 16
    let n := smear n 32
    (n + 1) % 2 ^ 64

/-- `capacity_`. -/
def roundedCapacity (capacity : ℕ) : ℕ := nextPowerOf2 (max capacity 2)

theorem testBit_smear (n shift i : ℕ) :
    (smear n shift).testBit i = (n.testBit i || n.testBit (i + shift)) := by
  rw [smear, Nat.testBit_or, Nat.testBit_shiftRight, Nat.add_comm shift i]

/-- The bits of `n` are spread over the `width` places below them. -/
def Spread (n m width : ℕ) : Prop :=
  ∀ i, m.testBit i = true ↔ ∃ j < width, n.testBit (i + j) = true

theorem Spread.smear {n m width : ℕ} (h : Spread n m width) :
    Spread n (smear m width) (2 * width) := by
  intro i
  rw [testBit_smear, Bool.or_eq_true, h i, h (i + width)]
  constructor
  · rintro (⟨j, hj, hbit⟩ | ⟨j, hj, hbit⟩)
    · exact ⟨j, by omega, hbit⟩
    · exact ⟨width + j, by omega, by rwa [← Nat.add_assoc]⟩
  · rintro ⟨j, hj, hbit⟩
    by_cases hlow : j < width
    · exact .inl ⟨j, hlow, hbit⟩
    · refine .inr ⟨j - width, by omega, ?_⟩
      rwa [Nat.add_assoc, Nat.add_sub_cancel' (by omega)]

/-- A number of at most 64 bits, spread over 64 places, has every bit below its highest. -/
theorem Spread.eq_two_pow {n m : ℕ} (h : Spread n m 64) (hn : n < 2 ^ 64) :
    m = 2 ^ n.size - 1 := by
  refine Nat.eq_of_testBit_eq fun i => ?_
  rw [Nat.testBit_two_pow_sub_one, Bool.eq_iff_iff, h i, decide_eq_true_eq]
  constructor
  · rintro ⟨j, -, hbit⟩
    by_contra hle
    have hsmall : n < 2 ^ (i + j) :=
      (Nat.lt_size_self n).trans_le (Nat.pow_le_pow_right (by decide) (by omega))
    rw [Nat.testBit_lt_two_pow hsmall] at hbit
    cases hbit
  · intro hi
    have hsize : n.size ≤ 64 := Nat.size_le.2 hn
    -- the highest bit is set
    have htop : n.testBit (n.size - 1) = true := by
      refine Nat.testBit_of_two_pow_le_and_two_pow_add_one_gt (Nat.lt_size.1 (by omega)) ?_
      rw [Nat.sub_add_cancel (by omega)]
      exact Nat.lt_size_self n
    exact ⟨n.size - 1 - i, by omega, by rwa [show i + (n.size - 1 - i) = n.size - 1 by omega]⟩

theorem nextPowerOf2_eq {n : ℕ} (hpos : 0 < n) (hle : n ≤ 2 ^ 63) :
    nextPowerOf2 n = 2 ^ (n - 1).size := by
  have hbase : Spread (n - 1) (n - 1) 1 := by
    intro i
    constructor
    · exact fun h => ⟨0, by decide, h⟩
    · rintro ⟨j, hj, hbit⟩
      rwa [show j = 0 by omega] at hbit
  have hspread := hbase.smear.smear.smear.smear.smear.smear
  have heq := hspread.eq_two_pow (by omega)
  have hsize : (n - 1).size ≤ 63 := Nat.size_le.2 (by omega)
  have hlt : 2 ^ (n - 1).size < 2 ^ 64 := Nat.pow_lt_pow_right (by decide) (by omega)
  have hone : 0 < 2 ^ (n - 1).size := Nat.two_pow_pos _
  rw [nextPowerOf2, if_neg (by omega)]
  simp only
  rw [heq, Nat.sub_add_cancel hone, Nat.mod_eq_of_lt hlt]

/-- **The capacity is a power of two, at least two, and less than twice what is needed.** -/
theorem roundedCapacity_spec {requested : ℕ} (h : requested ≤ 2 ^ 63) :
    ∃ k, roundedCapacity requested = 2 ^ (k + 1) ∧ requested ≤ roundedCapacity requested ∧
      roundedCapacity requested < 2 * max requested 2 := by
  have hle : max requested 2 ≤ 2 ^ 63 := by omega
  have heq : roundedCapacity requested = 2 ^ (max requested 2 - 1).size :=
    nextPowerOf2_eq (by omega) hle
  have hsize : 0 < (max requested 2 - 1).size := Nat.size_pos.2 (by omega)
  have habove := Nat.lt_size_self (max requested 2 - 1)
  have hbelow : 2 ^ ((max requested 2 - 1).size - 1) ≤ max requested 2 - 1 :=
    Nat.lt_size.1 (by omega)
  rw [heq]
  obtain ⟨k, hk⟩ := Nat.exists_eq_add_of_lt hsize
  rw [hk, Nat.zero_add] at habove hbelow ⊢
  rw [Nat.add_sub_cancel] at hbelow
  rw [Nat.pow_succ] at habove ⊢
  exact ⟨k, rfl, by omega, by omega⟩

/-! ### States -/

/-- A call. -/
inductive Call (α : Type*) where
  | push (value : α)
  | pop
  deriving DecidableEq, Repr

/-- What a call returns. -/
inductive Result (α : Type*) where
  | pushed (success : Bool)
  | popped (value : Option α)
  deriving DecidableEq, Repr

/-- What a call does next. -/
inductive Pc where
  | idle
  /-- Load `head_` or `tail_`. -/
  | load
  /-- Load the sequence number of the slot. -/
  | sequence
  /-- `compare_exchange_weak` on `head_` or `tail_`. -/
  | compare
  /-- Move the value into the slot, or out of it. -/
  | move
  /-- Store the sequence number. -/
  | publish
  | done
  deriving DecidableEq, Repr

/-- `Slot`. -/
structure Slot (α : Type*) where
  sequence : ℕ
  value : Option α
  deriving DecidableEq, Repr

/-- A call under way: the local `head` or `tail`, the value that was taken, and the result. -/
structure Op (α : Type*) where
  pc : Pc
  position : ℕ
  value : Option α
  result : Option (Result α)
  deriving DecidableEq, Repr

variable {ι α : Type*}

/-- The ring and its calls. -/
structure State (ι α : Type*) where
  head : ℕ
  tail : ℕ
  slots : ℕ → Slot α
  ops : ι → Op α
  /-- The calls that have claimed a position, in this order, with their results. -/
  log : List (ι × Result α)
  /-- The values of the positions from `tail` to `head`. -/
  queue : List α
  /-- The calls that have returned. -/
  returned : List ι
  /-- The calls that had returned when the call was made. -/
  earlier : ι → List ι

/-- The constructor. -/
def State.initial : State ι α where
  head := 0
  tail := 0
  slots i := ⟨i, none⟩
  ops _ := ⟨.idle, 0, none, none⟩
  log := []
  queue := []
  returned := []
  earlier _ := []

/-! ### Steps -/

/-- The index `position & mask_`. -/
def index (capacity position : ℕ) : ℕ := position &&& (capacity - 1)

/-- The variable a call moves on: `head_` for a producer, `tail_` for a consumer. -/
def State.counter (s : State ι α) : Call α → ℕ
  | .push _ => s.head
  | .pop => s.tail

/-- The sequence number that lets a call claim a position. -/
def Call.expected : Call α → ℕ → ℕ
  | .push _, position => position
  | .pop, position => position + 1

/-- The sequence number that a call stores in the end. -/
def Call.stored (capacity : ℕ) : Call α → ℕ → ℕ
  | .push _, position => position + 1
  | .pop, position => position + capacity

/-- What a call returns when the ring is full, or empty. -/
def Call.failure : Call α → Result α
  | .push _ => .pushed false
  | .pop => .popped none

variable [DecidableEq ι]

/-- The call `i` changes. -/
def State.setOp (s : State ι α) (i : ι) (op : Op α) : State ι α :=
  { s with ops := Function.update s.ops i op }

/-- The slot `k` changes. -/
def State.setSlot (s : State ι α) (k : ℕ) (slot : Slot α) : State ι α :=
  { s with slots := Function.update s.slots k slot }

/-- The call `i` returns. -/
def State.finish (s : State ι α) (i : ι) (result : Result α) : State ι α :=
  { s.setOp i { s.ops i with pc := .done, result := some result } with returned := s.returned ++ [i] }

/-- The call `i` claims its position. -/
def State.claim (s : State ι α) (i : ι) : Call α → State ι α
  | .push value =>
    { s.setOp i { s.ops i with pc := .move } with
      head := s.head + 1
      log := s.log ++ [(i, .pushed true)]
      queue := s.queue ++ [value] }
  | .pop =>
    { s.setOp i { s.ops i with pc := .move } with
      tail := s.tail + 1
      log := s.log ++ [(i, .popped s.queue.head?)]
      queue := s.queue.tail }

/-- The value goes into the slot of its position, or out of it. -/
def State.move (capacity : ℕ) (s : State ι α) (i : ι) (call : Call α) : State ι α :=
  let op := s.ops i
  let k := index capacity op.position
  let slot := s.slots k
  match call with
  | .push value =>
    (s.setSlot k { slot with value := some value }).setOp i { op with pc := .publish }
  | .pop =>
    (s.setSlot k { slot with value := none }).setOp i { op with pc := .publish, value := slot.value }

/-- What a call returns after it has stored the sequence number. -/
def Op.success (op : Op α) : Call α → Result α
  | .push _ => .pushed true
  | .pop => .popped op.value

/-- The next step of the call `i` in `try_push` or `try_pop`. -/
def act (capacity : ℕ) (calls : ι → Call α) (s : State ι α) (i : ι) : Option (State ι α) :=
  let op := s.ops i
  let call := calls i
  let k := index capacity op.position
  let slot := s.slots k
  match op.pc with
  | .idle | .done => none
  | .load => some (s.setOp i { op with pc := .sequence, position := s.counter call })
  | .sequence =>
    if slot.sequence = call.expected op.position then some (s.setOp i { op with pc := .compare })
    else if slot.sequence < call.expected op.position then some (s.finish i call.failure)
    else some (s.setOp i { op with pc := .load })
  | .compare =>
    if s.counter call = op.position then some (s.claim i call)
    else some (s.setOp i { op with pc := .sequence, position := s.counter call })
  | .move => some (s.move capacity i call)
  | .publish =>
    some ((s.setSlot k { slot with sequence := call.stored capacity op.position }).finish i
      (op.success call))

/-- The steps. -/
inductive Label (ι : Type*) where
  /-- The call is made. -/
  | start (i : ι)
  /-- The call does its next step. -/
  | act (i : ι)
  /-- `compare_exchange_weak` fails although the value is the expected one. -/
  | spurious (i : ι)
  deriving DecidableEq, Repr

/-- The step function. -/
def step (capacity : ℕ) (calls : ι → Call α) (s : State ι α) : Label ι → Option (State ι α)
  | .start i =>
    if (s.ops i).pc = .idle then
      some { s.setOp i { s.ops i with pc := .load } with
        earlier := Function.update s.earlier i s.returned }
    else none
  | .act i => act capacity calls s i
  | .spurious i =>
    if (s.ops i).pc = .compare then
      some (s.setOp i { s.ops i with pc := .sequence, position := s.counter (calls i) })
    else none

/-- The ring under the given calls. -/
def system (capacity : ℕ) (calls : ι → Call α) : TransitionSystem (State ι α) (Label ι) where
  init s := s = .initial
  step := step capacity calls

/-! ### The queue -/

/-- The bounded queue: a call fails when the queue is full, or empty. -/
def fifo (capacity : ℕ) : SequentialObject (List α) (Call α) (Result α) where
  initial := []
  apply
    | queue, .push value =>
      if queue.length < capacity then (queue ++ [value], .pushed true) else (queue, .pushed false)
    | [], .pop => ([], .popped none)
    | value :: queue, .pop => (queue, .popped (some value))

/-- What is seen of the calls. -/
def history (s : State ι α) : History ι (Result α) where
  invoked i := (s.ops i).pc ≠ .idle
  result i := (s.ops i).result
  precedes i j := i ∈ s.earlier j

/-- The call has failed. -/
def failed (s : State ι α) (i : ι) : Bool :=
  match (s.ops i).result with
  | some (.pushed false) | some (.popped none) => true
  | _ => false

/-- The values that were pushed, in the order of the calls. -/
def pushedValues (calls : ι → Call α) (log : List (ι × Result α)) : List α :=
  log.filterMap fun entry => match calls entry.1, entry.2 with
    | .push value, .pushed true => some value
    | _, _ => none

/-- The values that were popped, in the order of the calls. -/
def poppedValues (log : List (ι × Result α)) : List α :=
  log.filterMap fun entry => match entry.2 with
    | .popped value => value
    | .pushed _ => none

end Elio.LockfreeRing
