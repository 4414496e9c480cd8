/-
**`elio::runtime::chase_lev_deque`.**

The deque of a worker.  Its owner pushes and pops at the bottom, and any number of thieves steal
from the top.  The items are in a circular buffer, which the owner replaces by one of twice the size
when it is full; a buffer that was replaced is deleted once the counter of the thieves shows that
none of them can still read from it.

Every access of an atomic variable is one step, the loads and stores of the slots included, and the
steps of all calls interleave in any order.  Indices are natural numbers that do not overflow.

A state also has what the results speak about: the items in the order in which they were pushed, so
that a push is named by its number; for every index the number of the push that it was last used
for; where each pushed item is; the numbers of the stolen items in the order of the steals; and what
the calls returned.

Main definitions:

* `Buffer` — `circular_buffer`, whose capacity is a power of two;
* `system` — the deque, its owner and its thieves;
* `State.limit` — where the items end: the bottom, or one above it while a pop has lowered the
  bottom and not yet decided.
-/

import Elio.TransitionSystem
import Mathlib.Data.Nat.Bitwise
import Mathlib.Logic.Function.Basic

set_option autoImplicit false

namespace Elio.ChaseLevDeque

open Function (update update_self update_of_ne)

/-! ### Buffers -/

/-- `circular_buffer`. -/
structure Buffer (P : Type*) where
  capacity : ℕ
  slots : ℕ → P
  isPow : ∃ k, capacity = 2 ^ k

namespace Buffer

variable {P : Type*}

/-- The slot of an index: `index & mask_`. -/
def position (buf : Buffer P) (index : ℕ) : ℕ := index &&& (buf.capacity - 1)

/-- `store`. -/
def store (buf : Buffer P) (index : ℕ) (item : P) : Buffer P :=
  { buf with slots := update buf.slots (buf.position index) item }

/-- `load`. -/
def load (buf : Buffer P) (index : ℕ) : P := buf.slots (buf.position index)

/-- The buffer that `grow` starts with. -/
def doubled (null : P) (buf : Buffer P) : Buffer P where
  capacity := buf.capacity * 2
  slots := fun _ => null
  isPow := by
    obtain ⟨k, hk⟩ := buf.isPow
    exact ⟨k + 1, by rw [hk, Nat.pow_succ]⟩

theorem capacity_pos (buf : Buffer P) : 0 < buf.capacity := by
  obtain ⟨k, hk⟩ := buf.isPow
  rw [hk]
  exact Nat.two_pow_pos k

theorem position_eq_mod (buf : Buffer P) (index : ℕ) : buf.position index = index % buf.capacity := by
  obtain ⟨k, hk⟩ := buf.isPow
  rw [position, hk, Nat.and_two_pow_sub_one_eq_mod]

@[simp] theorem load_store_self (buf : Buffer P) (index : ℕ) (item : P) :
    (buf.store index item).load index = item := update_self ..

theorem position_ne_of_lt {buf : Buffer P} {i j : ℕ} (hlt : i < j) (hj : j < i + buf.capacity) :
    buf.position i ≠ buf.position j := by
  rw [position_eq_mod, position_eq_mod]
  intro hmod
  have hzero := Nat.sub_mod_eq_zero_of_mod_eq hmod.symm
  rw [Nat.mod_eq_of_lt (by omega)] at hzero
  omega

/-- A store leaves the other indices of one round. -/
theorem load_store_of_ne {buf : Buffer P} {i j : ℕ} (item : P) (hne : i ≠ j)
    (hi : i < j + buf.capacity) (hj : j < i + buf.capacity) :
    (buf.store j item).load i = buf.load i := by
  have hpos : buf.position i ≠ buf.position j := by
    rcases lt_or_gt_of_ne hne with hlt | hgt
    · exact position_ne_of_lt hlt hj
    · exact (position_ne_of_lt hgt hi).symm
  exact update_of_ne hpos ..

end Buffer

/-- The loop that finds the initial capacity, with a bound on its rounds. -/
def roundUp (initial : ℕ) : ℕ → ℕ → ℕ
  | 0, capacity => capacity
  | rounds + 1, capacity =>
    if capacity < initial then roundUp initial rounds (capacity <<< 1) else capacity

/-- The initial capacity. -/
def initialCapacity (initial : ℕ) : ℕ := roundUp initial initial 1

theorem roundUp_spec {initial rounds k : ℕ} (h : initial ≤ rounds + 2 ^ k) :
    initial ≤ roundUp initial rounds (2 ^ k) ∧ ∃ m, roundUp initial rounds (2 ^ k) = 2 ^ m := by
  induction rounds generalizing k with
  | zero => exact ⟨by simpa [roundUp] using h, k, rfl⟩
  | succ rounds ih =>
    rw [roundUp]
    split_ifs with hsmall
    · have hshift : 2 ^ k <<< 1 = 2 ^ (k + 1) := by rw [Nat.shiftLeft_eq, Nat.pow_succ]; rfl
      have hpos := Nat.two_pow_pos k
      rw [hshift]
      exact ih (by rw [Nat.pow_succ]; omega)
    · exact ⟨by omega, k, rfl⟩

/-- The loop ends with a power of two that is not below what was asked for. -/
theorem initialCapacity_spec (initial : ℕ) :
    initial ≤ initialCapacity initial ∧ ∃ m, initialCapacity initial = 2 ^ m :=
  roundUp_spec (k := 0) (by omega)

/-! ### States -/

/-- What the owner does next.  `b` and `t` are the local copies of `bottom_` and `top_`. -/
inductive OwnerPc (P : Type*) where
  | idle
  /-- `push`: load `top_`. -/
  | pushTop (item : P) (b : ℕ)
  /-- `push`: load `buffer_`, and enter `resize` if it is full. -/
  | pushBuffer (item : P) (b t : ℕ)
  /-- `grow`: load the next item of the old buffer. -/
  | growLoad (item : P) (b t old new i : ℕ)
  /-- `grow`: store it in the new one. -/
  | growStore (item : P) (b t old new i : ℕ) (moved : P)
  /-- `resize`: store `buffer_`. -/
  | publish (item : P) (b t old new : ℕ)
  /-- `resize`: append to `old_buffers_` and load `active_thieves_`. -/
  | retire (item : P) (b old new : ℕ)
  /-- `resize`: delete the buffers that are left. -/
  | reclaim (item : P) (b new : ℕ) (rest : List ℕ)
  /-- `push`: store the item. -/
  | pushStore (item : P) (b buf : ℕ)
  /-- `push`: store `bottom_`. -/
  | pushBottom (item : P) (b : ℕ)
  /-- `pop`: load `buffer_`. -/
  | popBuffer (b : ℕ)
  /-- `pop`: store the lower `bottom_`. -/
  | popBottom (b buf : ℕ)
  /-- `pop`: load `top_`. -/
  | popTop (b buf : ℕ)
  /-- `pop`: load the item.  If it is not the last one, it is taken already. -/
  | popLoad (b t buf : ℕ) (taken : Option ℕ)
  /-- `pop`: `compare_exchange_strong` on `top_`. -/
  | popCompare (b t : ℕ) (item : P)
  /-- `pop`: store `bottom_` after the exchange. -/
  | popWon (b : ℕ) (item : P) (taken : ℕ)
  /-- `pop`: store `bottom_` when there is nothing to return. -/
  | popLost (b : ℕ)
  /-- `pop` returns. -/
  | popReturn (item : P) (taken : Option ℕ)
  deriving DecidableEq, Repr

/-- What a thief does next. -/
inductive ThiefPc (P : Type*) where
  | idle
  /-- Load `top_`. -/
  | top
  /-- Load `bottom_`. -/
  | bottom (t : ℕ)
  /-- Load `buffer_`. -/
  | buffer (t : ℕ)
  /-- Load the item. -/
  | load (t buf : ℕ)
  /-- `compare_exchange_strong` on `top_`. -/
  | compare (t : ℕ) (item : P)
  /-- Decrement `active_thieves_` and return. -/
  | leave (item : P) (taken : Option ℕ)
  deriving DecidableEq, Repr

/-- Where a pushed item is: the party `none` is the owner, `some i` is a thief. -/
inductive Place (ι : Type*) where
  | unborn
  | live
  | held (party : Option ι)
  | returned
  deriving DecidableEq, Repr

/-- What a call of `pop` or `steal` returned, and the number of the push that it comes from. -/
structure Return (ι P : Type*) where
  party : Option ι
  item : P
  number : Option ℕ
  deriving DecidableEq, Repr

/-- The deque, its owner and its thieves. -/
structure State (ι P : Type*) where
  top : ℕ
  bottom : ℕ
  /-- `buffer_`: buffers have numbers for addresses. -/
  buffer : ℕ
  activeThieves : ℕ
  oldBuffers : List ℕ
  heap : ℕ → Buffer P
  /-- The next address. -/
  fresh : ℕ
  /-- The buffers that were deleted. -/
  freed : ℕ → Bool
  owner : OwnerPc P
  thief : ι → ThiefPc P
  /-- The items that were pushed. -/
  pushed : List P
  /-- The number of the push that an index was last used for. -/
  slot : ℕ → ℕ
  place : ℕ → Place ι
  /-- The numbers of the stolen items. -/
  stolen : List ℕ
  /-- What the calls returned. -/
  log : List (Return ι P)

variable {ι P : Type*}

namespace State

/-- The constructor. -/
def initial (null : P) (capacity : ℕ) : State ι P where
  top := 0
  bottom := 0
  buffer := 0
  activeThieves := 0
  oldBuffers := []
  heap := fun _ => ⟨initialCapacity capacity, fun _ => null, (initialCapacity_spec capacity).2⟩
  fresh := 1
  freed := fun _ => false
  owner := .idle
  thief := fun _ => .idle
  pushed := []
  slot := fun _ => 0
  place := fun _ => .unborn
  stolen := []
  log := []

/-- Where the items end. -/
def limit (s : State ι P) : ℕ :=
  match s.owner with
  | .popTop b _ => b + 1
  | .popLoad b _ _ none => b + 1
  | .popCompare b _ _ => b + 1
  | .popWon b _ _ => b + 1
  | .popLost b => b + 1
  | _ => s.bottom

/-- The item that a party has taken and not yet returned. -/
def hand (s : State ι P) : Option ι → Option ℕ
  | none =>
    match s.owner with
    | .popLoad _ _ _ taken => taken
    | .popWon _ _ taken => some taken
    | .popReturn _ taken => taken
    | _ => none
  | some i =>
    match s.thief i with
    | .leave _ taken => taken
    | _ => none

/-- The numbers of the items that were returned. -/
def returned (s : State ι P) : List ℕ := s.log.filterMap Return.number

end State

/-! ### Steps -/

/-- The steps: the owner calls `push` or `pop` or goes on, a thief calls `steal` or goes on. -/
inductive Label (ι P : Type*) where
  | push (item : P)
  | pop
  | owner
  | steal (i : ι)
  | thief (i : ι)
  deriving DecidableEq, Repr

variable [DecidableEq ι]

/-- A step of the owner. -/
def ownerStep (null : P) (s : State ι P) : Option (State ι P) :=
  match s.owner with
  | .idle => none
  | .pushTop item b => some { s with owner := .pushBuffer item b s.top }
  | .pushBuffer item b t =>
    if (s.heap s.buffer).capacity - 1 ≤ b - t then
      some { s with
        heap := update s.heap s.fresh ((s.heap s.buffer).doubled null)
        fresh := s.fresh + 1
        owner := .growLoad item b t s.buffer s.fresh t }
    else some { s with owner := .pushStore item b s.buffer }
  | .growLoad item b t old new i =>
    if i < b then some { s with owner := .growStore item b t old new i ((s.heap old).load i) }
    else some { s with owner := .publish item b t old new }
  | .growStore item b t old new i moved =>
    some { s with
      heap := update s.heap new ((s.heap new).store i moved)
      owner := .growLoad item b t old new (i + 1) }
  | .publish item b _ old new => some { s with buffer := new, owner := .retire item b old new }
  | .retire item b old new =>
    if s.activeThieves = 0 then
      some { s with
        oldBuffers := s.oldBuffers ++ [old]
        owner := .reclaim item b new (s.oldBuffers ++ [old]) }
    else some { s with oldBuffers := s.oldBuffers ++ [old], owner := .pushStore item b new }
  | .reclaim item b new (buf :: rest) =>
    some { s with freed := update s.freed buf true, owner := .reclaim item b new rest }
  | .reclaim item b new [] => some { s with oldBuffers := [], owner := .pushStore item b new }
  | .pushStore item b buf =>
    some { s with
      heap := update s.heap buf ((s.heap buf).store b item)
      owner := .pushBottom item b }
  | .pushBottom item b =>
    some { s with
      bottom := b + 1
      owner := .idle
      pushed := s.pushed ++ [item]
      slot := update s.slot b s.pushed.length
      place := update s.place s.pushed.length .live }
  | .popBuffer b =>
    if b = 0 then some { s with owner := .popReturn null none }
    else some { s with owner := .popBottom (b - 1) s.buffer }
  | .popBottom b buf => some { s with bottom := b, owner := .popTop b buf }
  | .popTop b buf =>
    if s.top < b then
      some { s with
        owner := .popLoad b s.top buf (some (s.slot b))
        place := update s.place (s.slot b) (.held none) }
    else if s.top = b then some { s with owner := .popLoad b s.top buf none }
    else some { s with owner := .popLost b }
  | .popLoad b t buf taken =>
    if t = b then some { s with owner := .popCompare b t ((s.heap buf).load b) }
    else some { s with owner := .popReturn ((s.heap buf).load b) taken }
  | .popCompare b t item =>
    if s.top = t then
      some { s with
        top := t + 1
        owner := .popWon b item (s.slot b)
        place := update s.place (s.slot b) (.held none) }
    else some { s with owner := .popLost b }
  | .popWon b item taken => some { s with bottom := b + 1, owner := .popReturn item (some taken) }
  | .popLost b => some { s with bottom := b + 1, owner := .popReturn null none }
  | .popReturn item taken =>
    some { s with
      owner := .idle
      place := match taken with
        | some k => update s.place k .returned
        | none => s.place
      log := s.log ++ [⟨none, item, taken⟩] }

/-- A step of a thief. -/
def thiefStep (null : P) (s : State ι P) (i : ι) : Option (State ι P) :=
  match s.thief i with
  | .idle => none
  | .top => some { s with thief := update s.thief i (.bottom s.top) }
  | .bottom t =>
    if t < s.bottom then some { s with thief := update s.thief i (.buffer t) }
    else some { s with thief := update s.thief i (.leave null none) }
  | .buffer t => some { s with thief := update s.thief i (.load t s.buffer) }
  | .load t buf =>
    some { s with thief := update s.thief i (.compare t ((s.heap buf).load t)) }
  | .compare t item =>
    if s.top = t then
      some { s with
        top := t + 1
        thief := update s.thief i (.leave item (some (s.slot t)))
        place := update s.place (s.slot t) (.held (some i))
        stolen := s.stolen ++ [s.slot t] }
    else some { s with thief := update s.thief i (.leave null none) }
  | .leave item taken =>
    some { s with
      activeThieves := s.activeThieves - 1
      thief := update s.thief i .idle
      place := match taken with
        | some k => update s.place k .returned
        | none => s.place
      log := s.log ++ [⟨some i, item, taken⟩] }

/-- A step of the system.  A call starts with its first access: `push` and `pop` load `bottom_`, and
`steal` increments `active_thieves_`. -/
def step (null : P) (s : State ι P) : Label ι P → Option (State ι P)
  | .push item =>
    match s.owner with
    | .idle => some { s with owner := .pushTop item s.bottom }
    | _ => none
  | .pop =>
    match s.owner with
    | .idle => some { s with owner := .popBuffer s.bottom }
    | _ => none
  | .owner => ownerStep null s
  | .steal i =>
    match s.thief i with
    | .idle =>
      some { s with
        activeThieves := s.activeThieves + 1
        thief := update s.thief i .top }
    | _ => none
  | .thief i => thiefStep null s i

/-- The deque with an owner and any number of thieves. -/
def system (ι : Type*) [DecidableEq ι] (null : P) (capacity : ℕ) :
    TransitionSystem (State ι P) (Label ι P) where
  init s := s = .initial null capacity
  step := step null

end Elio.ChaseLevDeque
