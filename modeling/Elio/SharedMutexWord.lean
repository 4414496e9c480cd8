/-
**The packed word of the shared mutex.**

`sync/shared_mutex.hpp` packs its whole lock state into one 64-bit word: bit 63 says that a writer
is waiting, bit 62 that a writer is active, and bits 0 to 61 count the readers.  The code tests and
updates the word with masks, additions and subtractions.  Here the masks are defined as in the
source, and each of these operations is computed on a word that is put together from its three
parts.

Main definitions:

* `admits` — the test before a reader is counted;
* `pack` — the word of two flags and a count.

Main results:

* `pack_succ`, `pack_pred` — one more and one less reader;
* `pack_or_waiting`, `pack_and_not_waiting` — writer preference set and cleared.
-/

import Mathlib.Data.Nat.Bitwise

set_option autoImplicit false

namespace Elio.SharedMutex

def writerActive : BitVec 64 := 1#64 <<< 62
def writerWaiting : BitVec 64 := 1#64 <<< 63
def readerMask : BitVec 64 := (1#64 <<< 62) - 1#64
def writerFlags : BitVec 64 := writerActive ||| writerWaiting

/-- No writer is active or waiting, and one more reader can be counted. -/
def admits (v : BitVec 64) : Bool := v &&& writerFlags = 0#64 ∧ v &&& readerMask ≠ readerMask

/-- The word of its three parts. -/
def pack (waiting active : Bool) (readers : ℕ) : BitVec 64 :=
  BitVec.ofNat 64 (readers + active.toNat * 2 ^ 62 + waiting.toNat * 2 ^ 63)

/-- The largest number of readers the word can count. -/
def maxReaders : ℕ := 2 ^ 62 - 1

variable {ww wa : Bool} {n : ℕ}

theorem and_two_pow_eq_zero_iff (v : BitVec 64) {k : ℕ} (hk : k < 64) :
    v &&& 1#64 <<< k = 0#64 ↔ v.toNat.testBit k = false := by
  have hpow : (1#64 <<< k).toNat = 2 ^ k := by
    rw [BitVec.toNat_shiftLeft, Nat.shiftLeft_eq]
    simpa using Nat.pow_lt_pow_right (by omega : 1 < 2) hk
  rw [← BitVec.toNat_inj, BitVec.toNat_and, hpow, Nat.and_two_pow]
  cases v.toNat.testBit k <;> simp

section

variable (h : n ≤ maxReaders)

include h

theorem toNat_pack : (pack ww wa n).toNat = n + wa.toNat * 2 ^ 62 + ww.toNat * 2 ^ 63 := by
  unfold maxReaders at h
  cases ww <;> cases wa <;> simp [pack] <;> omega

/-! ### Reading the parts -/

theorem pack_and_active : pack ww wa n &&& writerActive = 0#64 ↔ wa = false := by
  rw [writerActive, and_two_pow_eq_zero_iff _ (by omega), toNat_pack h,
    Nat.testBit_eq_decide_div_mod_eq]
  unfold maxReaders at h
  cases ww <;> cases wa <;> simp <;> omega

theorem pack_and_waiting : pack ww wa n &&& writerWaiting = 0#64 ↔ ww = false := by
  rw [writerWaiting, and_two_pow_eq_zero_iff _ (by omega), toNat_pack h,
    Nat.testBit_eq_decide_div_mod_eq]
  unfold maxReaders at h
  cases ww <;> cases wa <;> simp <;> omega

theorem toNat_pack_and_readers : (pack ww wa n &&& readerMask).toNat = n := by
  have hmask : readerMask.toNat = 2 ^ 62 - 1 := by decide
  rw [BitVec.toNat_and, toNat_pack h, hmask, Nat.and_two_pow_sub_one_eq_mod]
  unfold maxReaders at h
  cases ww <;> cases wa <;> simp <;> omega

theorem pack_inj {ww' wa' : Bool} {n' : ℕ} (h' : n' ≤ maxReaders) :
    pack ww wa n = pack ww' wa' n' ↔ ww = ww' ∧ wa = wa' ∧ n = n' := by
  refine ⟨fun heq => ⟨?_, ?_, ?_⟩, fun ⟨hww, hwa, hn⟩ => by rw [hww, hwa, hn]⟩
  · rw [Bool.eq_iff_iff, ← not_iff_not, Bool.not_eq_true, Bool.not_eq_true, ← pack_and_waiting h,
      ← pack_and_waiting h', heq]
  · rw [Bool.eq_iff_iff, ← not_iff_not, Bool.not_eq_true, Bool.not_eq_true, ← pack_and_active h,
      ← pack_and_active h', heq]
  · rw [← @toNat_pack_and_readers ww wa n h, heq, toNat_pack_and_readers h']

theorem pack_and_readers_eq_one : pack ww wa n &&& readerMask = 1#64 ↔ n = 1 := by
  rw [← BitVec.toNat_inj, toNat_pack_and_readers h]
  rfl

theorem pack_and_readers_eq_mask : pack ww wa n &&& readerMask = readerMask ↔ n = maxReaders := by
  rw [← BitVec.toNat_inj, toNat_pack_and_readers h]
  have hmask : readerMask.toNat = maxReaders := by decide
  rw [hmask]

/-- Nobody owns the mutex, though a writer may be waiting. -/
theorem pack_and_owned :
    pack ww wa n &&& (readerMask ||| writerActive) = 0#64 ↔ wa = false ∧ n = 0 := by
  rw [BitVec.and_or_distrib_left, BitVec.or_eq_zero_iff, pack_and_active h, ← BitVec.toNat_inj,
    toNat_pack_and_readers h]
  exact and_comm

theorem pack_and_flags : pack ww wa n &&& writerFlags = 0#64 ↔ ww = false ∧ wa = false := by
  rw [writerFlags, BitVec.and_or_distrib_left, BitVec.or_eq_zero_iff, pack_and_active h,
    pack_and_waiting h]
  exact and_comm

theorem admits_pack : admits (pack ww wa n) = true ↔ ww = false ∧ wa = false ∧ n < maxReaders := by
  rw [admits, decide_eq_true_iff, pack_and_flags h, Ne, pack_and_readers_eq_mask h, and_assoc]
  exact and_congr_right fun _ => and_congr_right fun _ => (Nat.lt_iff_le_and_ne.trans
    (and_iff_right h)).symm

end

/-! ### The words of the source as packed words -/

theorem zero_eq_pack : 0#64 = pack false false 0 := by decide

theorem one_eq_pack : 1#64 = pack false false 1 := by decide

theorem active_eq_pack : writerActive = pack false true 0 := by decide

theorem waiting_eq_pack : writerWaiting = pack true false 0 := by decide

theorem active_or_waiting_eq_pack : writerActive ||| writerWaiting = pack true true 0 := by decide

/-! ### Updates -/

theorem pack_succ : pack ww wa n + 1#64 = pack ww wa (n + 1) := by
  unfold pack
  rw [← BitVec.ofNat_add]
  congr 1
  omega

theorem pack_pred (h : 0 < n) : pack ww wa n - 1#64 = pack ww wa (n - 1) := by
  obtain ⟨m, rfl⟩ : ∃ m, n = m + 1 := ⟨n - 1, by omega⟩
  rw [← pack_succ, BitVec.add_sub_cancel, Nat.add_sub_cancel]

theorem pack_true_eq_or (h : n ≤ maxReaders) :
    pack true wa n = pack false wa n ||| writerWaiting := by
  have hadd : pack true wa n = pack false wa n + writerWaiting := by
    have hmask : writerWaiting = BitVec.ofNat 64 (true.toNat * 2 ^ 63) := by decide
    rw [pack, pack, hmask, ← BitVec.ofNat_add, Bool.toNat_false, Nat.zero_mul, Nat.add_zero]
  rw [hadd, BitVec.add_eq_or_of_and_eq_zero]
  exact (pack_and_waiting h).2 rfl

theorem pack_or_waiting (h : n ≤ maxReaders) :
    pack ww wa n ||| writerWaiting = pack true wa n := by
  cases ww with
  | false => exact (pack_true_eq_or h).symm
  | true => rw [pack_true_eq_or h, BitVec.or_assoc, BitVec.or_self]

theorem pack_and_not_waiting (h : n ≤ maxReaders) :
    pack ww wa n &&& ~~~writerWaiting = pack false wa n := by
  have hclear : pack false wa n &&& ~~~writerWaiting = pack false wa n := by
    have hzero := (@pack_and_waiting false wa n h).2 rfl
    calc pack false wa n &&& ~~~writerWaiting
        = 0#64 ||| (pack false wa n &&& ~~~writerWaiting) := BitVec.zero_or.symm
      _ = pack false wa n &&& (writerWaiting ||| ~~~writerWaiting) := by
          rw [BitVec.and_or_distrib_left, hzero]
      _ = pack false wa n := by rw [BitVec.or_not_self, BitVec.and_allOnes]
  cases ww with
  | false => exact hclear
  | true =>
    rw [pack_true_eq_or h, BitVec.and_comm, BitVec.and_or_distrib_left, BitVec.and_comm, hclear,
      BitVec.and_comm]
    exact BitVec.or_zero

end Elio.SharedMutex
