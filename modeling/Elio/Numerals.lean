/-
**Numbers in a base.**

The digits of a number, most significant first, as a program prints them: no leading zeros, and one
digit for zero.  Reading them with the usual loop gives the number back.

Main definitions:

* `numeral` — the digits of a number in a base.

Main results:

* `foldl_numeral` — **reading the digits gives the number**;
* `length_numeral_le` — how many digits there are.
-/

import Mathlib.Data.Nat.Digits.Lemmas

set_option autoImplicit false

/-- The digits of `n` in base `b`, most significant first. -/
def numeral (b n : ℕ) : List ℕ := if n = 0 then [0] else (b.digits n).reverse

theorem numeral_ne_nil (b n : ℕ) : numeral b n ≠ [] := by
  rw [numeral]
  split_ifs with h
  · exact List.cons_ne_nil _ _
  · exact mt List.reverse_eq_nil_iff.1 (Nat.digits_ne_nil_iff_ne_zero.2 h)

theorem lt_of_mem_numeral {b n d : ℕ} (hb : 1 < b) (h : d ∈ numeral b n) : d < b := by
  rw [numeral] at h
  split_ifs at h
  · rw [List.mem_singleton.1 h]
    omega
  · exact Nat.digits_lt_base hb (List.mem_reverse.1 h)

/-- **Reading the digits gives the number.** -/
theorem foldl_numeral (b n : ℕ) : (numeral b n).foldl (fun a d => a * b + d) 0 = n := by
  rw [numeral]
  split_ifs with h
  · simp [h]
  · rw [List.foldl_reverse]
    calc (b.digits n).foldr (fun d a => a * b + d) 0 = Nat.ofDigits b (b.digits n) := by
          rw [Nat.ofDigits_eq_foldr]
          congr 1
          funext d a
          rw [Nat.add_comm, Nat.mul_comm]
          rfl
      _ = n := Nat.ofDigits_digits b n

/-- A number below a power of the base has no more digits than the power says. -/
theorem length_numeral_le {b n k : ℕ} (hb : 1 < b) (hk : 0 < k) (h : n < b ^ k) :
    (numeral b n).length ≤ k := by
  rw [numeral]
  split_ifs with hn
  · exact hk
  · rw [List.length_reverse]
    exact (Nat.digits_length_le_iff hb n).2 h
