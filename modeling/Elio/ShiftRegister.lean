/-
**The shift register of a cyclic redundancy check.**

The register of a reflected CRC with 32 bits is shifted down bit by bit, and the polynomial is added
whenever a one falls out.  A shift is linear in exclusive or, and a register whose low bits are
clear only moves down.  So bytes can be added in front of the shifts that they have to go through,
and several bytes at once can be looked up in tables.

One bit after the other has the same effect.  The polynomial sets the highest bit, so that a register
in which a bit is set needs as many shifts to lose it as the bit is high: no burst of 32 bits leaves
the register empty.

Main definitions:

* `crcShift`, `crcShifts` — one shift, and many;
* `crcByte` — the step of a byte;
* `wordOfBytes` — four bytes as a word, the least significant first;
* `crcBit`, `lowBits` — the step of a bit, and the bits of a byte.

Main results:

* `crcShifts_xor` — **shifts are linear**;
* `crcShifts_eight` — a byte is a table word and a shift;
* `crcByte_four` — **four bytes are a word and 32 shifts**;
* `crcShifts_bytes` — shifts of a word are shifts of its bytes;
* `crcByte_eq_foldl` — a byte is its bits;
* `foldl_burst_ne_zero` — **a burst leaves a trace.**
-/

import Mathlib.Data.BitVec

set_option autoImplicit false

/-- One shift of the register. -/
def crcShift (poly x : BitVec 32) : BitVec 32 :=
  (x >>> 1) ^^^ (if x.getLsbD 0 then poly else 0)

/-- Many shifts. -/
def crcShifts (poly : BitVec 32) : ℕ → BitVec 32 → BitVec 32
  | 0, x => x
  | n + 1, x => crcShifts poly n (crcShift poly x)

/-- The step of a byte. -/
def crcByte (poly crc : BitVec 32) (b : BitVec 8) : BitVec 32 :=
  crcShifts poly 8 (crc ^^^ b.setWidth 32)

/-- Four bytes as a word; they do not overlap. -/
def wordOfBytes (b₀ b₁ b₂ b₃ : BitVec 8) : BitVec 32 :=
  b₀.setWidth 32 ^^^ (b₁.setWidth 32 <<< 8) ^^^ (b₂.setWidth 32 <<< 16) ^^^ (b₃.setWidth 32 <<< 24)

variable {poly : BitVec 32}

theorem crcShift_xor (x y : BitVec 32) :
    crcShift poly (x ^^^ y) = crcShift poly x ^^^ crcShift poly y := by
  rw [crcShift, crcShift, crcShift, BitVec.getLsbD_xor, BitVec.ushiftRight_xor_distrib]
  cases x.getLsbD 0 <;> cases y.getLsbD 0
  · simp
  · simp [BitVec.xor_assoc]
  · rw [BitVec.xor_assoc, BitVec.xor_comm (y >>> 1), BitVec.xor_assoc]
    simp
  · simp only [Bool.xor_self, Bool.false_eq_true, if_false, if_true]
    rw [BitVec.xor_assoc (x >>> 1) poly, BitVec.xor_comm poly,
      BitVec.xor_assoc (y >>> 1)]
    simp

/-- **Shifts are linear.** -/
theorem crcShifts_xor (n : ℕ) (x y : BitVec 32) :
    crcShifts poly n (x ^^^ y) = crcShifts poly n x ^^^ crcShifts poly n y := by
  induction n generalizing x y with
  | zero => rfl
  | succ n ih => rw [crcShifts, crcShift_xor, ih, crcShifts, crcShifts]

theorem crcShifts_add (m n : ℕ) (x : BitVec 32) :
    crcShifts poly (m + n) x = crcShifts poly n (crcShifts poly m x) := by
  induction m generalizing x with
  | zero => rw [Nat.zero_add, crcShifts]
  | succ m ih => rw [Nat.succ_add, crcShifts, ih, crcShifts]

/-- A register whose low bits are clear only moves down. -/
theorem crcShifts_of_low {n : ℕ} {x : BitVec 32} (h : ∀ i < n, x.getLsbD i = false) :
    crcShifts poly n x = x >>> n := by
  induction n generalizing x with
  | zero => rw [crcShifts, BitVec.ushiftRight_zero]
  | succ n ih =>
    have hshift : crcShift poly x = x >>> 1 := by
      rw [crcShift, h 0 (Nat.succ_pos n)]
      simp
    rw [crcShifts, hshift, ih, ← BitVec.shiftRight_add, Nat.add_comm]
    intro i hi
    rw [BitVec.getLsbD_ushiftRight]
    exact h (1 + i) (by omega)

/-- A byte that stands in front of its shifts. -/
theorem crcShifts_byte {k : ℕ} (hk : k ≤ 24) (b : BitVec 8) :
    crcShifts poly k (b.setWidth 32 <<< k) = b.setWidth 32 := by
  rw [crcShifts_of_low]
  · ext i hi
    simp only [BitVec.getElem_ushiftRight, BitVec.getLsbD_shiftLeft, BitVec.getElem_setWidth]
    by_cases hb : i < 8
    · simp [show k + i < 32 by omega, show ¬ k + i < k by omega]
      omega
    · simp [BitVec.getLsbD_of_ge b i (by omega)]
  · intro i hi
    simp [BitVec.getLsbD_shiftLeft, hi]

theorem eq_low_xor_high (x : BitVec 32) :
    x = (x.setWidth 8).setWidth 32 ^^^ ((x >>> 8) <<< 8) := by
  ext i hi
  by_cases h : i < 8
  · simp [h, BitVec.getLsbD_eq_getElem hi]
  · simp [h, show 8 + (i - 8) = i by omega, BitVec.getLsbD_eq_getElem hi]

/-- A byte is a table word and a shift. -/
theorem crcShifts_eight (x : BitVec 32) :
    crcShifts poly 8 x = crcShifts poly 8 ((x.setWidth 8).setWidth 32) ^^^ (x >>> 8) := by
  have hhigh : crcShifts poly 8 ((x >>> 8) <<< 8) = x >>> 8 := by
    rw [crcShifts_of_low]
    · ext i hi
      by_cases h : 8 + i < 32
      · simp [h]
      · simp [h, BitVec.getLsbD_of_ge x (8 + i) (by omega)]
    · intro i hi
      simp [BitVec.getLsbD_shiftLeft, hi]
  conv => lhs; rw [eq_low_xor_high x]
  rw [crcShifts_xor, hhigh]

/-- A byte after shifts is a byte in front of them. -/
theorem crcByte_crcShifts {k : ℕ} (hk : k ≤ 24) (x : BitVec 32) (b : BitVec 8) :
    crcByte poly (crcShifts poly k x) b = crcShifts poly (k + 8) (x ^^^ (b.setWidth 32 <<< k)) := by
  rw [crcByte, crcShifts_add, crcShifts_xor k, crcShifts_byte hk]

/-- **Four bytes are a word and 32 shifts.** -/
theorem crcByte_four (crc : BitVec 32) (b₀ b₁ b₂ b₃ : BitVec 8) :
    crcByte poly (crcByte poly (crcByte poly (crcByte poly crc b₀) b₁) b₂) b₃ =
      crcShifts poly 32 (crc ^^^ wordOfBytes b₀ b₁ b₂ b₃) := by
  have hfst : crcByte poly crc b₀ = crcShifts poly 8 (crc ^^^ b₀.setWidth 32) := rfl
  rw [hfst, crcByte_crcShifts (by omega), crcByte_crcShifts (by omega), crcByte_crcShifts (by omega),
    wordOfBytes]
  simp only [BitVec.xor_assoc]

theorem eq_wordOfBytes (x : BitVec 32) :
    x = wordOfBytes (x.setWidth 8) ((x >>> 8).setWidth 8) ((x >>> 16).setWidth 8)
      ((x >>> 24).setWidth 8) := by
  ext i hi
  have hbit : ∀ k, k ≤ i → x.getLsbD (k + (i - k)) = x[i] := fun k hk => by
    rw [Nat.add_sub_of_le hk, BitVec.getLsbD_eq_getElem hi]
  simp only [wordOfBytes, BitVec.getElem_xor, BitVec.getElem_shiftLeft, BitVec.getElem_setWidth,
    BitVec.getLsbD_setWidth, BitVec.getLsbD_ushiftRight]
  -- the byte in which the bit lies
  rcases Nat.lt_or_ge i 8 with h₀ | h₀
  · simp [h₀, show i < 16 by omega, show i < 24 by omega, BitVec.getLsbD_eq_getElem hi]
  · rcases Nat.lt_or_ge i 16 with h₁ | h₁
    · simp [hbit 8 h₀, show ¬ i < 8 by omega, h₁, show i < 24 by omega, show i - 8 < 8 by omega]
    · rcases Nat.lt_or_ge i 24 with h₂ | h₂
      · simp [hbit 16 h₁, show ¬ i < 8 by omega, show ¬ i < 16 by omega, h₂,
          show i - 16 < 8 by omega, show ¬ i - 8 < 8 by omega]
      · simp [hbit 24 h₂, show ¬ i < 8 by omega, show ¬ i < 16 by omega, show ¬ i < 24 by omega,
          show i - 24 < 8 by omega, show ¬ i - 8 < 8 by omega, show ¬ i - 16 < 8 by omega]

/-- **Shifts of a word are shifts of its bytes.** -/
theorem crcShifts_bytes {n : ℕ} (hn : 24 ≤ n) (x : BitVec 32) :
    crcShifts poly n x =
      crcShifts poly n ((x.setWidth 8).setWidth 32) ^^^
        crcShifts poly (n - 8) (((x >>> 8).setWidth 8).setWidth 32) ^^^
        crcShifts poly (n - 16) (((x >>> 16).setWidth 8).setWidth 32) ^^^
        crcShifts poly (n - 24) (((x >>> 24).setWidth 8).setWidth 32) := by
  -- a byte that stands `k` bits up takes `k` shifts to come down
  have hdown : ∀ k ≤ 24, ∀ b : BitVec 8,
      crcShifts poly n (b.setWidth 32 <<< k) = crcShifts poly (n - k) (b.setWidth 32) := by
    intro k hk b
    have hsplit : n = k + (n - k) := by omega
    conv => lhs; rw [hsplit]
    rw [crcShifts_add, crcShifts_byte hk]
  conv => lhs; rw [eq_wordOfBytes x, wordOfBytes]
  rw [crcShifts_xor, crcShifts_xor, crcShifts_xor, hdown 8 (by omega), hdown 16 (by omega),
    hdown 24 (by omega)]

/-! ### Single bits -/

/-- The step of a bit. -/
def crcBit (poly crc : BitVec 32) (b : Bool) : BitVec 32 :=
  crcShift poly (crc ^^^ (BitVec.ofBool b).setWidth 32)

/-- The `n` low bits, the lowest first. -/
def lowBits : ℕ → BitVec 8 → List Bool
  | 0, _ => []
  | n + 1, b => b.getLsbD 0 :: lowBits n (b >>> 1)

theorem crcShifts_lowBits {n : ℕ} {b : BitVec 8} (hb : ∀ i, n ≤ i → b.getLsbD i = false)
    (crc : BitVec 32) :
    crcShifts poly n (crc ^^^ b.setWidth 32) = (lowBits n b).foldl (crcBit poly) crc := by
  induction n generalizing b crc with
  | zero =>
    have hzero : b = 0 := BitVec.eq_of_getLsbD_eq fun i _ => by simpa using hb i (Nat.zero_le i)
    rw [hzero]
    simp [crcShifts, lowBits]
  | succ n ih =>
    -- the lowest bit, and the others one place up
    have hsplit : b.setWidth 32 =
        (BitVec.ofBool (b.getLsbD 0)).setWidth 32 ^^^ ((b >>> 1).setWidth 32 <<< 1) := by
      ext i hi
      cases i with
      | zero => simp
      | succ i => simp [Nat.add_comm, show i + 1 < 32 from hi]
    have hdown : crcShift poly ((b >>> 1).setWidth 32 <<< 1) = (b >>> 1).setWidth 32 := by
      have := @crcShifts_byte poly 1 (by decide) (b >>> 1)
      simpa [crcShifts] using this
    have hrest := ih (fun i hi => by
      rw [BitVec.getLsbD_ushiftRight]
      exact hb (1 + i) (by omega)) (crcBit poly crc (b.getLsbD 0))
    rw [crcShifts, hsplit, ← BitVec.xor_assoc, crcShift_xor, hdown]
    exact hrest

/-- A byte is its bits. -/
theorem crcByte_eq_foldl (crc : BitVec 32) (b : BitVec 8) :
    crcByte poly crc b = (lowBits 8 b).foldl (crcBit poly) crc :=
  crcShifts_lowBits (fun i hi => BitVec.getLsbD_of_ge b i hi) crc

/-- The register behind a bit. -/
theorem crcBit_eq (crc : BitVec 32) (b : Bool) :
    crcBit poly crc b = (crc >>> 1) ^^^ (if (crc.getLsbD 0 ^^ b) then poly else 0) := by
  have hlow : ((BitVec.ofBool b).setWidth 32 : BitVec 32) >>> 1 = 0 := by cases b <;> decide
  have hbit : ((BitVec.ofBool b).setWidth 32 : BitVec 32).getLsbD 0 = b := by cases b <;> decide
  rw [crcBit, crcShift, BitVec.ushiftRight_xor_distrib, hlow, BitVec.getLsbD_xor, hbit]
  simp

/-- **A bit that is set is lost by one place in a step**, at most. -/
theorem crcBit_set (hpoly : poly.getLsbD 31 = true) {crc : BitVec 32} {b : Bool} {p : ℕ}
    (hp : crc.getLsbD p = true) (h : 0 < p ∨ b = false) :
    ∃ q, p ≤ q + 1 ∧ (crcBit poly crc b).getLsbD q = true := by
  have hlt : p < 32 := BitVec.lt_of_getLsbD hp
  rw [crcBit_eq]
  cases hbit : crc.getLsbD 0 ^^ b with
  | true => exact ⟨31, by omega, by simp [hpoly]⟩
  | false =>
    cases p with
    | zero => simp_all
    | succ p => exact ⟨p, le_rfl, by simpa [Nat.add_comm] using hp⟩

theorem foldl_crcBit_set (hpoly : poly.getLsbD 31 = true) {bits : List Bool} {crc : BitVec 32} {p : ℕ}
    (hp : crc.getLsbD p = true) (hlen : bits.length ≤ p) :
    ∃ q, (bits.foldl (crcBit poly) crc).getLsbD q = true := by
  induction bits generalizing crc p with
  | nil => exact ⟨p, hp⟩
  | cons b bits ih =>
    rw [List.length_cons] at hlen
    obtain ⟨q, hq, hset⟩ := crcBit_set hpoly (b := b) hp (.inl (by omega))
    exact ih hset (by omega)

/-- **A burst leaves a trace**: bits in a window of 32, between zeros. -/
theorem foldl_burst_ne_zero (hpoly : poly.getLsbD 31 = true) {window : List Bool} (before after : ℕ)
    (hlen : window.length ≤ 32) (hset : true ∈ window) :
    (List.replicate before false ++ window ++ List.replicate after false).foldl (crcBit poly) 0 ≠ 0 := by
  have hzero : crcBit poly 0 false = 0 := by rw [crcBit_eq]; simp
  have hpre : (List.replicate before false).foldl (crcBit poly) 0 = 0 := by
    induction before with
    | zero => rfl
    | succ n ih => rw [List.replicate_succ, List.foldl_cons, hzero, ih]
  have hwindow : ∃ p, (window.foldl (crcBit poly) 0).getLsbD p = true := by
    induction window with
    | nil => cases hset
    | cons b window ih =>
      rw [List.length_cons] at hlen
      cases b with
      | true =>
        have hone : (crcBit poly 0 true).getLsbD 31 = true := by rw [crcBit_eq]; simpa using hpoly
        rw [List.foldl_cons]
        exact foldl_crcBit_set hpoly hone (by omega)
      | false =>
        rw [List.foldl_cons, hzero]
        exact ih (by omega) (by simpa using hset)
  have hafter : ∀ (n : ℕ) (crc : BitVec 32), (∃ p, crc.getLsbD p = true) →
      ∃ p, ((List.replicate n false).foldl (crcBit poly) crc).getLsbD p = true := by
    intro n
    induction n with
    | zero => exact fun _ h => h
    | succ n ih =>
      rintro crc ⟨p, hp⟩
      obtain ⟨q, -, hq⟩ := crcBit_set hpoly (b := false) hp (.inr rfl)
      exact ih _ ⟨q, hq⟩
  obtain ⟨p, hp⟩ := hafter after _ hwindow
  rw [List.foldl_append, List.foldl_append, hpre]
  intro h
  rw [h] at hp
  simp at hp
