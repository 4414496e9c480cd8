/-
**`hash/crc32.hpp`: the checksum of a buffer.**

`crc32_sw` and `crc32c_sw` read the bytes in front of an aligned address one by one, then eight
bytes at a time with eight tables, and the rest one by one again.  How a buffer is split into these
parts depends on its address.  The result does not: the eight tables do in one step what eight steps
of the first table do, and those are the steps of a shift register.  The two functions differ in the
polynomial of their tables only, and are one function of it here.

Main definitions:

* `sliceTable` — the tables of a polynomial;
* `crc32`, `crc32Iovec`, `crc32Update`, `crc32Finalize` — the checksum.

Main results:

* `sliceWide_eq` — eight bytes at a time are eight bytes;
* `crc32Update_eq` — **the checksum does not depend on the address**;
* `crc32_kernels` — **the kernels compute the bitwise checksum**, also of a message in pieces.
-/

import Elio.ShiftRegister
import Mathlib.Data.UInt

set_option autoImplicit false

namespace Elio.Hash

/-- The polynomial of `crc32_tables`. -/
def crc32Poly : BitVec 32 := 0xEDB88320#32

/-- The polynomial of `crc32c_tables`. -/
def crc32cPoly : BitVec 32 := 0x82F63B78#32

section Slicing

variable (poly : BitVec 32)

/-- The first of the tables. -/
def sliceFirst (i : BitVec 8) : BitVec 32 := crcShifts poly 8 (i.setWidth 32)

/-- The first table, and the others derived from it. -/
def sliceTable : ℕ → BitVec 8 → BitVec 32
  | 0, i => sliceFirst poly i
  | k + 1, i =>
    let previous := sliceTable k i
    (previous >>> 8) ^^^ sliceFirst poly (previous.setWidth 8)

/-- `crc = t[0][(crc ^ *data++) & 0xFF] ^ (crc >> 8)`. -/
def sliceStep (crc : BitVec 32) (b : UInt8) : BitVec 32 :=
  sliceTable poly 0 ((crc ^^^ b.toBitVec.setWidth 32).setWidth 8) ^^^ (crc >>> 8)

/-- The loop over the bytes in front of an aligned address: the bytes that are left, and the
register. -/
def sliceHead : ℕ → List UInt8 → BitVec 32 → List UInt8 × BitVec 32
  | _, [], crc => ([], crc)
  | address, b :: data, crc =>
    if address % 8 = 0 then (b :: data, crc) else sliceHead (address + 1) data (sliceStep poly crc b)

/-- One turn of the loop over eight bytes. -/
def sliceEight (crc lo hi : BitVec 32) : BitVec 32 :=
  let t := sliceTable poly
  let crc := crc ^^^ lo
  t 7 (crc.setWidth 8) ^^^ t 6 ((crc >>> 8).setWidth 8) ^^^ t 5 ((crc >>> 16).setWidth 8) ^^^
    t 4 ((crc >>> 24).setWidth 8) ^^^ t 3 (hi.setWidth 8) ^^^ t 2 ((hi >>> 8).setWidth 8) ^^^
    t 1 ((hi >>> 16).setWidth 8) ^^^ t 0 ((hi >>> 24).setWidth 8)

/-- The word at the front of the data. -/
def loadWord (b₀ b₁ b₂ b₃ : UInt8) : BitVec 32 :=
  wordOfBytes b₀.toBitVec b₁.toBitVec b₂.toBitVec b₃.toBitVec

/-- The loop over eight bytes, and the loop over the bytes that are left. -/
def sliceWide : List UInt8 → BitVec 32 → BitVec 32
  | b₀ :: b₁ :: b₂ :: b₃ :: b₄ :: b₅ :: b₆ :: b₇ :: data, crc =>
    sliceWide data (sliceEight poly crc (loadWord b₀ b₁ b₂ b₃) (loadWord b₄ b₅ b₆ b₇))
  | data, crc => data.foldl (sliceStep poly) crc

/-- The register after the data at an address. -/
def sliceSw (address : ℕ) (data : List UInt8) (crc : BitVec 32) : BitVec 32 :=
  let (data, crc) := sliceHead poly address data crc
  sliceWide poly data crc

end Slicing

/-- A step of `crc32_sw` over one byte. -/
def crc32Step : BitVec 32 → UInt8 → BitVec 32 := sliceStep crc32Poly

/-- `crc32_sw` of the data at an address. -/
def crc32Sw : ℕ → List UInt8 → BitVec 32 → BitVec 32 := sliceSw crc32Poly

/-- `crc32c_sw` of the data at an address. -/
def crc32cSw : ℕ → List UInt8 → BitVec 32 → BitVec 32 := sliceSw crc32cPoly

/-- `crc32`. -/
def crc32 (address : ℕ) (data : List UInt8) (seed : BitVec 32) : BitVec 32 :=
  if data.length = 0 then seed ^^^ 0xFFFFFFFF#32
  else crc32Sw address data seed ^^^ 0xFFFFFFFF#32

/-- `crc32_iovec` of buffers, each at its address. -/
def crc32Iovec (iov : List (ℕ × List UInt8)) : BitVec 32 :=
  iov.foldl (fun crc v => if 0 < v.2.length then crc32Sw v.1 v.2 crc else crc) 0xFFFFFFFF#32 ^^^
    0xFFFFFFFF#32

/-- `crc32_update`. -/
def crc32Update (address : ℕ) (data : List UInt8) (crc : BitVec 32) : BitVec 32 :=
  if data.length = 0 then crc else crc32Sw address data crc

/-- `crc32_finalize`. -/
def crc32Finalize (crc : BitVec 32) : BitVec 32 := crc ^^^ 0xFFFFFFFF#32

/-- The bits of bytes, the lowest bit of a byte first. -/
def bitsOf (bytes : List UInt8) : List Bool := bytes.flatMap fun b => lowBits 8 b.toBitVec

/-! ### The tables -/

section Tables

variable {poly : BitVec 32}

theorem sliceStep_eq (crc : BitVec 32) (b : UInt8) :
    sliceStep poly crc b = crcByte poly crc b.toBitVec := by
  have hlow : b.toBitVec.setWidth 32 >>> 8 = 0#32 := by
    ext i hi
    simp [BitVec.getElem_ushiftRight]
  rw [crcByte, crcShifts_eight, BitVec.ushiftRight_xor_distrib, hlow, BitVec.xor_zero]
  rfl

/-- A table has the shifts of its bytes. -/
theorem sliceTable_eq (k : ℕ) (i : BitVec 8) :
    sliceTable poly k i = crcShifts poly (8 * (k + 1)) (i.setWidth 32) := by
  induction k with
  | zero => rfl
  | succ k ih =>
    rw [sliceTable, ih, Nat.mul_succ 8 (k + 1), crcShifts_add, crcShifts_eight, BitVec.xor_comm]
    rfl

/-- A turn of the loop over eight bytes does what eight bytes do. -/
theorem sliceEight_eq (crc : BitVec 32) (b₀ b₁ b₂ b₃ b₄ b₅ b₆ b₇ : UInt8) :
    sliceEight poly crc (loadWord b₀ b₁ b₂ b₃) (loadWord b₄ b₅ b₆ b₇) =
      [b₀, b₁, b₂, b₃, b₄, b₅, b₆, b₇].foldl (sliceStep poly) crc := by
  simp only [List.foldl_cons, List.foldl_nil, sliceStep_eq]
  rw [crcByte_four, crcByte_four, crcShifts_xor 32 (crcShifts _ _ _), ← crcShifts_add,
    crcShifts_bytes (by omega), crcShifts_bytes (n := 32) (by omega)]
  simp only [sliceEight, sliceTable_eq, loadWord, BitVec.xor_assoc]

theorem sliceWide_eq (data : List UInt8) (crc : BitVec 32) :
    sliceWide poly data crc = data.foldl (sliceStep poly) crc := by
  fun_induction sliceWide poly data crc with
  | case1 crc b₀ b₁ b₂ b₃ b₄ b₅ b₆ b₇ data ih =>
    rw [ih, sliceEight_eq]
    rfl
  | case2 => rfl

theorem sliceHead_eq (address : ℕ) (data : List UInt8) (crc : BitVec 32) :
    (sliceHead poly address data crc).1.foldl (sliceStep poly)
      (sliceHead poly address data crc).2 = data.foldl (sliceStep poly) crc := by
  induction data generalizing address crc with
  | nil => rfl
  | cons b data ih =>
    rw [sliceHead]
    split_ifs
    · rfl
    · exact ih (address + 1) (sliceStep poly crc b)

theorem sliceSw_eq (address : ℕ) (data : List UInt8) (crc : BitVec 32) :
    sliceSw poly address data crc = data.foldl (sliceStep poly) crc := by
  simp only [sliceSw, sliceWide_eq]
  exact sliceHead_eq address data crc

theorem foldl_sliceStep_bits (bytes : List UInt8) (crc : BitVec 32) :
    bytes.foldl (sliceStep poly) crc = (bitsOf bytes).foldl (crcBit poly) crc := by
  rw [bitsOf, List.foldl_flatMap]
  congr 1
  funext c b
  rw [sliceStep_eq, crcByte_eq_foldl]

end Tables

theorem crc32Step_eq (crc : BitVec 32) (b : UInt8) :
    crc32Step crc b = crcByte crc32Poly crc b.toBitVec :=
  sliceStep_eq crc b

/-- **The checksum does not depend on the address.** -/
theorem crc32Update_eq (address : ℕ) (data : List UInt8) (crc : BitVec 32) :
    crc32Update address data crc = data.foldl crc32Step crc := by
  rw [crc32Update]
  split_ifs with hemp
  · rw [List.eq_nil_of_length_eq_zero hemp]
    rfl
  · exact sliceSw_eq address data crc

theorem crc32_eq (address : ℕ) (data : List UInt8) (seed : BitVec 32) :
    crc32 address data seed = crc32Finalize (crc32Update address data seed) := by
  rw [crc32, crc32Update]
  split_ifs <;> rfl

theorem crc32Iovec_eq (iov : List (ℕ × List UInt8)) :
    crc32Iovec iov =
      crc32Finalize (iov.foldl (fun crc v => crc32Update v.1 v.2 crc) 0xFFFFFFFF#32) := by
  have hpiece : (fun (crc : BitVec 32) (v : ℕ × List UInt8) =>
      if 0 < v.2.length then crc32Sw v.1 v.2 crc else crc) =
        fun crc v => crc32Update v.1 v.2 crc := by
    funext crc v
    rw [crc32Update]
    split_ifs <;> first | rfl | omega
  rw [crc32Iovec, hpiece, crc32Finalize]

/-- **The kernels compute the checksum bit by bit, and a message in pieces has the checksum of the
message.** -/
theorem crc32_kernels :
    (∀ (address : ℕ) (data : List UInt8) (crc : BitVec 32),
      crc32Sw address data crc = (bitsOf data).foldl (crcBit crc32Poly) crc ∧
      crc32cSw address data crc = (bitsOf data).foldl (crcBit crc32cPoly) crc) ∧
    ∀ (iov : List (ℕ × List UInt8)) (address : ℕ),
      crc32Iovec iov = crc32 address (iov.flatMap (·.2)) 0xFFFFFFFF#32 ∧
      crc32Iovec iov =
        crc32Finalize (iov.foldl (fun crc v => crc32Update v.1 v.2 crc) 0xFFFFFFFF#32) := by
  refine ⟨fun address data crc => ⟨?_, ?_⟩, fun iov address => ⟨?_, crc32Iovec_eq iov⟩⟩
  · exact (sliceSw_eq address data crc).trans (foldl_sliceStep_bits data crc)
  · exact (sliceSw_eq address data crc).trans (foldl_sliceStep_bits data crc)
  · rw [crc32Iovec_eq, crc32_eq]
    simp only [crc32Update_eq, List.foldl_flatMap]

end Elio.Hash
