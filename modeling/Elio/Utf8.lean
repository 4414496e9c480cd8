/-
**UTF-8.**

The sequences of bytes that stand for one character, as the table of RFC 3629 gives them: how many
bytes follow the first one, and which second bytes are left out because they would encode too small
a number, a surrogate or a number that is no code point.  They are exactly the encodings of
characters, so that a check against the table is a check against the characters.

Main definitions:

* `Sequence` — the table;
* `Valid` — a text is the encoding of a list of characters.

Main results:

* `sequence_utf8EncodeChar`, `exists_of_sequence` — **the table lists the encodings of characters**;
* `valid_append` — a sequence of the table in front of a text.
-/

import Mathlib.Data.UInt

set_option autoImplicit false

/-- A statement about all bytes is one about finitely many numbers. -/
theorem forall_uInt8 {P : UInt8 → Prop} (h : ∀ n < 256, P (UInt8.ofNat n)) (b : UInt8) : P b := by
  simpa using h b.toNat b.toNat_lt

namespace Utf8

/-- A byte that continues a sequence. -/
def Tail (b : UInt8) : Prop := 0x80 ≤ b.toNat ∧ b.toNat ≤ 0xbf

/-- The sequences of bytes for one character. -/
inductive Sequence : List UInt8 → Prop
  | one {a : UInt8} (first : a.toNat ≤ 0x7f) : Sequence [a]
  | two {a b : UInt8} (first : 0xc2 ≤ a.toNat ∧ a.toNat ≤ 0xdf) (second : Tail b) : Sequence [a, b]
  | three {a b c : UInt8} (first : 0xe0 ≤ a.toNat ∧ a.toNat ≤ 0xef) (second : Tail b)
      (shortest : a.toNat = 0xe0 → 0xa0 ≤ b.toNat) (surrogate : a.toNat = 0xed → b.toNat ≤ 0x9f)
      (third : Tail c) : Sequence [a, b, c]
  | four {a b c d : UInt8} (first : 0xf0 ≤ a.toNat ∧ a.toNat ≤ 0xf4) (second : Tail b)
      (shortest : a.toNat = 0xf0 → 0x90 ≤ b.toNat) (largest : a.toNat = 0xf4 → b.toNat ≤ 0x8f)
      (third : Tail c) (fourth : Tail d) : Sequence [a, b, c, d]

/-- The text is the encoding of a list of characters. -/
def Valid (s : List UInt8) : Prop := ∃ cs : List Char, s = cs.flatMap String.utf8EncodeChar

/-! ### Characters -/

theorem val_lt (c : Char) : c.toNat < 0xd800 ∨ (0xdfff < c.toNat ∧ c.toNat < 0x110000) := c.valid

variable {n : ℕ}

theorem exists_char (h : n < 0xd800 ∨ (0xdfff < n ∧ n < 0x110000)) : ∃ c : Char, c.toNat = n := by
  refine ⟨Char.ofNatAux n h, ?_⟩
  rfl

theorem toNat_ofNat_of_lt (h : n < 256) : (UInt8.ofNat n).toNat = n := by
  exact Nat.mod_eq_of_lt h

theorem ofNat_eq {b : UInt8} (h : n = b.toNat) : UInt8.ofNat n = b := by
  rw [h, UInt8.ofNat_toNat]

/-- The encoding of a character is in the table. -/
theorem sequence_utf8EncodeChar (c : Char) : Sequence (String.utf8EncodeChar c) := by
  have hval := val_lt c
  have hnat : c.val.toNat = c.toNat := rfl
  simp only [String.utf8EncodeChar, hnat]
  split_ifs with h₁ h₂ h₃
  · exact .one (by rw [toNat_ofNat_of_lt] <;> omega)
  · refine .two ?_ ?_
    · rw [toNat_ofNat_of_lt] <;> omega
    · rw [Tail, toNat_ofNat_of_lt] <;> omega
  · refine .three ?_ ?_ ?_ ?_ ?_
    · rw [toNat_ofNat_of_lt] <;> omega
    · rw [Tail, toNat_ofNat_of_lt] <;> omega
    · rw [toNat_ofNat_of_lt, toNat_ofNat_of_lt] <;> omega
    · rw [toNat_ofNat_of_lt, toNat_ofNat_of_lt] <;> omega
    · rw [Tail, toNat_ofNat_of_lt] <;> omega
  · refine .four ?_ ?_ ?_ ?_ ?_ ?_
    · rw [toNat_ofNat_of_lt] <;> omega
    · rw [Tail, toNat_ofNat_of_lt] <;> omega
    · rw [toNat_ofNat_of_lt, toNat_ofNat_of_lt] <;> omega
    · rw [toNat_ofNat_of_lt, toNat_ofNat_of_lt] <;> omega
    · rw [Tail, toNat_ofNat_of_lt] <;> omega
    · rw [Tail, toNat_ofNat_of_lt] <;> omega

variable {s : List UInt8}

/-- A sequence of the table is the encoding of a character. -/
theorem exists_of_sequence (h : Sequence s) : ∃ c : Char, s = String.utf8EncodeChar c := by
  -- the character is put together from the low bits of the bytes
  cases h with
  | @one a first =>
    obtain ⟨c, hc⟩ := exists_char (n := a.toNat) (by omega)
    refine ⟨c, ?_⟩
    have hnat : c.val.toNat = a.toNat := hc
    simp only [String.utf8EncodeChar, hnat]
    rw [if_pos first, UInt8.ofNat_toNat]
  | @two a b first second =>
    obtain ⟨hlow, hhigh⟩ := second
    obtain ⟨c, hc⟩ := exists_char (n := (a.toNat - 0xc0) * 64 + (b.toNat - 0x80)) (by omega)
    refine ⟨c, ?_⟩
    have hnat : c.val.toNat = (a.toNat - 0xc0) * 64 + (b.toNat - 0x80) := hc
    simp only [String.utf8EncodeChar, hnat]
    rw [if_neg (by omega), if_pos (by omega), ofNat_eq (b := a) (by omega),
      ofNat_eq (b := b) (by omega)]
  | @three a b c first second shortest surrogate third =>
    obtain ⟨hlow, hhigh⟩ := second
    obtain ⟨hlow', hhigh'⟩ := third
    obtain ⟨ch, hc⟩ := exists_char
      (n := (a.toNat - 0xe0) * 4096 + (b.toNat - 0x80) * 64 + (c.toNat - 0x80)) (by omega)
    refine ⟨ch, ?_⟩
    have hnat : ch.val.toNat =
        (a.toNat - 0xe0) * 4096 + (b.toNat - 0x80) * 64 + (c.toNat - 0x80) := hc
    simp only [String.utf8EncodeChar, hnat]
    rw [if_neg (by omega), if_neg (by omega), if_pos (by omega), ofNat_eq (b := a) (by omega),
      ofNat_eq (b := b) (by omega), ofNat_eq (b := c) (by omega)]
  | @four a b c d first second shortest largest third fourth =>
    obtain ⟨hlow, hhigh⟩ := second
    obtain ⟨hlow', hhigh'⟩ := third
    obtain ⟨hlow'', hhigh''⟩ := fourth
    obtain ⟨ch, hc⟩ := exists_char
      (n := (a.toNat - 0xf0) * 262144 + (b.toNat - 0x80) * 4096 + (c.toNat - 0x80) * 64 +
        (d.toNat - 0x80)) (by omega)
    refine ⟨ch, ?_⟩
    have hnat : ch.val.toNat = (a.toNat - 0xf0) * 262144 + (b.toNat - 0x80) * 4096 +
        (c.toNat - 0x80) * 64 + (d.toNat - 0x80) := hc
    simp only [String.utf8EncodeChar, hnat]
    rw [if_neg (by omega), if_neg (by omega), if_neg (by omega), ofNat_eq (b := a) (by omega),
      ofNat_eq (b := b) (by omega), ofNat_eq (b := c) (by omega), ofNat_eq (b := d) (by omega)]

/-! ### Texts -/

theorem valid_nil : Valid [] := ⟨[], rfl⟩

theorem valid_append {t : List UInt8} (hs : Sequence s) (ht : Valid t) : Valid (s ++ t) := by
  obtain ⟨c, rfl⟩ := exists_of_sequence hs
  obtain ⟨cs, rfl⟩ := ht
  exact ⟨c :: cs, rfl⟩

/-- A text is empty or starts with a sequence of the table. -/
theorem Valid.cases (h : Valid s) : s = [] ∨ ∃ u t, s = u ++ t ∧ Sequence u ∧ Valid t := by
  obtain ⟨cs, rfl⟩ := h
  cases cs with
  | nil => exact .inl rfl
  | cons c cs =>
    exact .inr ⟨String.utf8EncodeChar c, cs.flatMap String.utf8EncodeChar, rfl,
      sequence_utf8EncodeChar c, cs, rfl⟩

end Utf8
