/-
**`rpc_protocol.hpp`: bursts of errors.**

The checksum of a frame is over the header and the payload, and its bytes follow the payload on the
wire, the least significant first.  The bits of the payload and of the checksum are then one word of
the code: whatever the payload is, the shift register ends with the same value behind the checksum.
Two such words differ by a pattern that the register does not see, and a burst of 32 bits is none.

Main definitions:

* `Burst` — what was received differs from what was sent within 32 bits;
* `Rejects` — a reader turns bytes down.

Main results:

* `foldl_crc32Step_residue` — **the register behind a checksum**;
* `burst_detected` — **a frame with a burst in it is rejected**, and one without is not.
-/

import Elio.RpcFrames

set_option autoImplicit false

namespace Elio.Rpc

open Elio.Hash
open List
open FrameHeader (readWord)

/-- What was received differs from what was sent, and only within 32 consecutive bits. -/
def Burst (sent received : List UInt8) : Prop :=
  sent.length = received.length ∧ ∃ before window after,
    bitsOf (List.zipWith (· ^^^ ·) sent received) =
      List.replicate before false ++ window ++ List.replicate after false ∧
    window.length ≤ 32 ∧ true ∈ window

/-! ### The register -/

theorem crc32Step_xor (c d : BitVec 32) (a b : UInt8) :
    crc32Step c a ^^^ crc32Step d b = crc32Step (c ^^^ d) (a ^^^ b) := by
  rw [crc32Step_eq, crc32Step_eq, crc32Step_eq, crcByte, crcByte, crcByte, ← crcShifts_xor]
  congr 1
  rw [UInt8.toBitVec_xor, BitVec.setWidth_xor]
  ac_rfl

theorem foldl_crc32Step_xor {sent received : List UInt8} (h : sent.length = received.length)
    (c d : BitVec 32) :
    sent.foldl crc32Step c ^^^ received.foldl crc32Step d =
      (zipWith (· ^^^ ·) sent received).foldl crc32Step (c ^^^ d) := by
  induction sent generalizing received c d with
  | nil =>
    rw [eq_nil_of_length_eq_zero h.symm]
    rfl
  | cons a sent ih =>
    obtain ⟨b, received, rfl⟩ := exists_cons_of_length_eq_add_one h.symm
    rw [zipWith_cons_cons, foldl_cons, foldl_cons, foldl_cons, ← crc32Step_xor]
    exact ih (Nat.succ.inj h) _ _

/-- A burst changes the register. -/
theorem foldl_ne_of_burst {sent received : List UInt8} (h : Burst sent received) (c : BitVec 32) :
    sent.foldl crc32Step c ≠ received.foldl crc32Step c := by
  obtain ⟨hlen, before, window, after, hbits, hshort, hset⟩ := h
  intro hsame
  have hxor := foldl_crc32Step_xor hlen c c
  rw [hsame, BitVec.xor_self, BitVec.xor_self, crc32Step, foldl_sliceStep_bits,
    hbits] at hxor
  exact foldl_burst_ne_zero (by decide) before after hshort hset hxor.symm

/-- Four bytes as a number. -/
theorem readWord_eq (s₀ s₁ s₂ s₃ : UInt8) :
    (readWord [s₀, s₁, s₂, s₃]).toBitVec =
      wordOfBytes s₀.toBitVec s₁.toBitVec s₂.toBitVec s₃.toBitVec := by
  have h₀ := s₀.toNat_lt
  have h₁ := s₁.toNat_lt
  have h₂ := s₂.toNat_lt
  have h₃ := s₃.toNat_lt
  have hword : (readWord [s₀, s₁, s₂, s₃]).toBitVec.toNat =
      s₀.toNat + 256 * (s₁.toNat + 256 * (s₂.toNat + 256 * s₃.toNat)) := by
    simp [readWord, leNat]
    omega
  have hbyte : ∀ (k : ℕ) (s : UInt8),
      (readWord [s₀, s₁, s₂, s₃]).toBitVec.toNat / 2 ^ k % 2 ^ 8 = s.toNat →
      ((readWord [s₀, s₁, s₂, s₃]).toBitVec >>> k).setWidth 8 = s.toBitVec := by
    intro k s h
    apply BitVec.eq_of_toNat_eq
    rw [BitVec.toNat_setWidth, BitVec.toNat_ushiftRight, Nat.shiftRight_eq_div_pow, h]
    rfl
  have hzero := hbyte 0 s₀ (by rw [hword]; omega)
  rw [BitVec.ushiftRight_zero] at hzero
  rw [eq_wordOfBytes (readWord [s₀, s₁, s₂, s₃]).toBitVec, hzero,
    hbyte 8 s₁ (by rw [hword]; omega), hbyte 16 s₂ (by rw [hword]; omega),
    hbyte 24 s₃ (by rw [hword]; omega)]

/-- **The register behind a checksum** does not depend on what the checksum is of. -/
theorem foldl_crc32Step_residue {payload sum : List UInt8} (hsum : sum.length = checksumSize)
    {c : BitVec 32}
    (h : crc32Finalize (payload.foldl crc32Step c) = (readWord sum).toBitVec) :
    (payload ++ sum).foldl crc32Step c = crcShifts crc32Poly 32 0xFFFFFFFF#32 := by
  match sum, hsum with
  | [s₀, s₁, s₂, s₃], _ =>
    rw [readWord_eq, crc32Finalize] at h
    rw [foldl_append]
    simp only [foldl_cons, foldl_nil, crc32Step_eq]
    rw [crcByte_four, ← h, ← BitVec.xor_assoc, BitVec.xor_self, BitVec.zero_xor]

/-! ### The reader -/

/-- **What it is to turn `bytes` down**: on a stream that starts with them the computation ends
without a value, or it still waits and has not been given bytes that often. -/
def Rejects {α : Type} (m : StreamReader α) (bytes : List UInt8) : Prop :=
  ∀ (rest : List UInt8) (events : List ReadEvent), (∀ e ∈ events, e.Smooth) →
    (m.run (bytes ++ rest, events) = none ∧ events.countP ReadEvent.isGot < bytes.length) ∨
      ∃ left, m.run (bytes ++ rest, events) = some (none, left)

theorem Yields.rejects {α β : Type} {m : StreamReader α} {f : α → StreamReader β}
    {bytes bytes' : List UInt8} {a : α} (hm : Yields m bytes a) (hf : Rejects (f a) bytes') :
    Rejects (m >>= f) (bytes ++ bytes') := by
  intro rest events hsmooth
  rw [append_assoc, length_append]
  have hbind : (m >>= f).run (bytes ++ (bytes' ++ rest), events) =
      (m.run (bytes ++ (bytes' ++ rest), events)).bind fun r =>
        r.1.elim (some (none, r.2)) fun a => (f a).run r.2 := by
    show Option.bind (m.run _) _ = Option.bind (m.run _) _
    congr 1
    funext r
    obtain ⟨a, s⟩ := r
    cases a <;> rfl
  rw [hbind]
  rcases hm (bytes' ++ rest) events hsmooth with ⟨hrun, hfew⟩ | ⟨left, hrun, hleft, hcnt⟩
  · rw [hrun]
    exact .inl ⟨rfl, by omega⟩
  · rw [hrun]
    rcases hf rest left hleft with ⟨hwaits, hfew⟩ | hended
    · exact .inl ⟨hwaits, by omega⟩
    · exact .inr hended

theorem rejects_failure {α : Type} : Rejects (failure : StreamReader α) [] := fun _ _ _ =>
  .inr ⟨_, rfl⟩

/-- A checksum that is not the one of the header and the payload. -/
theorem rejects_checksum {header : FrameHeader} {payload sum : List UInt8} {maxPayload : ℕ}
    {at_ : Addresses} (hvalid : header.isValid = true) (hflag : header.hasChecksum = true)
    (hlen : payload.length = header.payloadLength.toNat) (hmax : payload.length ≤ maxPayload)
    (hsum : sum.length = checksumSize)
    (hne : frameChecksum at_ header.toBytes payload ≠ (readWord sum).toBitVec) :
    Rejects (readFrameBounded maxPayload at_) (header.toBytes ++ (payload ++ (sum ++ []))) := by
  refine (readExactly_yields (length_toBytes header) (by decide)).rejects ?_
  simp only [fromBytes_toBytes, hvalid, Bool.not_true, Bool.false_eq_true, if_false]
  rw [if_neg (by omega)]
  refine (readPayload_yields hlen (payloadLength_le hvalid)).rejects ?_
  rw [if_pos hflag]
  refine (readExactly_yields hsum (by decide)).rejects ?_
  rw [if_pos hne]
  exact rejects_failure

/-- **A frame with a burst in it is rejected**, and one without is read. -/
theorem burst_detected {mode : WriteMode} {at_ : Addresses} {events : List WriteEvent}
    {header : FrameHeader} {payload : List UInt8} {w : Written}
    (hwritten : writeWith mode at_ events header payload = some w) (hok : w.ok = true)
    (hvalid : header.isValid = true) (hflag : header.hasChecksum = true)
    (hlength : payload.length = header.payloadLength.toNat) {maxPayload : ℕ}
    (hmax : payload.length ≤ maxPayload) (reader : Addresses) :
    Yields (readFrameBounded maxPayload reader) w.wire (header, payload) ∧
      ∀ received, received.take frameHeaderSize = w.wire.take frameHeaderSize →
        Burst (w.wire.drop frameHeaderSize) (received.drop frameHeaderSize) →
        Rejects (readFrameBounded maxPayload reader) received := by
  rw [writeWith_wire hwritten hok]
  refine ⟨readFrameBounded_wire hvalid hlength hmax reader, fun received hheader hburst => ?_⟩
  -- the words of the code that were sent and received
  obtain ⟨sum, hsum⟩ : ∃ sum, sum = leBytes 4 (frameChecksum ⟨0, 0⟩ header.toBytes payload).toNat :=
    ⟨_, rfl⟩
  have hwire : header.wire payload = header.toBytes ++ (payload ++ sum) := by
    rw [FrameHeader.wire, if_pos hflag, hsum, append_assoc]
  have hsize : sum.length = checksumSize := by rw [hsum, length_leBytes]; rfl
  rw [hwire, take_left' (length_toBytes header)] at hheader
  rw [hwire, drop_left' (length_toBytes header)] at hburst
  have hsplit : received = header.toBytes ++ (received.drop frameHeaderSize) := by
    rw [← hheader, take_append_drop]
  generalize received.drop frameHeaderSize = tail at hburst hsplit
  have htail : tail.length = payload.length + checksumSize := by
    rw [← hburst.1, length_append, hsize]
  have hreceived : received = header.toBytes ++ (tail.take payload.length ++
      (tail.drop payload.length ++ [])) := by
    rw [append_nil, take_append_drop, hsplit]
  rw [hreceived]
  refine rejects_checksum hvalid hflag ?_ ?_ ?_ fun hsame => ?_
  · rw [length_take, htail]
    omega
  · rw [length_take]
    omega
  · rw [length_drop, htail]
    omega
  · -- both words leave the same register
    refine foldl_ne_of_burst hburst (header.toBytes.foldl crc32Step 0xFFFFFFFF#32) ?_
    rw [frameChecksum_eq, foldl_append] at hsame
    have hgenuine : crc32Finalize (payload.foldl crc32Step
        (header.toBytes.foldl crc32Step 0xFFFFFFFF#32)) = (readWord sum).toBitVec := by
      rw [← foldl_append, ← frameChecksum_eq ⟨0, 0⟩, hsum]
      exact frameChecksum_readWord _ _ _
    rw [foldl_crc32Step_residue hsize hgenuine, ← take_append_drop payload.length tail,
      foldl_crc32Step_residue (by rw [length_drop, htail]; omega) hsame]

/-- A request whose payload has lost its first bit. -/
theorem burst_detected_request :
    let header : FrameHeader := { requestId := 1, flags := MessageFlags.hasChecksum, payloadLength := 2 }
    let wire := header.wire [7, 8]
    writeWith .gather ⟨3, 5⟩ [.wrote 30] header [7, 8] = some ⟨true, [], wire⟩ ∧
      Rejects (readFrameBounded 16 ⟨1, 2⟩) (wire.take frameHeaderSize ++ [6] ++ wire.drop 20) := by
  have hwritten : writeWith .gather ⟨3, 5⟩ [.wrote 30]
      { requestId := 1, flags := MessageFlags.hasChecksum, payloadLength := 2 } [7, 8] =
      some ⟨true, [], FrameHeader.wire
        { requestId := 1, flags := MessageFlags.hasChecksum, payloadLength := 2 } [7, 8]⟩ := by
    decide +kernel
  exact ⟨hwritten, (burst_detected hwritten rfl (by decide) (by decide) (by decide) (by decide)
    ⟨1, 2⟩).2 _ (by decide) ⟨by decide, 0, [true], 47, by decide +kernel, by decide,
      by decide⟩⟩

end Elio.Rpc
