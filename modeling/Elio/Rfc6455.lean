/-
**What a WebSocket stream means.**

RFC 6455 gives a stream of bytes a meaning in two layers.  The stream is a sequence of frames, each
with a header, a masking key and a payload.  The frames carry messages: a message is the payload of
its first frame and of the continuation frames after it, up to the one that is marked as final, and
control frames may stand between them.

This module states that meaning without a machine.  Header fields are read off the bytes by
arithmetic.  A header or a frame carries its sizes, so that one with too few bytes cannot be built.
`Shows` says which beginnings of a frame already show that it must not be accepted, with the
point of the header at which each rule is applied as part of the statement: reserved bits and
opcodes belong to the first byte, the rules about lengths and control frames to the header as far as
its length, and the others to the whole header or, for UTF-8, to the whole frame.
`ShowsWhole` is the variant that looks at no rule before the header is complete.

Main definitions:

* `Header`, `Frame` — headers and frames on the wire;
* `Frame.Legal`, `Accepts` — the frames that may come next, and what they deliver;
* `Shows`, `ShowsWhole` — violations;
* `Decodes`, `Reads` — what a stream delivers, and what its first frames deliver.

Main results:

* `Frame.Legal.not_shows` — a frame that may come next shows no violation;
* `Decodes.unique` — **a stream has one meaning**;
* `decodes_of_wires` — whole messages are read as they are written, wherever they are cut.
-/

import Elio.ByteOrder
import Elio.Utf8

set_option autoImplicit false

namespace Rfc6455

open List

/-- The side that reads the stream: a server reads masked frames, a client unmasked ones. -/
inductive Role where
  | any
  | server
  | client
  deriving DecidableEq, Repr

/-- What may be wrong with a frame. -/
inductive Violation where
  | reservedOpcode
  | reservedBits
  | nonMinimalLength
  | oversizedLength
  | controlTooLong
  | controlFragmented
  | maskMissing
  | maskUnexpected
  | continuationWithoutStart
  | startInsideMessage
  | messageTooLarge
  | notUtf8
  deriving DecidableEq, Repr

/-- What a stream delivers: messages and control frames, with their opcodes. -/
inductive Event where
  | message (opcode : ℕ) (data : List UInt8)
  | control (opcode : ℕ) (payload : List UInt8)
  deriving DecidableEq, Repr

/-- The opcodes that are in use. -/
def LegalOpcode (opcode : ℕ) : Prop := opcode ∈ [0, 1, 2, 8, 9, 10]

instance (opcode : ℕ) : Decidable (LegalOpcode opcode) :=
  inferInstanceAs (Decidable (opcode ∈ [0, 1, 2, 8, 9, 10]))

/-- The number of bytes that the length takes after the second byte. -/
def extendedSize (second : UInt8) : ℕ :=
  if second.toNat % 128 = 126 then 2 else if second.toNat % 128 = 127 then 8 else 0

/-- The number that bytes stand for, the most significant first. -/
def bigEndian (bytes : List UInt8) : ℕ := leNat bytes.reverse

/-- The header of a frame, as far as its length. -/
structure Header where
  first : UInt8
  second : UInt8
  extended : List UInt8
  sized : extended.length = extendedSize second

namespace Header

def bytes (h : Header) : List UInt8 := h.first :: h.second :: h.extended

def fin (h : Header) : Prop := 128 ≤ h.first.toNat

def reserved (h : Header) : ℕ := h.first.toNat / 16 % 8

def opcode (h : Header) : ℕ := h.first.toNat % 16

def masked (h : Header) : Prop := 128 ≤ h.second.toNat

/-- The seven bits of the length in the second byte. -/
def short (h : Header) : ℕ := h.second.toNat % 128

def payloadLength (h : Header) : ℕ := if h.short ≤ 125 then h.short else bigEndian h.extended

/-- The length has no shorter form. -/
def Minimal (h : Header) : Prop :=
  (h.short = 126 → 126 ≤ h.payloadLength) ∧ (h.short = 127 → 65536 ≤ h.payloadLength)

def Control (h : Header) : Prop := 8 ≤ h.opcode

instance (h : Header) : Decidable h.fin := inferInstanceAs (Decidable (_ ≤ _))
instance (h : Header) : Decidable h.masked := inferInstanceAs (Decidable (_ ≤ _))
instance (h : Header) : Decidable h.Control := inferInstanceAs (Decidable (_ ≤ _))
instance (h : Header) : Decidable h.Minimal := inferInstanceAs (Decidable (_ ∧ _))

def keySize (h : Header) : ℕ := if h.masked then 4 else 0

end Header

/-- The payload under a masking key.  Without a key nothing changes. -/
def mask (key payload : List UInt8) : List UInt8 :=
  payload.mapIdx fun i b => b ^^^ key.getD (i % 4) 0

/-- A frame with its key and its payload, the payload without the mask. -/
structure Frame where
  header : Header
  key : List UInt8
  payload : List UInt8
  key_length : key.length = header.keySize
  payload_length : payload.length = header.payloadLength

/-- The bytes of a frame. -/
def Frame.wire (f : Frame) : List UInt8 := f.header.bytes ++ f.key ++ mask f.key f.payload

/-- The rules for a frame by itself. -/
structure Frame.Legal (role : Role) (f : Frame) : Prop where
  opcode : LegalOpcode f.header.opcode
  reserved : f.header.reserved = 0
  minimal : f.header.Minimal
  sized : f.header.payloadLength < 2 ^ 63
  control_short : f.header.Control → f.header.payloadLength ≤ 125
  control_whole : f.header.Control → f.header.fin
  masked : role = .server → f.header.masked
  unmasked : role = .client → ¬f.header.masked

/-! ### Messages -/

/-- The message that is open: its opcode and its data so far. -/
abbrev OpenMessage := Option (ℕ × List UInt8)

/-- The size of the message that is open. -/
def openSize : OpenMessage → ℕ
  | none => 0
  | some (_, data) => data.length

/-- A message may have this size; `0` stands for no limit. -/
def Within (limit size : ℕ) : Prop := limit = 0 ∨ size ≤ limit

/-- A message is a text of characters, or no text. -/
def Readable (opcode : ℕ) (data : List UInt8) : Prop := opcode = 1 → Utf8.Valid data

/-- The frames that may come next, with what they deliver and what is open after them. -/
inductive Accepts (limit : ℕ) : OpenMessage → Frame → List Event → OpenMessage → Prop
  | control {opened : OpenMessage} {f : Frame} (control : f.header.Control) :
      Accepts limit opened f [.control f.header.opcode f.payload] opened
  | start {f : Frame} (data : ¬f.header.Control) (first : f.header.opcode ≠ 0)
      (within : Within limit f.payload.length) (more : ¬f.header.fin) :
      Accepts limit none f [] (some (f.header.opcode, f.payload))
  | single {f : Frame} (data : ¬f.header.Control) (first : f.header.opcode ≠ 0)
      (within : Within limit f.payload.length) (last : f.header.fin)
      (readable : Readable f.header.opcode f.payload) :
      Accepts limit none f [.message f.header.opcode f.payload] none
  | next {opcode : ℕ} {sofar : List UInt8} {f : Frame} (continued : f.header.opcode = 0)
      (within : Within limit (sofar.length + f.payload.length)) (more : ¬f.header.fin) :
      Accepts limit (some (opcode, sofar)) f [] (some (opcode, sofar ++ f.payload))
  | final {opcode : ℕ} {sofar : List UInt8} {f : Frame} (continued : f.header.opcode = 0)
      (within : Within limit (sofar.length + f.payload.length)) (last : f.header.fin)
      (readable : Readable opcode (sofar ++ f.payload)) :
      Accepts limit (some (opcode, sofar)) f [.message opcode (sofar ++ f.payload)] none

/-! ### Violations -/

/-- What the first byte of a frame shows. -/
inductive FirstByteShows : UInt8 → Violation → Prop
  | opcode {b : UInt8} (illegal : ¬LegalOpcode (b.toNat % 16)) : FirstByteShows b .reservedOpcode
  | bits {b : UInt8} (set : b.toNat / 16 % 8 ≠ 0) : FirstByteShows b .reservedBits

/-- What the header shows as far as its length. -/
inductive LengthShows (h : Header) : Violation → Prop
  | minimal (longer : ¬h.Minimal) : LengthShows h .nonMinimalLength
  | oversized (excess : 2 ^ 63 ≤ h.payloadLength) : LengthShows h .oversizedLength
  | long (control : h.Control) (excess : 125 < h.payloadLength) : LengthShows h .controlTooLong
  | fragmented (control : h.Control) (more : ¬h.fin) : LengthShows h .controlFragmented

/-- What the whole header shows, next to the message that is open. -/
inductive HeaderShows (role : Role) (limit : ℕ) (opened : OpenMessage) (h : Header) :
    Violation → Prop
  | missing (reader : role = .server) (bare : ¬h.masked) :
      HeaderShows role limit opened h .maskMissing
  | unexpected (reader : role = .client) (masked : h.masked) :
      HeaderShows role limit opened h .maskUnexpected
  | continuation (continued : h.opcode = 0) (closed : opened = none) :
      HeaderShows role limit opened h .continuationWithoutStart
  | start (data : ¬h.Control) (first : h.opcode ≠ 0) (inside : opened ≠ none) :
      HeaderShows role limit opened h .startInsideMessage
  | large (data : ¬h.Control) (excess : ¬Within limit (openSize opened + h.payloadLength)) :
      HeaderShows role limit opened h .messageTooLarge

/-- What the final frame of a message shows. -/
inductive FrameShows : OpenMessage → Frame → Violation → Prop
  | single {f : Frame} (text : f.header.opcode = 1) (last : f.header.fin)
      (unreadable : ¬Utf8.Valid f.payload) : FrameShows none f .notUtf8
  | final {sofar : List UInt8} {f : Frame} (continued : f.header.opcode = 0) (last : f.header.fin)
      (unreadable : ¬Utf8.Valid (sofar ++ f.payload)) : FrameShows (some (1, sofar)) f .notUtf8

/-- **The stream shows a violation of the frame that it starts with.** -/
inductive Shows (role : Role) (limit : ℕ) (opened : OpenMessage) : List UInt8 → Violation → Prop
  | first {b : UInt8} {v : Violation} (rest : List UInt8) (evidence : FirstByteShows b v) :
      Shows role limit opened (b :: rest) v
  | length {h : Header} {v : Violation} (rest : List UInt8) (evidence : LengthShows h v) :
      Shows role limit opened (h.bytes ++ rest) v
  | header {h : Header} {v : Violation} (key rest : List UInt8) (key_length : key.length = h.keySize)
      (evidence : HeaderShows role limit opened h v) :
      Shows role limit opened (h.bytes ++ key ++ rest) v
  | frame {f : Frame} {v : Violation} (rest : List UInt8) (evidence : FrameShows opened f v) :
      Shows role limit opened (f.wire ++ rest) v

/-- **The stream contains the whole header of a frame that violates a rule**, or the whole final
frame of a text that is not UTF-8. -/
inductive ShowsWhole (role : Role) (limit : ℕ) (opened : OpenMessage) :
    List UInt8 → Violation → Prop
  | header {h : Header} {v : Violation} (key rest : List UInt8) (key_length : key.length = h.keySize)
      (evidence : FirstByteShows h.first v ∨ LengthShows h v ∨ HeaderShows role limit opened h v) :
      ShowsWhole role limit opened (h.bytes ++ key ++ rest) v
  | frame {f : Frame} {v : Violation} (rest : List UInt8) (evidence : FrameShows opened f v) :
      ShowsWhole role limit opened (f.wire ++ rest) v

/-- **What a stream delivers**, and the violation that ends it, where `shows` says which violations
a stream shows.  Without a violation the rest of the stream is not a whole frame. -/
inductive Decodes (shows : OpenMessage → List UInt8 → Violation → Prop) (role : Role) (limit : ℕ) :
    OpenMessage → List UInt8 → List Event → Option Violation → Prop
  | waiting {opened : OpenMessage} {rest : List UInt8}
      (clean : ∀ v, ¬shows opened rest v)
      (short : ∀ f events later more, f.Legal role → Accepts limit opened f events later →
        rest ≠ f.wire ++ more) :
      Decodes shows role limit opened rest [] none
  | violation {opened : OpenMessage} {rest : List UInt8} {v : Violation}
      (shown : shows opened rest v) : Decodes shows role limit opened rest [] (some v)
  | frame {opened later : OpenMessage} {f : Frame} {rest : List UInt8} {events more : List Event}
      {v : Option Violation} (legal : f.Legal role) (accepted : Accepts limit opened f events later)
      (decoded : Decodes shows role limit later rest more v) :
      Decodes shows role limit opened (f.wire ++ rest) (events ++ more) v

/-- The stream starts with frames that deliver `events` and leave the message `later` open and the
rest of the stream. -/
inductive Reads (role : Role) (limit : ℕ) :
    OpenMessage → List UInt8 → List Event → OpenMessage → List UInt8 → Prop
  | nil {opened : OpenMessage} {s : List UInt8} : Reads role limit opened s [] opened s
  | frame {opened next later : OpenMessage} {f : Frame} {s rest : List UInt8}
      {events more : List Event} (legal : f.Legal role) (accepted : Accepts limit opened f events next)
      (read : Reads role limit next s more later rest) :
      Reads role limit opened (f.wire ++ s) (events ++ more) later rest

/-! ### Headers and masks -/

variable {v : Violation}

theorem Shows.append {role : Role} {limit : ℕ} {opened : OpenMessage} {s : List UInt8}
    (h : Shows role limit opened s v) (t : List UInt8) : Shows role limit opened (s ++ t) v := by
  cases h with
  | first rest evidence => exact .first (rest ++ t) evidence
  | length rest evidence =>
    rw [append_assoc]
    exact .length (rest ++ t) evidence
  | header key rest key_length evidence =>
    rw [append_assoc]
    exact .header key (rest ++ t) key_length evidence
  | frame rest evidence =>
    rw [append_assoc]
    exact .frame (rest ++ t) evidence

theorem length_mask (key payload : List UInt8) : (mask key payload).length = payload.length := by
  rw [mask, length_mapIdx]

theorem mask_nil (payload : List UInt8) : mask [] payload = payload := by
  refine ext_getElem (by rw [length_mask]) fun i hi hi' => ?_
  simp [mask]

theorem mask_mask (key payload : List UInt8) : mask key (mask key payload) = payload := by
  refine ext_getElem (by rw [length_mask, length_mask]) fun i hi hi' => ?_
  simp [mask, UInt8.xor_assoc]

/-- A stream starts with a header, or it is too short for one. -/
theorem exists_header (b₀ b₁ : UInt8) {rest : List UInt8} (h : extendedSize b₁ ≤ rest.length) :
    ∃ (header : Header) (more : List UInt8), header.first = b₀ ∧ header.second = b₁ ∧
      rest = header.extended ++ more := by
  refine ⟨⟨b₀, b₁, rest.take (extendedSize b₁), ?_⟩, rest.drop (extendedSize b₁), rfl, rfl, ?_⟩
  · rw [length_take, Nat.min_eq_left h]
  · exact (take_append_drop _ _).symm

variable {s' : List UInt8}

/-- A stream starts with one header at most. -/
theorem Header.bytes_append_inj {h h' : Header} {s : List UInt8}
    (heq : h.bytes ++ s = h'.bytes ++ s') : h = h' ∧ s = s' := by
  obtain ⟨first', second', extended', sized'⟩ := h'
  simp only [Header.bytes, cons_append, cons.injEq] at heq
  obtain ⟨rfl, rfl, heq⟩ := heq
  obtain ⟨rfl, rfl⟩ := append_inj heq (by rw [sized, sized'])
  exact ⟨rfl, rfl⟩

/-- A stream starts with one header and key at most. -/
theorem Header.key_append_inj {h h' : Header} {key key' s : List UInt8}
    (hkey : key.length = h.keySize) (hkey' : key'.length = h'.keySize)
    (heq : h.bytes ++ key ++ s = h'.bytes ++ key' ++ s') : h = h' ∧ key = key' ∧ s = s' := by
  rw [append_assoc, append_assoc] at heq
  obtain ⟨rfl, hrest⟩ := Header.bytes_append_inj heq
  exact ⟨rfl, append_inj hrest (by rw [hkey, hkey'])⟩

theorem Frame.wire_append (f : Frame) (s : List UInt8) :
    f.wire ++ s = f.header.bytes ++ f.key ++ (mask f.key f.payload ++ s) := by
  rw [Frame.wire, append_assoc]

variable {f : Frame}

/-- A stream starts with one frame at most. -/
theorem Frame.wire_append_inj {f' : Frame} {s : List UInt8} (heq : f.wire ++ s = f'.wire ++ s') :
    f = f' ∧ s = s' := by
  obtain ⟨header, key, payload, hkey, hpayload⟩ := f
  obtain ⟨header', key', payload', hkey', hpayload'⟩ := f'
  rw [Frame.wire_append, Frame.wire_append] at heq
  obtain ⟨hhdr, hkeys, hrest⟩ := Header.key_append_inj hkey hkey' heq
  subst hhdr hkeys
  obtain ⟨hmask, rfl⟩ :=
    append_inj hrest (by rw [length_mask, length_mask, hpayload, hpayload'])
  have hpay : payload = payload' := by
    rw [← mask_mask key payload, hmask, mask_mask]
  subst hpay
  exact ⟨rfl, rfl⟩

/-! ### Frames one after the other -/

namespace Reads

variable {role : Role} {limit : ℕ} {opened next later : OpenMessage} {s t rest : List UInt8}
  {events more : List Event}

theorem append (h : Reads role limit opened s events later rest) (d : List UInt8) :
    Reads role limit opened (s ++ d) events later (rest ++ d) := by
  induction h with
  | nil => exact .nil
  | frame legal accepted read ih =>
    rw [append_assoc]
    exact .frame legal accepted ih

theorem trans (h : Reads role limit opened s events next t)
    (h' : Reads role limit next t more later rest) :
    Reads role limit opened s (events ++ more) later rest := by
  induction h with
  | nil => exact h'
  | frame legal accepted read ih =>
    rw [append_assoc]
    exact .frame legal accepted (ih h')

/-- What follows the frames decides how the stream ends. -/
theorem decodes {shows : OpenMessage → List UInt8 → Violation → Prop} {v : Option Violation}
    (h : Reads role limit opened s events later rest)
    (h' : Decodes shows role limit later rest more v) :
    Decodes shows role limit opened s (events ++ more) v := by
  induction h with
  | nil => exact h'
  | frame legal accepted read ih =>
    rw [append_assoc]
    exact .frame legal accepted (ih h')

end Reads

/-! ### One meaning for a stream -/

section Streams

variable {role : Role} {limit : ℕ} {opened : OpenMessage} {events : List Event}

variable {later : OpenMessage}

theorem Accepts.unique {events' : List Event} {later' : OpenMessage}
    (h : Accepts limit opened f events later) (h' : Accepts limit opened f events' later') :
    events = events' ∧ later = later' := by
  have hctrl : f.header.opcode = 0 → ¬f.header.Control := by
    intro hzero
    rw [Header.Control]
    omega
  cases h with
  | control control =>
    cases h' with
    | control => exact ⟨rfl, rfl⟩
    | start data | single data => exact absurd control data
    | next continued | final continued => exact absurd control (hctrl continued)
  | start data first within more =>
    cases h' with
    | control control => exact absurd control data
    | start => exact ⟨rfl, rfl⟩
    | single _ _ _ last => exact absurd last more
  | single data first within last readable =>
    cases h' with
    | control control => exact absurd control data
    | start _ _ _ more => exact absurd last more
    | single => exact ⟨rfl, rfl⟩
  | next continued within more =>
    cases h' with
    | control control => exact absurd control (hctrl continued)
    | next => exact ⟨rfl, rfl⟩
    | final _ _ last => exact absurd last more
  | final continued within last readable =>
    cases h' with
    | control control => exact absurd control (hctrl continued)
    | next _ _ more => exact absurd last more
    | final => exact ⟨rfl, rfl⟩

/-- A frame that may come next shows nothing in its header. -/
theorem Frame.Legal.not_headerShows (hlegal : f.Legal role)
    (haccepts : Accepts limit opened f events later) :
    ¬HeaderShows role limit opened f.header v := by
  intro hshows
  have hctrl : f.header.opcode = 0 → ¬f.header.Control := by
    intro hzero
    rw [Header.Control]
    omega
  cases hshows with
  | missing reader bare => exact bare (hlegal.masked reader)
  | unexpected reader masked => exact hlegal.unmasked reader masked
  | continuation continued closed =>
    cases haccepts with
    | control control => exact hctrl continued control
    | start _ first | single _ first => exact first continued
    | next | final => cases closed
  | start data first inside =>
    cases haccepts with
    | control control => exact data control
    | start | single => exact inside rfl
    | next continued | final continued => exact first continued
  | large data excess =>
    rw [← f.payload_length] at excess
    cases haccepts with
    | control control => exact data control
    | start _ _ within | single _ _ within =>
      exact excess (by rw [openSize, Nat.zero_add]; exact within)
    | next _ within | final _ within => exact excess within

/-- The final frame of a message that is delivered shows nothing. -/
theorem Accepts.not_frameShows (haccepts : Accepts limit opened f events later) :
    ¬FrameShows opened f v := by
  intro hshows
  cases hshows with
  | single text last unreadable =>
    cases haccepts with
    | control control =>
      rw [Header.Control] at control
      omega
    | start _ _ _ more => exact more last
    | single _ _ _ _ readable => exact unreadable (readable text)
  | final continued last unreadable =>
    cases haccepts with
    | control control =>
      rw [Header.Control] at control
      omega
    | next _ _ more => exact more last
    | final _ _ _ readable => exact unreadable (readable rfl)

/-- **A frame that may come next shows no violation.** -/
theorem Frame.Legal.not_shows (hlegal : f.Legal role)
    (haccepts : Accepts limit opened f events later) (rest : List UInt8) (v : Violation) :
    ¬Shows role limit opened (f.wire ++ rest) v := by
  intro hshows
  generalize hstr : f.wire ++ rest = s at hshows
  have hbytes : f.wire ++ rest = f.header.bytes ++ (f.key ++ (mask f.key f.payload ++ rest)) := by
    rw [Frame.wire_append, append_assoc]
  cases hshows with
  | @first b v more evidence =>
    rw [hbytes, Header.bytes, cons_append, cons.injEq] at hstr
    rw [← hstr.1] at evidence
    cases evidence with
    | opcode illegal => exact illegal hlegal.opcode
    | bits set => exact set hlegal.reserved
  | @length h v more evidence =>
    obtain ⟨rfl, -⟩ := Header.bytes_append_inj (hbytes.symm.trans hstr)
    cases evidence with
    | minimal longer => exact longer hlegal.minimal
    | oversized excess => exact absurd hlegal.sized (Nat.not_lt.2 excess)
    | long control excess => exact absurd (hlegal.control_short control) (Nat.not_le.2 excess)
    | fragmented control more => exact more (hlegal.control_whole control)
  | @header h v key more key_length evidence =>
    rw [Frame.wire_append] at hstr
    obtain ⟨rfl, -⟩ := Header.key_append_inj f.key_length key_length hstr
    exact hlegal.not_headerShows haccepts evidence
  | @frame f' v more evidence =>
    obtain ⟨rfl, -⟩ := Frame.wire_append_inj hstr
    exact haccepts.not_frameShows evidence

/-- **A stream has one meaning**: it delivers the same events however it is decoded, and ends in a
violation or not. -/
theorem Decodes.unique {s : List UInt8} {events' : List Event} {v v' : Option Violation}
    (h : Decodes (Shows role limit) role limit opened s events v)
    (h' : Decodes (Shows role limit) role limit opened s events' v') :
    events = events' ∧ v.isSome = v'.isSome := by
  induction h generalizing events' v' with
  | waiting clean short =>
    cases h' with
    | waiting => exact ⟨rfl, rfl⟩
    | violation shown => exact absurd shown (clean _)
    | frame legal accepted => exact absurd rfl (short _ _ _ _ legal accepted)
  | violation shown =>
    cases h' with
    | waiting clean => exact absurd shown (clean _)
    | violation => exact ⟨rfl, rfl⟩
    | frame legal accepted => exact absurd shown (legal.not_shows accepted _ _)
  | @frame opened later f rest events more v legal accepted decoded ih =>
    generalize hstr : f.wire ++ rest = s at h'
    cases h' with
    | waiting clean short => exact absurd hstr.symm (short _ _ _ _ legal accepted)
    | violation shown =>
      rw [← hstr] at shown
      exact absurd shown (legal.not_shows accepted _ _)
    | frame legal' accepted' decoded' =>
      obtain ⟨rfl, rfl⟩ := Frame.wire_append_inj hstr
      obtain ⟨rfl, rfl⟩ := accepted.unique accepted'
      obtain ⟨rfl, hsome⟩ := ih decoded'
      exact ⟨rfl, hsome⟩

/-! ### A stream of whole messages, cut anywhere -/

/-- Before the first byte there is nothing to see. -/
theorem nothing_shown : (∀ v, ¬Shows role limit opened [] v) ∧
    ∀ f events later more, f.Legal role → Accepts limit opened f events later →
      [] ≠ f.wire ++ more := by
  refine ⟨fun v hshows => ?_, fun f _ _ more _ _ heq => by cases heq⟩
  generalize hnil : ([] : List UInt8) = s at hshows
  cases hshows with
  | first | length | header | frame => cases hnil

/-- A part of a frame that may come next shows nothing, and is no frame itself. -/
theorem Decodes.of_part {part : List UInt8} (hlegal : f.Legal role)
    (haccepts : Accepts limit opened f events later) (hpart : part <+: f.wire)
    (hshort : part.length < f.wire.length) :
    Decodes (Shows role limit) role limit opened part [] none := by
  obtain ⟨more, hmore⟩ := hpart
  refine .waiting (fun v hshows => ?_) fun f' _ _ rest _ _ heq => ?_
  · have hwhole := hshows.append more
    rw [hmore, ← append_nil f.wire] at hwhole
    exact hlegal.not_shows haccepts [] v hwhole
  · rw [heq, append_assoc, ← append_nil f.wire] at hmore
    obtain ⟨rfl, -⟩ := Frame.wire_append_inj hmore
    rw [heq, length_append] at hshort
    omega

/-- **Messages of one frame each are read as they are written**, wherever the stream is cut: those
that have arrived are delivered, and the part behind them shows nothing. -/
theorem decodes_of_wires {ε : Type*} {wire : ε → List UInt8} {event : ε → Option Event}
    (sent : List ε) (hsent : ∀ e ∈ sent, ∃ f ev, event e = some ev ∧ f.wire = wire e ∧
      f.Legal role ∧ Accepts limit none f [ev] none) {s : List UInt8}
    (hs : s <+: (sent.map wire).flatten) :
    ∃ arrived later part, sent = arrived ++ later ∧ s = (arrived.map wire).flatten ++ part ∧
      (part = [] ∨ ∃ e ∈ later.head?, part <+: wire e ∧ part ≠ wire e) ∧
      Decodes (Shows role limit) role limit none s (arrived.filterMap event) none := by
  induction sent generalizing s with
  | nil =>
    obtain rfl : s = [] := prefix_nil.1 hs
    exact ⟨[], [], [], rfl, rfl, .inl rfl, .waiting nothing_shown.1 nothing_shown.2⟩
  | cons e sent ih =>
    obtain ⟨f, ev, hev, hwire, hlegal, haccepts⟩ := hsent e mem_cons_self
    rw [map_cons, flatten_cons] at hs
    by_cases hwhole : (wire e).length ≤ s.length
    · -- the frame has arrived
      obtain ⟨s', rfl⟩ := prefix_of_prefix_length_le (prefix_append _ _) hs hwhole
      obtain ⟨arrived, later, part, rfl, rfl, hpart, hdecodes⟩ :=
        ih (fun e' he' => hsent e' (mem_cons_of_mem _ he')) ((prefix_append_right_inj _).1 hs)
      refine ⟨e :: arrived, later, part, rfl, ?_, hpart, ?_⟩
      · rw [map_cons, flatten_cons, append_assoc]
      · rw [filterMap_cons_some hev, ← hwire]
        exact .frame hlegal haccepts hdecodes
    · have hpart := prefix_of_prefix_length_le hs (prefix_append _ _) (by omega)
      refine ⟨[], e :: sent, s, rfl, rfl, .inr ⟨e, rfl, hpart, ?_⟩, ?_⟩
      · rintro rfl
        exact hwhole le_rfl
      · rw [← hwire] at hpart hwhole
        exact .of_part hlegal haccepts hpart (by omega)

end Streams

end Rfc6455
