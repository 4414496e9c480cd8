/-
**What the frame parser delivers is what the stream means.**

`Rfc6455` says what a stream of frames delivers.  The parser of `WebSocketFrame` reads the same
stream byte by byte, in pieces, and keeps what it finds in queues.  Here the two meet.

First the header: what `parse_frame_header` reports, in terms of the fields of the header
(`found`).  Then one turn of the loop (`FrameParser.turned`): it waits
when the buffer is neither a whole frame nor a violation, it fails when the buffer shows a
violation, and it takes a frame that may come next.  A run of the loop follows by induction, and a
session, in which calls of `parse` and the taking of frames alternate, follows from the runs.

Main definitions:

* `Found` — the results of `parse_frame_header`;
* `FrameParser.Tracks`, `FrameParser.Queued` — the message that is open, and the queues;
* `FrameParser.session` — calls of the parser up to its first error.

Main results:

* `FrameParser.turned` — what a turn does;
* `FrameParser.decodes_run` — what a run does;
* `parser_matches_reference` — **what a session delivers, and whether it ends in an error, is the
  meaning of the stream.**
-/

import Elio.WebSocketFrame

set_option autoImplicit false

namespace Elio.WebSocket

open Elio.Http (Bytes)
open Rfc6455 (Header Frame Violation Event OpenMessage LegalOpcode extendedSize bigEndian)
open Rfc6455 (FirstByteShows LengthShows HeaderShows FrameShows Shows Accepts Decodes Within)
open List

/-- What an error says about the frame. -/
def FrameError.violation : FrameError → Violation
  | .invalidOpcode => .reservedOpcode
  | .reservedBits => .reservedBits
  | .nonMinimalLength => .nonMinimalLength
  | .invalidLength => .oversizedLength
  | .controlTooLarge => .controlTooLong
  | .controlFragmented => .controlFragmented
  | .unmasked => .maskMissing
  | .masked => .maskUnexpected
  | .continuationWithoutInitial => .continuationWithoutStart
  | .newMessage => .startInsideMessage
  | .messageTooLarge => .messageTooLarge
  | .invalidUtf8 => .notUtf8

/-- The side that a role stands for. -/
def EndpointRole.side : EndpointRole → Rfc6455.Role
  | .unspecified => .any
  | .server => .server
  | .client => .client

/-! ### Bytes of the header -/

theorem highBit_iff (b : UInt8) : b &&& 0x80 ≠ 0 ↔ 128 ≤ b.toNat := by
  revert b
  exact forall_uInt8 (by decide +kernel)

theorem reservedBits_iff (b : UInt8) :
    (b &&& 0x40 ≠ 0 ∨ b &&& 0x20 ≠ 0 ∨ b &&& 0x10 ≠ 0) ↔ b.toNat / 16 % 8 ≠ 0 := by
  revert b
  exact forall_uInt8 (by decide +kernel)

theorem value_opcodeOf (b : UInt8) :
    (opcodeOf (b &&& 0x0f)).map (fun op => op.value.toNat) =
      if LegalOpcode (b.toNat % 16) then some (b.toNat % 16) else none := by
  revert b
  exact forall_uInt8 (by decide +kernel)

theorem isControlFrame_iff (op : Opcode) : isControlFrame op = true ↔ 8 ≤ op.value.toNat := by
  cases op <;> decide

theorem toNat_len7 (b : UInt8) : (b &&& 0x7f).toNat = b.toNat % 128 := by
  exact Nat.and_two_pow_sub_one_eq_mod b.toNat 7

theorem bigEndian_lt (bytes : Bytes) : bigEndian bytes < 256 ^ bytes.length := by
  rw [← length_reverse]
  exact leNat_lt _

theorem medium_iff (b : UInt8) : b &&& 0x7f = 126 ↔ b.toNat % 128 = 126 := by
  rw [← UInt8.toNat_inj, toNat_len7]
  rfl

theorem long_iff (b : UInt8) : b &&& 0x7f = 127 ↔ b.toNat % 128 = 127 := by
  rw [← UInt8.toNat_inj, toNat_len7]
  rfl

/-- The length of a header whose length is there. -/
theorem parseLength_header (h : Header) (rest : Bytes) :
    parseLength (h.second &&& 0x7f) (h.extended ++ rest) =
      if 2 ^ 63 ≤ h.payloadLength then .error .invalidLength
      else if ¬h.Minimal then .error .nonMinimalLength
      else .length h.payloadLength h.extended.length := by
  have hsized := h.sized
  have h126 := medium_iff h.second
  have h127 := long_iff h.second
  have hlt := bigEndian_lt h.extended
  simp only [parseLength]
  rw [extendedSize] at hsized
  by_cases hmedium : h.second.toNat % 128 = 126
  · rw [if_pos hmedium] at hsized
    have hlen : h.payloadLength = bigEndian h.extended := by
      rw [Header.payloadLength, Header.short, if_neg (by omega)]
    have hmin : h.Minimal ↔ 126 ≤ bigEndian h.extended := by
      rw [Header.Minimal, Header.short]
      omega
    rw [hsized] at hlt
    rw [if_pos (h126.2 hmedium), if_neg (by rw [length_append]; omega),
      take_left' hsized, hlen, if_neg (show ¬ 2 ^ 63 ≤ _ by omega), hsized]
    simp only [hmin, Nat.not_le]
  · rw [if_neg hmedium] at hsized
    by_cases hlong : h.second.toNat % 128 = 127
    · rw [if_pos hlong] at hsized
      have hlen : h.payloadLength = bigEndian h.extended := by
        rw [Header.payloadLength, Header.short, if_neg (by omega)]
      have hmin : ¬h.Minimal ↔ bigEndian h.extended ≤ 65535 := by
        rw [Header.Minimal, Header.short]
        omega
      rw [if_neg (mt h126.1 hmedium), if_pos (h127.2 hlong),
        if_neg (by rw [length_append]; omega), take_left' hsized, hlen, hsized]
      simp only [hmin]
    · rw [if_neg hlong] at hsized
      have hlen : h.payloadLength = h.second.toNat % 128 := by
        rw [Header.payloadLength, Header.short, if_pos (by omega)]
      have hmin : h.Minimal := by
        rw [Header.Minimal, Header.short]
        omega
      rw [if_neg (mt h126.1 hmedium), if_neg (mt h127.1 hlong), toNat_len7, hlen,
        if_neg (by omega), if_neg (not_not.2 hmin), hsized]

variable {rest : Bytes}

theorem parseLength_short {b₁ : UInt8} (h : rest.length < extendedSize b₁) :
    parseLength (b₁ &&& 0x7f) rest = .incomplete := by
  have h126 := medium_iff b₁
  have h127 := long_iff b₁
  rw [extendedSize] at h
  simp only [parseLength]
  split_ifs at h with hmedium hlong
  · rw [if_pos (h126.2 hmedium), if_pos h]
  · rw [if_neg (mt h126.1 hmedium), if_pos (h127.2 hlong), if_pos h]
  · omega

/-! ### Headers -/

/-- The fields that the parser keeps of a header. -/
structure Describes (header : FrameHeader) (h : Header) (key : Bytes) : Prop where
  fin : header.fin = true ↔ h.fin
  opcode : header.op.value.toNat = h.opcode
  masked : header.masked = true ↔ h.masked
  length : header.payloadLen = h.payloadLength
  key : h.masked → header.maskKey.bytes = key

/-- What `parse_frame_header` finds: that the header is not there and nothing is wrong so far, what
is wrong, or the header. -/
inductive Found : Bytes → HeaderResult → Prop
  | incomplete {data : Bytes}
      (first : ∀ b rest v, data = b :: rest → ¬FirstByteShows b v)
      (length : ∀ (h : Header) rest v, data = h.bytes ++ rest → ¬LengthShows h v)
      (header : ∀ (h : Header) key rest, key.length = h.keySize → data ≠ h.bytes ++ key ++ rest) :
      Found data .incomplete
  | first {b : UInt8} {rest : Bytes} {e : FrameError} (evidence : FirstByteShows b e.violation) :
      Found (b :: rest) (.error e)
  | length {h : Header} {rest : Bytes} {e : FrameError} (evidence : LengthShows h e.violation) :
      Found (h.bytes ++ rest) (.error e)
  | complete {h : Header} {key rest : Bytes} {header : FrameHeader}
      (key_length : key.length = h.keySize) (first : ∀ v, ¬FirstByteShows h.first v)
      (length : ∀ v, ¬LengthShows h v) (describes : Describes header h key) :
      Found (h.bytes ++ key ++ rest) (.complete header (h.bytes ++ key).length)

variable {h : Header}

/-- After the length. -/
theorem found_parseMaskKey {op : Opcode} {fin masked : Bool}
    (hfst : ∀ v, ¬FirstByteShows h.first v) (hmin : h.Minimal)
    (hsized : ¬2 ^ 63 ≤ h.payloadLength) (hop : op.value.toNat = h.opcode)
    (hfin : fin = true ↔ h.fin) (hmasked : masked = true ↔ h.masked) :
    Found (h.bytes ++ rest)
      (parseMaskKey fin op masked h.payloadLength h.extended.length (h.extended ++ rest)) := by
  have hctrl : isControlFrame op = true ↔ h.Control := by
    rw [isControlFrame_iff, hop, Header.Control]
  rw [parseMaskKey]
  by_cases hlong : h.Control ∧ 125 < h.payloadLength
  · rw [if_pos (by simp [hctrl.2 hlong.1, hlong.2])]
    exact .length (.long hlong.1 hlong.2)
  rw [if_neg (by rw [Bool.and_eq_true, hctrl, decide_eq_true_iff]; exact hlong)]
  by_cases hfrag : h.Control ∧ ¬h.fin
  · rw [if_pos (by simp [hctrl.2 hfrag.1, mt hfin.1 hfrag.2])]
    exact .length (.fragmented hfrag.1 hfrag.2)
  rw [if_neg (by
    rw [Bool.and_eq_true, hctrl, Bool.not_eq_true', ← Bool.not_eq_true, hfin]
    exact hfrag)]
  -- nothing is wrong with the length
  have hlen : ∀ v, ¬LengthShows h v := by
    intro v hshows
    cases hshows with
    | minimal longer => exact longer hmin
    | oversized excess => exact hsized excess
    | long control excess => exact hlong ⟨control, excess⟩
    | fragmented control more => exact hfrag ⟨control, more⟩
  by_cases hmask : h.masked
  · have hsize : h.keySize = 4 := if_pos hmask
    rw [if_pos (hmasked.2 hmask), drop_left]
    -- the key, or too few bytes for it
    have hshort : rest.length < 4 → Found (h.bytes ++ rest) .incomplete := by
      intro hlt
      refine .incomplete ?_ ?_ ?_
      · intro b more v heq
        rw [Header.bytes, cons_append, cons.injEq] at heq
        rw [← heq.1]
        exact hfst v
      · intro h' more v heq
        obtain ⟨rfl, -⟩ := Header.bytes_append_inj heq
        exact hlen v
      · intro h' key more hkey heq
        rw [append_assoc] at heq
        obtain ⟨rfl, rfl⟩ := Header.bytes_append_inj heq
        rw [length_append, hkey] at hlt
        omega
    rcases rest with _ | ⟨k0, _ | ⟨k1, _ | ⟨k2, _ | ⟨k3, more⟩⟩⟩⟩
    · exact hshort (by simp)
    · exact hshort (by simp)
    · exact hshort (by simp)
    · exact hshort (by simp)
    · have hfound : Found (h.bytes ++ [k0, k1, k2, k3] ++ more) (.complete
          { fin, op, masked, payloadLen := h.payloadLength, maskKey := ⟨k0, k1, k2, k3⟩ }
          (h.bytes ++ [k0, k1, k2, k3]).length) :=
        .complete hsize.symm hfst hlen ⟨hfin, hop, hmasked, rfl, fun _ => rfl⟩
      have hhdr : (h.bytes ++ [k0, k1, k2, k3]).length = 2 + h.extended.length + 4 := by
        simp only [Header.bytes, length_append, length_cons, length_nil]
        omega
      rw [append_assoc, hhdr] at hfound
      exact hfound
  · have hfound : Found (h.bytes ++ [] ++ rest) (.complete
        { fin, op, masked, payloadLen := h.payloadLength } (h.bytes ++ []).length) :=
      .complete (if_neg hmask).symm hfst hlen
        ⟨hfin, hop, hmasked, rfl, fun hmask' => absurd hmask' hmask⟩
    have hhdr : h.bytes.length = 2 + h.extended.length := by
      simp only [Header.bytes, length_cons]
      omega
    rw [if_neg (mt hmasked.1 hmask)]
    rw [append_nil, hhdr] at hfound
    exact hfound

/-- **What `parse_frame_header` finds** in any buffer. -/
theorem found (data : Bytes) : Found data (parseFrameHeader data) := by
  cases data with
  | nil =>
    exact .incomplete (by simp) (by simp [Header.bytes]) (by simp [Header.bytes])
  | cons b₀ rest =>
    have hval := value_opcodeOf b₀
    rw [parseFrameHeader]
    cases hop : opcodeOf (b₀ &&& 0x0f) with
    | none =>
      rw [hop] at hval
      refine .first (.opcode fun hlegal => ?_)
      rw [if_pos hlegal] at hval
      cases hval
    | some op =>
      rw [hop] at hval
      have hlegal : LegalOpcode (b₀.toNat % 16) := by
        by_contra hillegal
        rw [if_neg hillegal] at hval
        cases hval
      rw [if_pos hlegal] at hval
      have hopcode : op.value.toNat = b₀.toNat % 16 := Option.some.inj hval
      simp only [reservedBits_iff]
      split_ifs with hbits
      · exact .first (.bits hbits)
      have hfst : ∀ v, ¬FirstByteShows b₀ v := by
        intro v hshows
        cases hshows with
        | opcode illegal => exact illegal hlegal
        | bits set => exact hbits set
      cases rest with
      | nil =>
        refine .incomplete ?_ (by simp [Header.bytes]) (by simp [Header.bytes])
        intro b more v heq
        cases heq
        exact hfst v
      | cons b₁ rest =>
        rw [parseSecondByte]
        by_cases hsize : extendedSize b₁ ≤ rest.length
        · obtain ⟨h, more, rfl, rfl, rfl⟩ := Rfc6455.exists_header b₀ b₁ hsize
          rw [parseLength_header]
          split_ifs with hover hmin
          · exact .length (.oversized hover)
          · refine found_parseMaskKey hfst hmin hover hopcode ?_ ?_
            · rw [decide_eq_true_iff, highBit_iff, Header.fin]
            · rw [decide_eq_true_iff, highBit_iff, Header.masked]
          · exact .length (.minimal hmin)
        · rw [parseLength_short (Nat.not_le.1 hsize)]
          -- a header that is there has its whole length
          have hshort : ∀ (h : Header) more, b₀ :: b₁ :: rest ≠ h.bytes ++ more := by
            intro h more heq
            simp only [Header.bytes, cons_append, cons.injEq] at heq
            obtain ⟨-, hsnd, hrest⟩ := heq
            have hlen := congrArg length hrest
            rw [length_append, h.sized, ← hsnd] at hlen
            omega
          refine .incomplete ?_ ?_ ?_
          · intro b more v heq
            cases heq
            exact hfst v
          · intro h more v heq
            exact absurd heq (hshort h more)
          · intro h key more _ heq
            rw [append_assoc] at heq
            exact hshort h _ heq

variable {key : Bytes}

/-- The opcode of a header. -/
theorem Describes.continuation_iff {header : FrameHeader} (hdesc : Describes header h key) :
    header.op = .continuation ↔ h.opcode = 0 := by
  rw [← hdesc.opcode]
  cases header.op <;> decide

theorem Describes.control_iff {header : FrameHeader} (hdesc : Describes header h key) :
    isControlFrame header.op = true ↔ h.Control := by
  rw [isControlFrame_iff, hdesc.opcode, Header.Control]

/-! ### One turn -/

/-- The event of a message. -/
def Message.event (m : Message) : Event := .message m.type.value.toNat m.data

/-- The event of a control frame. -/
def controlEvent (frame : Opcode × Bytes) : Event := .control frame.1.value.toNat frame.2

/-- The queue that an event goes to. -/
def kindOf : Event → QueuedFrameKind
  | .message _ _ => .message
  | .control _ _ => .control

namespace FrameParser

/-- The message that the parser has open. -/
structure Tracks (p : FrameParser) (opened : OpenMessage) : Prop where
  closed : p.hasInitialFrame = false → p.currentMessage = {} ∧ opened = none
  inside : p.hasInitialFrame = true →
    opened = some (p.currentMessage.type.value.toNat, p.currentMessage.data)

/-- The events that wait in the queues of the parser, in wire order. -/
structure Queued (p : FrameParser) (events : List Event) : Prop where
  kinds : p.queuedFrames = events.map kindOf
  messages : p.messages.map Message.event = events.filter fun event => kindOf event = .message
  controls : p.controlFrames.map controlEvent = events.filter fun event => kindOf event = .control

variable {p : FrameParser} {opened : OpenMessage}

theorem Tracks.openSize (h : p.Tracks opened) :
    Rfc6455.openSize opened = p.currentMessage.data.length := by
  cases hinitial : p.hasInitialFrame with
  | false =>
    obtain ⟨hcur, hopened⟩ := h.closed hinitial
    rw [hcur, hopened]
    rfl
  | true =>
    rw [h.inside hinitial]
    rfl

theorem Tracks.eq_none_iff (h : p.Tracks opened) : opened = none ↔ p.hasInitialFrame = false := by
  cases hinitial : p.hasInitialFrame with
  | false => simp [(h.closed hinitial).2]
  | true => simp [h.inside hinitial]

variable {header : FrameHeader}

/-- **The checks on a complete header find the violations of the header.** -/
theorem checkHeader_spec (htracks : p.Tracks opened) (hdesc : Describes header h key) :
    (∀ e, p.checkHeader header = some e →
        HeaderShows p.role.side p.maxMessageSize opened h e.violation) ∧
      (p.checkHeader header = none → ∀ v, ¬HeaderShows p.role.side p.maxMessageSize opened h v) := by
  have hserver : p.role.side = .server ↔ p.role = .server := by cases p.role <;> decide
  have hclient : p.role.side = .client ↔ p.role = .client := by cases p.role <;> decide
  have hnone := htracks.eq_none_iff
  have hlim : ¬Within p.maxMessageSize (Rfc6455.openSize opened + h.payloadLength) ↔
      0 < p.maxMessageSize ∧ (p.maxMessageSize < p.currentMessage.data.length ∨
        p.maxMessageSize - p.currentMessage.data.length < header.payloadLen) := by
    rw [Within, htracks.openSize, hdesc.length]
    omega
  simp only [checkHeader, Bool.and_eq_true, decide_eq_true_iff, Bool.not_eq_true', Bool.or_eq_true,
    ← Bool.not_eq_true header.masked, hdesc.masked, hdesc.control_iff, ← hserver,
    ← hclient, hdesc.continuation_iff, ← hnone, ← Bool.not_eq_false p.hasInitialFrame,
    ne_eq]
  split_ifs with hmissing hunexpected hctrl hcontinuation hstart hlarge
  · refine ⟨fun e heq => ?_, by simp⟩
    cases heq
    exact .missing hmissing.1 hmissing.2
  · refine ⟨fun e heq => ?_, by simp⟩
    cases heq
    exact .unexpected hunexpected.1 hunexpected.2
  · refine ⟨by simp, fun _ v hshows => ?_⟩
    cases hshows with
    | missing reader bare => exact hmissing ⟨reader, bare⟩
    | unexpected reader masked => exact hunexpected ⟨reader, masked⟩
    | continuation continued closed =>
      rw [Header.Control] at hctrl
      omega
    | start data | large data => exact data hctrl
  · refine ⟨fun e heq => ?_, by simp⟩
    cases heq
    exact .continuation hcontinuation.1 hcontinuation.2
  · refine ⟨fun e heq => ?_, by simp⟩
    cases heq
    exact .start hctrl hstart.1 hstart.2
  · refine ⟨fun e heq => ?_, by simp⟩
    cases heq
    exact .large hctrl (hlim.2 (by simpa using hlarge))
  · refine ⟨by simp, fun _ v hshows => ?_⟩
    cases hshows with
    | missing reader bare => exact hmissing ⟨reader, bare⟩
    | unexpected reader masked => exact hunexpected ⟨reader, masked⟩
    | continuation continued closed => exact hcontinuation ⟨continued, closed⟩
    | start data first inside => exact hstart ⟨first, inside⟩
    | large data excess => exact hlarge (by simpa using hlim.1 excess)

/-- A frame whose header shows nothing is legal. -/
theorem legal_of_not_shows {f : Frame} (hfst : ∀ v, ¬FirstByteShows f.header.first v)
    (hlen : ∀ v, ¬LengthShows f.header v)
    (hhdr : ∀ v, ¬HeaderShows p.role.side p.maxMessageSize opened f.header v) :
    f.Legal p.role.side where
  opcode := by
    by_contra hillegal
    exact hfst _ (.opcode hillegal)
  reserved := by
    by_contra hset
    exact hfst _ (.bits hset)
  minimal := by
    by_contra hlonger
    exact hlen _ (.minimal hlonger)
  sized := by
    by_contra hover
    exact hlen _ (.oversized (Nat.not_lt.1 hover))
  control_short hctrl := by
    by_contra hover
    exact hlen _ (.long hctrl (Nat.not_le.1 hover))
  control_whole hctrl := by
    by_contra hmore
    exact hlen _ (.fragmented hctrl hmore)
  masked hrd := by
    by_contra hbare
    exact hhdr _ (.missing hrd hbare)
  unmasked hrd hmasked := hhdr _ (.unexpected hrd hmasked)

/-- **What a turn does.**  It waits, and then the buffer shows no violation and is not a whole frame
that may come next; it fails, and then the buffer shows the violation; or it takes a frame. -/
inductive Turned (p : FrameParser) (opened : OpenMessage) : Turn → Prop
  | wait (clean : ∀ v, ¬Shows p.role.side p.maxMessageSize opened p.buffer v)
      (short : ∀ f events later more, f.Legal p.role.side →
        Accepts p.maxMessageSize opened f events later → p.buffer ≠ f.wire ++ more) :
      Turned p opened .wait
  | failed {p' : FrameParser} {e : FrameError} (error : p'.error = some e)
      (shown : Shows p.role.side p.maxMessageSize opened p.buffer e.violation)
      (queued : ∀ {events : List Event}, p.Queued events → p'.Queued events) :
      Turned p opened (.failed p')
  | frame {p' : FrameParser} {size : ℕ} {f : Frame} {events : List Event} {later : OpenMessage}
      (legal : f.Legal p.role.side) (accepted : Accepts p.maxMessageSize opened f events later)
      (stream : p.buffer = f.wire ++ p'.buffer) (tracks : p'.Tracks later)
      (role_eq : p'.role = p.role) (limit_eq : p'.maxMessageSize = p.maxMessageSize)
      (queued : ∀ {earlier : List Event}, p.Queued earlier → p'.Queued (earlier ++ events)) :
      Turned p opened (.frame p' size)

/-- The bytes under a key, as the parser takes them off. -/
theorem extractPayload_eq (hdesc : Describes header h key) (hkey : key.length = h.keySize) :
    extractPayload (h.bytes ++ key ++ rest) header (h.bytes ++ key).length =
      Rfc6455.mask key (rest.take h.payloadLength) := by
  rw [extractPayload, drop_left, hdesc.length]
  by_cases hmasked : h.masked
  · rw [if_pos (hdesc.masked.2 hmasked)]
    rw [← hdesc.key hmasked]
    rfl
  · have hnil : key = [] := eq_nil_of_length_eq_zero (by rw [hkey]; exact if_neg hmasked)
    rw [if_neg (mt hdesc.masked.1 hmasked), hnil]
    exact (Rfc6455.mask_nil _).symm

theorem Queued.message {p' : FrameParser} {m : Message} {events : List Event}
    (hkinds : p'.queuedFrames = p.queuedFrames ++ [.message])
    (hmsgs : p'.messages = p.messages ++ [m]) (hctrls : p'.controlFrames = p.controlFrames)
    (h : p.Queued events) : p'.Queued (events ++ [m.event]) where
  kinds := by
    rw [hkinds, h.kinds, map_append]
    rfl
  messages := by
    rw [hmsgs, map_append, h.messages, filter_append]
    rfl
  controls := by
    rw [hctrls, h.controls, Message.event]
    simp [kindOf]

theorem Queued.control {p' : FrameParser} (frame : Opcode × Bytes) {events : List Event}
    (hkinds : p'.queuedFrames = p.queuedFrames ++ [.control]) (hmsgs : p'.messages = p.messages)
    (hctrls : p'.controlFrames = p.controlFrames ++ [frame]) (h : p.Queued events) :
    p'.Queued (events ++ [controlEvent frame]) where
  kinds := by
    rw [hkinds, h.kinds, map_append]
    rfl
  messages := by
    rw [hmsgs, h.messages, controlEvent]
    simp [kindOf]
  controls := by
    rw [hctrls, map_append, h.controls, filter_append]
    rfl

/-- The test of the text of a message. -/
theorem readable_iff (m : Message) :
    (m.type = .text && !isValidUtf8 m.data) = false ↔
      Rfc6455.Readable m.type.value.toNat m.data := by
  have htype : m.type = .text ↔ m.type.value.toNat = 1 := by cases m.type <;> decide
  rw [Rfc6455.Readable, ← htype, ← isValidUtf8_iff]
  cases hvalid : isValidUtf8 m.data <;> simp

theorem turned_takeData {f : Frame} (htracks : p.Tracks opened) (hlegal : f.Legal p.role.side)
    (hdesc : Describes header f.header f.key) (hdata : ¬f.header.Control)
    (hhdr : ∀ v, ¬HeaderShows p.role.side p.maxMessageSize opened f.header v)
    (hstr : p.buffer = f.wire ++ rest) :
    Turned p opened (p.takeData header f.payload f.wire.length) := by
  have hdrop : p.buffer.drop f.wire.length = rest := by rw [hstr, drop_left]
  have hwithin : Within p.maxMessageSize (Rfc6455.openSize opened + f.payload.length) := by
    by_contra hover
    rw [f.payload_length] at hover
    exact hhdr _ (.large hdata hover)
  have hfin : (!header.fin) = true ↔ ¬f.header.fin := by
    rw [Bool.not_eq_true', ← Bool.not_eq_true, hdesc.fin]
  have hinside : (p.hasInitialFrame || decide (header.op ≠ .continuation)) = true := by
    by_contra hclosed
    simp only [Bool.or_eq_true, decide_eq_true_eq, not_or, Bool.not_eq_true, not_not] at hclosed
    exact hhdr _ (.continuation (hdesc.continuation_iff.1 hclosed.2)
      (htracks.eq_none_iff.2 hclosed.1))
  -- what becomes of the message that is open
  generalize hm : p.grown header f.payload = m
  obtain ⟨hopens, hwhole, hunreadable⟩ :
      (¬f.header.fin → Accepts p.maxMessageSize opened f [] (some (m.type.value.toNat, m.data))) ∧
      (f.header.fin → Rfc6455.Readable m.type.value.toNat m.data →
        Accepts p.maxMessageSize opened f [m.event] none) ∧
      (f.header.fin → m.type = .text → ¬Utf8.Valid m.data → FrameShows opened f .notUtf8) := by
    subst hm
    cases hinitial : p.hasInitialFrame with
    | false =>
      obtain ⟨hcur, rfl⟩ := htracks.closed hinitial
      have hfst : f.header.opcode ≠ 0 := fun hzero => hhdr _ (.continuation hzero rfl)
      have hop : header.op ≠ .continuation := mt hdesc.continuation_iff.1 hfst
      have hgrown : p.grown header f.payload = { type := header.op, data := f.payload } := by
        simp [grown, hop]
      rw [Rfc6455.openSize, Nat.zero_add] at hwithin
      simp only [hgrown, Message.event, hdesc.opcode]
      refine ⟨.start hdata hfst hwithin, .single hdata hfst hwithin, fun hlast htext => ?_⟩
      refine .single ?_ hlast
      rw [← hdesc.opcode, htext]
      rfl
    | true =>
      have hopened := htracks.inside hinitial
      have hcontinued : f.header.opcode = 0 := by
        by_contra hfst
        exact hhdr _ (.start hdata hfst (by rw [hopened]; simp))
      have hgrown : p.grown header f.payload =
          { p.currentMessage with data := p.currentMessage.data ++ f.payload } := by
        simp [grown, hdesc.continuation_iff.2 hcontinued]
      subst hopened
      rw [hgrown]
      refine ⟨.next hcontinued hwithin, .final hcontinued hwithin, fun hlast htext => ?_⟩
      rw [show p.currentMessage.type = .text from htext]
      exact .final hcontinued hlast
  have hreadable := readable_iff m
  simp only [takeData, hm, hdrop]
  split_ifs with hmore htext
  · -- the message stays open
    refine .frame hlegal (hopens (hfin.1 hmore)) hstr ⟨?_, fun _ => rfl⟩ rfl rfl ?_
    · intro hclosed
      exact absurd (hinside.symm.trans hclosed) (by simp)
    · intro earlier hqueued
      rw [append_nil]
      exact { hqueued with }
  · -- a text that is not UTF-8
    have htype : m.type = .text ∧ isValidUtf8 m.data = false := by simpa using htext
    refine .failed rfl ?_ fun hqueued => { hqueued with }
    rw [hstr]
    refine .frame rest (hunreadable (not_not.1 (mt hfin.2 hmore)) htype.1 ?_)
    rw [← isValidUtf8_iff, htype.2]
    exact Bool.false_ne_true
  · -- the message is complete
    refine .frame hlegal (hwhole (not_not.1 (mt hfin.2 hmore)) (hreadable.1 (by simpa using htext)))
      hstr ⟨fun _ => ⟨rfl, rfl⟩, by simp⟩ rfl rfl ?_
    exact fun hqueued => hqueued.message (m := { m with complete := true }) rfl rfl rfl

/-- A header that is there, with what the checks say. -/
theorem turned_of_complete (htracks : p.Tracks opened) (hkey : key.length = h.keySize)
    (hfst : ∀ v, ¬FirstByteShows h.first v) (hlen : ∀ v, ¬LengthShows h v)
    (hdesc : Describes header h key) (hstr : p.buffer = h.bytes ++ key ++ rest)
    (hcheck : p.checkHeader header = none) :
    Turned p opened
      (let frameSize := (h.bytes ++ key).length + header.payloadLen
      if p.buffer.length < frameSize then .wait
      else
        let payload := extractPayload p.buffer header (h.bytes ++ key).length
        if isControlFrame header.op then
          .frame
            { p with
              controlFrames := p.controlFrames ++ [(header.op, payload)]
              queuedFrames := p.queuedFrames ++ [.control]
              buffer := p.buffer.drop frameSize }
            frameSize
        else p.takeData header payload frameSize) := by
  have hhdr := (checkHeader_spec htracks hdesc).2 hcheck
  have hbuf : p.buffer.length = (h.bytes ++ key).length + rest.length := by
    rw [hstr, length_append]
  simp only []
  split_ifs with hshort hctrl
  · -- the payload is not there
    rw [hdesc.length] at hshort
    have hnotWhole : ∀ (f : Frame) more, p.buffer ≠ f.wire ++ more := by
      intro f more heq
      rw [hstr, Frame.wire_append] at heq
      obtain ⟨rfl, rfl, hrest⟩ := Header.key_append_inj hkey f.key_length heq
      have hlt := congrArg length hrest
      rw [length_append, Rfc6455.length_mask, f.payload_length] at hlt
      omega
    refine .wait (fun v hshows => ?_) fun f _ _ more _ _ => hnotWhole f more
    generalize hstream' : p.buffer = s at hshows
    cases hshows with
    | @first b v more evidence =>
      rw [hstr, Header.bytes] at hstream'
      simp only [cons_append, cons.injEq] at hstream'
      exact hfst v (hstream'.1 ▸ evidence)
    | @length h' v more evidence =>
      rw [hstr, append_assoc] at hstream'
      obtain ⟨rfl, -⟩ := Header.bytes_append_inj hstream'
      exact hlen v evidence
    | @header h' v key' more key_length evidence =>
      rw [hstr] at hstream'
      obtain ⟨rfl, -⟩ := Header.key_append_inj hkey key_length hstream'
      exact hhdr v evidence
    | @frame f v more evidence => exact hnotWhole f more hstream'
  all_goals
    -- the frame is there
    have hpay : (rest.take h.payloadLength).length = h.payloadLength := by
      rw [length_take]
      rw [hdesc.length] at hshort
      omega
    obtain ⟨f, rfl, rfl, hraw⟩ : ∃ f : Frame, f.header = h ∧ f.key = key ∧
        Rfc6455.mask f.key f.payload = rest.take h.payloadLength :=
      ⟨⟨h, key, Rfc6455.mask key (rest.take h.payloadLength), hkey,
        by rw [Rfc6455.length_mask, hpay]⟩, rfl, rfl, Rfc6455.mask_mask _ _⟩
    have hextract : extractPayload p.buffer header (f.header.bytes ++ f.key).length = f.payload := by
      rw [hstr, extractPayload_eq hdesc hkey, ← hraw, Rfc6455.mask_mask]
    have hwire : p.buffer = f.wire ++ rest.drop f.header.payloadLength := by
      rw [hstr, Frame.wire, hraw, append_assoc, append_assoc, append_assoc,
        take_append_drop]
    have hsize : (f.header.bytes ++ f.key).length + header.payloadLen = f.wire.length := by
      have hlen : f.wire.length =
          (f.header.bytes ++ f.key).length + (rest.take f.header.payloadLength).length := by
        rw [Frame.wire, hraw]
        exact length_append
      rw [hlen, hpay, hdesc.length]
    have hlegal : f.Legal p.role.side := legal_of_not_shows hfst hlen hhdr
    rw [hextract, hsize]
  · refine .frame hlegal (.control (hdesc.control_iff.1 hctrl)) ?_ ?_ rfl rfl ?_
    · simp only [hwire, drop_left]
    · exact ⟨htracks.closed, htracks.inside⟩
    · intro earlier hqueued
      rw [← hdesc.opcode]
      exact hqueued.control (header.op, f.payload) rfl rfl rfl
  · exact turned_takeData htracks hlegal hdesc (mt hdesc.control_iff.2 hctrl) hhdr
      hwire

/-- **What a turn does**, with any buffer. -/
theorem turned (htracks : p.Tracks opened) : Turned p opened p.turn := by
  have hfound := found p.buffer
  rw [turn]
  generalize hres : parseFrameHeader p.buffer = result at hfound
  generalize hbuf : p.buffer = data at hfound
  cases hfound with
  | incomplete first length header =>
    refine .wait (fun v hshows => ?_) fun f _ _ more _ _ heq => ?_
    · rw [hbuf] at hshows
      cases hshows with
      | first rest evidence => exact first _ _ _ rfl evidence
      | length rest evidence => exact length _ _ _ rfl evidence
      | header key rest key_length evidence => exact header _ _ _ key_length rfl
      | @frame f v rest evidence => exact header _ _ _ f.key_length (f.wire_append rest)
    · rw [hbuf, Frame.wire_append] at heq
      exact header _ _ _ f.key_length heq
  | @first b rest e evidence =>
    refine .failed rfl ?_ fun hqueued => { hqueued with }
    rw [hbuf]
    exact .first rest evidence
  | @length h rest e evidence =>
    refine .failed rfl ?_ fun hqueued => { hqueued with }
    rw [hbuf]
    exact .length rest evidence
  | @complete h key rest header key_length first length describes =>
    simp only []
    cases hcheck : p.checkHeader header with
    | some e =>
      refine .failed rfl ?_ fun hqueued => { hqueued with }
      rw [hbuf]
      exact .header key rest key_length ((checkHeader_spec htracks describes).1 e hcheck)
    | none =>
      rw [← hbuf]
      exact turned_of_complete htracks key_length first length describes hbuf hcheck

/-! ### A run -/

/-- The buffer is neither a whole frame nor a violation. -/
structure Quiet (p : FrameParser) (opened : OpenMessage) : Prop where
  clean : ∀ v, ¬Shows p.role.side p.maxMessageSize opened p.buffer v
  short : ∀ f events later more, f.Legal p.role.side →
    Accepts p.maxMessageSize opened f events later → p.buffer ≠ f.wire ++ more

/-- How a run ends: at rest, or with an error. -/
inductive Ends (p : FrameParser) (later : OpenMessage) (rest : Bytes) (p' : FrameParser) : Prop
  | quiet (error : p'.error = none) (tracks : p'.Tracks later) (buffer : p'.buffer = rest)
      (quiet : p'.Quiet later) (role_eq : p'.role = p.role)
      (limit_eq : p'.maxMessageSize = p.maxMessageSize)
  | failed {e : FrameError} (error : p'.error = some e)
      (shown : Shows p.role.side p.maxMessageSize later rest e.violation)

theorem machine_advance (herr : p.error = none) :
    machine.advance p = match p.turn with
      | .wait => none
      | .failed p => some p
      | .frame p _ => some p := by
  change p.advance = _
  refine (if_neg (by simp [herr])).trans ?_
  cases p.turn <;> rfl

/-- **A run reads frames** until it is at rest or finds a violation. -/
theorem reads_run {queue : List Event} (htracks : p.Tracks opened) (herr : p.error = none)
    (hqueued : p.Queued queue) :
    ∃ events later rest,
      Rfc6455.Reads p.role.side p.maxMessageSize opened p.buffer events later rest ∧
        (machine.run p).Queued (queue ++ events) ∧ Ends p later rest (machine.run p) := by
  -- every frame shortens the buffer
  induction hlen : p.buffer.length using Nat.strong_induction_on generalizing p opened queue with
  | _ n ih =>
    have hturned := turned htracks
    have hadvance := machine_advance herr
    generalize hturn : p.turn = result at hturned hadvance
    cases hturned with
    | wait clean short =>
      rw [FeedMachine.run_of_none hadvance]
      refine ⟨[], opened, p.buffer, .nil, ?_, .quiet herr htracks rfl ⟨clean, short⟩ rfl rfl⟩
      rw [append_nil]
      exact hqueued
    | @failed p' e error shown queued =>
      have hend : machine.advance p' = none := by
        change p'.advance = none
        rw [advance, if_pos (by rw [error]; rfl)]
      rw [FeedMachine.run_of_some hadvance, FeedMachine.run_of_none hend]
      refine ⟨[], opened, p.buffer, .nil, ?_, .failed error shown⟩
      rw [append_nil]
      exact queued hqueued
    | @frame p' size f events later legal accepted stream tracks role_eq limit_eq queued =>
      obtain ⟨hsame, htwo, hsize, hbuf⟩ := turn_spec.2 p' size hturn
      have hlt : p'.buffer.length < n := by
        rw [hbuf, length_drop]
        omega
      obtain ⟨more, last, rest, hreads, hqueued', hends⟩ :=
        ih _ hlt tracks (hsame.trans herr) (queued hqueued) rfl
      rw [role_eq, limit_eq] at hreads
      rw [FeedMachine.run_of_some hadvance]
      refine ⟨events ++ more, last, rest, ?_, ?_, ?_⟩
      · rw [stream]
        exact .frame legal accepted hreads
      · rw [← append_assoc]
        exact hqueued'
      · cases hends with
        | quiet error tracks buffer quiet role_eq' limit_eq' =>
          exact .quiet error tracks buffer quiet (role_eq'.trans role_eq)
            (limit_eq'.trans limit_eq)
        | failed error shown =>
          rw [role_eq, limit_eq] at shown
          exact .failed error shown

/-! ### Sessions -/

/-- The oldest frame that is queued. -/
def take (p : FrameParser) : Option (Event × FrameParser) :=
  if p.nextFrameIsControlFrame then
    p.getNextControlFrame.map fun (frame, p) => (controlEvent frame, p)
  else if p.nextFrameIsMessage then p.getNextMessage.map fun (m, p) => (m.event, p)
  else none

/-- A call of the parser. -/
inductive Call where
  | parse (data : Bytes)
  | take
  deriving DecidableEq, Repr

/-- Calls of the parser up to the first error that `parse` returns, with the frames that were
taken. -/
def session (p : FrameParser) : List Call → List Event × FrameParser
  | [] => ([], p)
  | .parse data :: calls =>
    match p.parse data with
    | (p, none) => ([], p)
    | (p, some _) => session p calls
  | .take :: calls =>
    match p.take with
    | none => session p calls
    | some (event, p) => (event :: (session p calls).1, (session p calls).2)

/-- The bytes of the calls. -/
def fed : List Call → Bytes
  | [] => []
  | .parse data :: calls => data ++ fed calls
  | .take :: calls => fed calls

/-- The parser with frames queued before its own. -/
def behind (p : FrameParser) (kinds : List QueuedFrameKind) (messages : List Message)
    (controlFrames : List (Opcode × Bytes)) : FrameParser :=
  { p with
    queuedFrames := kinds ++ p.queuedFrames
    messages := messages ++ p.messages
    controlFrames := controlFrames ++ p.controlFrames }

theorem getNextMessage_of_queued {opcode : ℕ} {data : Bytes} {rest : List Event}
    (h : p.Queued (.message opcode data :: rest)) :
    ∃ m p', m.event = .message opcode data ∧ p.getNextMessage = some (m, p') ∧ p'.Queued rest ∧
      p = p'.behind [.message] [m] [] := by
  obtain ⟨hkinds, hmsgs, hctrls⟩ := h
  rw [map_cons, kindOf] at hkinds
  cases hq : p.messages with
  | nil =>
    rw [hq] at hmsgs
    simp [kindOf] at hmsgs
  | cons m messages =>
    rw [hq] at hmsgs
    simp only [map_cons, kindOf, decide_true, filter_cons_of_pos,
      cons.injEq] at hmsgs
    refine ⟨m, { p with queuedFrames := p.queuedFrames.tail, messages }, hmsgs.1, ?_,
      ⟨?_, hmsgs.2, ?_⟩, ?_⟩
    · simp [nextFrameIsMessage, getNextMessage, hkinds, hq]
    · simp [hkinds]
    · rw [hctrls]
      simp [kindOf]
    · simp only [behind, hkinds, tail_cons, singleton_append, nil_append, ← hq]
      rw [← hkinds]

theorem getNextControlFrame_of_queued {opcode : ℕ} {payload : Bytes} {rest : List Event}
    (h : p.Queued (.control opcode payload :: rest)) :
    ∃ frame p', controlEvent frame = .control opcode payload ∧
      p.getNextControlFrame = some (frame, p') ∧ p'.Queued rest ∧
      p = p'.behind [.control] [] [frame] := by
  obtain ⟨hkinds, hmsgs, hctrls⟩ := h
  rw [map_cons, kindOf] at hkinds
  cases hq : p.controlFrames with
  | nil =>
    rw [hq] at hctrls
    simp [kindOf] at hctrls
  | cons frame controlFrames =>
    rw [hq] at hctrls
    simp only [map_cons, kindOf, decide_true, filter_cons_of_pos,
      cons.injEq] at hctrls
    refine ⟨frame, { p with queuedFrames := p.queuedFrames.tail, controlFrames }, hctrls.1, ?_,
      ⟨?_, ?_, hctrls.2⟩, ?_⟩
    · simp [nextFrameIsControlFrame, getNextControlFrame, hkinds, hq]
    · simp [hkinds]
    · rw [hmsgs]
      simp [kindOf]
    · simp only [behind, hkinds, tail_cons, singleton_append, nil_append, ← hq]
      rw [← hkinds]

theorem take_of_queued {queue : List Event} (h : p.Queued queue) :
    (queue = [] ∧ p.take = none) ∨
      ∃ event rest p' kinds messages controls, queue = event :: rest ∧ p.take = some (event, p') ∧
        p'.Queued rest ∧ p = p'.behind kinds messages controls := by
  have hkinds := h.kinds
  cases queue with
  | nil =>
    simp [take, nextFrameIsControlFrame, nextFrameIsMessage, hkinds]
  | cons event rest =>
    refine .inr ?_
    cases event with
    | message opcode data =>
      obtain ⟨m, p', hev, hnext, hrest, hbehind⟩ := getNextMessage_of_queued h
      refine ⟨_, rest, p', _, _, _, rfl, ?_, hrest, hbehind⟩
      simp [take, nextFrameIsControlFrame, nextFrameIsMessage, hkinds, kindOf, hnext, hev]
    | control opcode payload =>
      obtain ⟨frame, p', hev, hnext, hrest, hbehind⟩ := getNextControlFrame_of_queued h
      refine ⟨_, rest, p', _, _, _, rfl, ?_, hrest, hbehind⟩
      simp [take, nextFrameIsControlFrame, hkinds, kindOf, hnext, hev]

/-- Between two calls: what was taken and what is queued are the events of the frames that the
stream starts with, and the rest of the stream is in the buffer. -/
structure Reading (p : FrameParser) (s : Bytes) (taken : List Event) : Prop where
  error : p.error = none
  state : ∃ queue opened, p.Queued queue ∧ p.Tracks opened ∧ p.Quiet opened ∧
    Rfc6455.Reads p.role.side p.maxMessageSize none s (taken ++ queue) opened p.buffer

/-- The meaning of a stream that has been read so far. -/
theorem Reading.decodes {s : Bytes} {taken : List Event} (h : p.Reading s taken) :
    ∃ queue, p.Queued queue ∧ Decodes (Shows p.role.side p.maxMessageSize) p.role.side
      p.maxMessageSize none s (taken ++ queue) none := by
  obtain ⟨queue, opened, hqueued, -, hquiet, hreads⟩ := h.state
  refine ⟨queue, hqueued, ?_⟩
  have hdec := hreads.decodes (.waiting hquiet.clean hquiet.short)
  rwa [append_nil] at hdec

/-- **A session delivers the events of its stream.** -/
theorem decodes_session {s : Bytes} {taken : List Event} (h : p.Reading s taken)
    (calls : List Call) :
    ∃ queue, (p.session calls).2.Queued queue ∧
      Decodes (Shows p.role.side p.maxMessageSize) p.role.side p.maxMessageSize none
        (s ++ fed calls) (taken ++ (p.session calls).1 ++ queue)
        ((p.session calls).2.error.map FrameError.violation) := by
  induction calls generalizing p s taken with
  | nil =>
    obtain ⟨queue, hqueued, hdec⟩ := h.decodes
    refine ⟨queue, hqueued, ?_⟩
    rw [session, fed, append_nil, append_nil, h.error]
    exact hdec
  | cons call calls ih =>
    obtain ⟨queue, opened, hqueued, htracks, hquiet, hreads⟩ := h.state
    cases call with
    | take =>
      rw [session, fed]
      rcases take_of_queued hqueued with
        ⟨-, hnone⟩ | ⟨event, rest, p', kinds, messages, controls, rfl, htake, hrest, hbehind⟩
      · rw [hnone]
        exact ih h
      · rw [htake]
        -- only the queues have changed
        subst hbehind
        have hread : p'.Reading s (taken ++ [event]) := by
          refine ⟨h.error, rest, opened, hrest, ⟨htracks.closed, htracks.inside⟩,
            ⟨hquiet.clean, hquiet.short⟩, ?_⟩
          rw [append_assoc]
          exact hreads
        obtain ⟨later, hqueued', hdec⟩ := ih hread
        refine ⟨later, hqueued', ?_⟩
        change Decodes (Shows p'.role.side p'.maxMessageSize) p'.role.side p'.maxMessageSize _ _ _ _
        simpa using hdec
    | parse data =>
      rw [session, fed]
      by_cases hdata : data = []
      · rw [hdata]
        exact ih h
      obtain ⟨hparse, hret⟩ := parse_eq_feed h.error hdata
      have hqueued' : (p.append data).Queued queue :=
        { hqueued with }
      have htracks' : (p.append data).Tracks opened := ⟨htracks.closed, htracks.inside⟩
      obtain ⟨events, later, rest, hframes, hafter, hends⟩ :=
        reads_run htracks' h.error hqueued'
      -- the stream up to what the run leaves
      have hall := (hreads.append data).trans hframes
      rw [append_assoc] at hall
      change (machine.feed p data).Queued _ at hafter
      change Ends _ _ _ (machine.feed p data) at hends
      generalize hp' : p.parse data = result at hparse hret
      obtain ⟨p', returned⟩ := result
      rw [← hparse] at hafter hends hret
      cases hends with
      | failed error shown =>
        change Shows p.role.side p.maxMessageSize _ _ _ at shown
        have hnone : returned = none := hret.2 (by rw [error]; rfl)
        rw [hnone]
        refine ⟨queue ++ events, hafter, ?_⟩
        have hstr := hall.append (fed calls)
        have hdec := hstr.decodes (.violation (shown.append (fed calls)))
        rw [error]
        simpa using hdec
      | quiet error tracks buffer quiet role_eq limit_eq =>
        have hsome : returned ≠ none := by
          intro hnone
          have herr := hret.1 hnone
          rw [error] at herr
          cases herr
        obtain ⟨consumed, rfl⟩ := Option.ne_none_iff_exists'.1 hsome
        have hread : p'.Reading (s ++ data) taken := by
          refine ⟨error, queue ++ events, later, hafter, tracks, quiet, ?_⟩
          rw [role_eq, limit_eq, buffer]
          exact hall
        obtain ⟨left, hleft, hdec⟩ := ih hread
        refine ⟨left, hleft, ?_⟩
        rw [role_eq, limit_eq, append_assoc] at hdec
        exact hdec

end FrameParser

/-- **The frame parser delivers what the stream means.**  For every role, every limit and every
session, whatever the pieces in which the stream is parsed: the frames that were taken and those
that are queued are, in this order, the events of the stream, and the parser has an error exactly
when the stream shows a violation; and there is no other way to read the stream. -/
theorem parser_matches_reference (role : EndpointRole) (limit : ℕ) (calls : List FrameParser.Call) :
    let result := FrameParser.session { role, maxMessageSize := limit } calls
    ∃ queue, result.2.Queued queue ∧
      Decodes (Shows role.side limit) role.side limit none (FrameParser.fed calls)
        (result.1 ++ queue) (result.2.error.map FrameError.violation) ∧
      ∀ events v, Decodes (Shows role.side limit) role.side limit none (FrameParser.fed calls)
        events v → events = result.1 ++ queue ∧ v.isSome = result.2.error.isSome := by
  have hquiet : FrameParser.Quiet { role, maxMessageSize := limit } none := by
    refine ⟨fun v hshows => ?_, fun f _ _ more _ _ heq => ?_⟩
    · generalize hnil : (FrameParser.buffer { role, maxMessageSize := limit }) = s at hshows
      cases hshows with
      | first | length | header | frame => cases hnil
    · cases heq
  have hreading : FrameParser.Reading { role, maxMessageSize := limit } [] [] :=
    ⟨rfl, [], none, ⟨rfl, rfl, rfl⟩, ⟨fun _ => ⟨rfl, rfl⟩, nofun⟩, hquiet, .nil⟩
  obtain ⟨queue, hqueued, hdecodes⟩ := FrameParser.decodes_session hreading calls
  refine ⟨queue, hqueued, hdecodes, fun events v hother => ?_⟩
  obtain ⟨hevents, hsome⟩ := hother.unique hdecodes
  exact ⟨hevents, hsome.trans (Option.isSome_map ..)⟩

/-- An error may come before the header of the frame is complete: the first byte of a frame with a
reserved opcode is enough, although the stream then contains no whole header. -/
theorem error_before_whole_header :
    let calls := [FrameParser.Call.parse [0x83]]
    let result := FrameParser.session { role := .unspecified, maxMessageSize := 0 } calls
    result.2.error.isSome = true ∧
      ∀ events v, Decodes (Rfc6455.ShowsWhole .any 0) .any 0 none (FrameParser.fed calls) events v →
        v = none := by
  refine ⟨by decide, fun events v hdecodes => ?_⟩
  have hlength : ∀ (h : Header) rest, h.bytes ++ rest ≠ [0x83] := by
    intro h rest heq
    have hcount := congrArg length heq
    simp [Header.bytes] at hcount
  generalize hstream : FrameParser.fed [FrameParser.Call.parse [0x83]] = s at hdecodes
  cases hdecodes with
  | waiting => rfl
  | violation shown =>
    cases shown with
    | header key rest key_length evidence =>
      rw [append_assoc] at hstream
      exact absurd hstream.symm (hlength _ _)
    | frame rest evidence =>
      rw [Frame.wire_append, append_assoc] at hstream
      exact absurd hstream.symm (hlength _ _)
  | frame legal accepted decoded =>
    rw [Frame.wire_append, append_assoc] at hstream
    exact absurd hstream.symm (hlength _ _)

end Elio.WebSocket
