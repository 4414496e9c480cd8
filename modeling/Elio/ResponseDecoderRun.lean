/-
**The response decoder, byte by byte.**

The calls of `decode` for an input together take one byte after another.  As a machine that is fed
input (`Elio/FeedMachine.lean`), the decoder looks at no byte but the next, so what it does with
some bytes does not depend on the bytes behind them.

A framing line that the decoder accepts is the bytes up to the next line end, without a `'\r'` or
`'\n'` among them.

Main definitions:

* `Decoding`, `Decoding.machine` — the machine.

Main results:

* `Decoding.drain_eq` — `drain` is a run of the machine;
* `Decoding.run_line`, `Decoding.line_of_complete` — how a line is read.
-/

import Elio.FeedMachine
import Elio.ResponseDecoder

set_option autoImplicit false

namespace Elio.Http

open ResponseDecoder
open List

/-- A decoder, the input it has not taken, and the bytes of the body it has handed on. -/
@[ext]
structure Decoding where
  decoder : ResponseDecoder
  input : Bytes
  body : Bytes
  deriving DecidableEq, Repr

namespace Decoding

/-! ### The machine -/

/-- A byte of a body with `remaining` bytes left. -/
def bodyByte (d : ResponseDecoder) (c : UInt8) (input body : Bytes) : Decoding :=
  if d.remaining = 0 then ⟨{ d with state := afterBody d.state }, c :: input, body⟩
  else
    ⟨{ d with
        remaining := d.remaining - 1
        state := if d.remaining - 1 = 0 then afterBody d.state else d.state }, input, body ++ [c]⟩

/-- What the decoder does with the next byte. -/
def byte (d : ResponseDecoder) (c : UInt8) (input body : Bytes) : Decoding :=
  match d.state with
  | .error | .complete => ⟨d, c :: input, body⟩
  | .fixedBody | .chunkBody => bodyByte d c input body
  | .closeBody => ⟨d, input, body ++ [c]⟩
  | .chunkCr =>
    if c ≠ cr then ⟨d.fail "Missing CRLF after chunk data", c :: input, body⟩
    else ⟨{ d with state := .chunkLf }, input, body⟩
  | .chunkLf =>
    if c ≠ lf then ⟨d.fail "Missing CRLF after chunk data", c :: input, body⟩
    else ⟨{ d with state := .chunkSize }, input, body⟩
  | .statusLine | .headers | .chunkSize | .trailers => ⟨d.lineByte c, input, body⟩

/-- A step, if there is a byte and the message has not ended. -/
def advance (s : Decoding) : Option Decoding :=
  match s.input with
  | [] => none
  | c :: input => if s.decoder.ended then none else some (byte s.decoder c input s.body)

/-- More input arrives. -/
def append (s : Decoding) (d : Bytes) : Decoding := { s with input := s.input ++ d }

/-- What is left to do in a state beyond the input. -/
def phase : DecoderState → ℕ
  | .complete | .error => 0
  | .fixedBody | .chunkBody => 2
  | _ => 1

/-- A bound on the steps. -/
def weight (s : Decoding) : ℕ := 2 * s.input.length + phase s.decoder.state

theorem phase_le (state : DecoderState) : phase state ≤ 2 := by cases state <;> decide

variable {s : Decoding}

theorem advance_eq_some {s' : Decoding} (h : s.advance = some s') :
    ∃ c input, s.input = c :: input ∧ s.decoder.ended = false ∧
      s' = byte s.decoder c input s.body := by
  rw [advance] at h
  cases hin : s.input with
  | nil => simp [hin] at h
  | cons c input =>
    simp only [hin] at h
    split_ifs at h with hended
    exact ⟨c, input, rfl, by simpa using hended, (Option.some.inj h).symm⟩

variable {d : ResponseDecoder}

theorem weight_byte_lt (hended : d.ended = false) (c : UInt8)
    (input body : Bytes) : (byte d c input body).weight < weight ⟨d, c :: input, body⟩ := by
  -- a step that takes the byte, whatever the state it leads to
  have htake : ∀ (d' : ResponseDecoder) (b : Bytes), phase d.state ≠ 0 →
      weight ⟨d', input, b⟩ < weight ⟨d, c :: input, body⟩ := by
    intro d' b hphase
    have := phase_le d'.state
    simp only [weight, length_cons]
    omega
  rw [byte]
  cases hst : d.state with
  | statusLine | headers | chunkSize | trailers | closeBody =>
    exact htake _ _ (by rw [hst]; decide)
  | fixedBody | chunkBody =>
    simp only [bodyByte]
    split_ifs with hzero
    · simp [weight, hst, afterBody, phase]
    all_goals exact htake _ _ (by rw [hst]; decide)
  | chunkCr | chunkLf =>
    simp only
    split_ifs
    · simp [weight, fail, hst, phase]
    · exact htake _ _ (by rw [hst]; decide)
  | complete | error => simp [ended, hst] at hended

/-- **The decoder as a machine that is fed bytes.** -/
def machine : FeedMachine Decoding UInt8 where
  advance := advance
  append := append
  weight := weight
  advance_weight := by
    intro s s' h
    obtain ⟨c, input, hinput, hended, rfl⟩ := advance_eq_some h
    have hs : s = ⟨s.decoder, c :: input, s.body⟩ := by rw [← hinput]
    rw [hs]
    exact weight_byte_lt hended c input s.body
  append_nil s := by simp [append]
  append_append s d e := by simp [append]

/-- The decoder looks at the next byte only. -/
theorem byte_append (d : ResponseDecoder) (c : UInt8) (input body e : Bytes) :
    byte d c (input ++ e) body = (byte d c input body).append e := by
  rw [byte, byte]
  cases d.state with
  | fixedBody | chunkBody =>
    simp only [bodyByte]
    split_ifs <;> rfl
  | chunkCr | chunkLf =>
    split_ifs <;> rfl
  | _ => rfl

theorem run_byte (hended : d.ended = false) (c : UInt8) (input body : Bytes) :
    machine.run ⟨d, c :: input, body⟩ = machine.run (byte d c input body) :=
  FeedMachine.run_of_some (show advance ⟨d, c :: input, body⟩ = _ by simp [advance, hended])

/-- **A step leads where the step leads that has more input behind it.** -/
theorem machine_joins : machine.Joins := by
  intro s s' e h
  obtain ⟨c, input, hin, hended, rfl⟩ := advance_eq_some h
  have hs : machine.append s e = ⟨s.decoder, c :: (input ++ e), s.body⟩ := by
    change append s e = _
    rw [append, hin]
    rfl
  rw [hs, run_byte hended, byte_append]
  rfl

/-! ### Runs that end at once -/

theorem run_nil (d : ResponseDecoder) (body : Bytes) :
    machine.run ⟨d, [], body⟩ = ⟨d, [], body⟩ :=
  FeedMachine.run_of_none rfl

theorem run_ended (h : s.decoder.ended = true) : machine.run s = s := by
  refine FeedMachine.run_of_none (show s.advance = none from ?_)
  rw [advance]
  cases s.input with
  | nil => rfl
  | cons c input => simp [h]

theorem run_complete (h : s.decoder.state = .complete) : machine.run s = s :=
  run_ended (by simp [ended, h])

theorem run_error (h : s.decoder.state = .error) : machine.run s = s :=
  run_ended (by simp [ended, h])

theorem ne_error_of_complete (h : (machine.run s).decoder.state = .complete) :
    s.decoder.state ≠ .error := by
  intro herr
  rw [run_error herr, herr] at h
  cases h

/-! ### `drain` is a run -/

/-- The bytes of a body are handed on in one event. -/
theorem run_body {d : ResponseDecoder} (hst : d.state = .fixedBody ∨ d.state = .chunkBody)
    (c : UInt8) (input body : Bytes) :
    machine.run ⟨d, c :: input, body⟩ =
      machine.run
        ⟨{ d with
            remaining := d.remaining - min d.remaining (c :: input).length
            state :=
              if d.remaining - min d.remaining (c :: input).length = 0 then afterBody d.state
              else d.state },
          (c :: input).drop (min d.remaining (c :: input).length),
          body ++ (c :: input).take (min d.remaining (c :: input).length)⟩ := by
  have hended : d.ended = false := by rcases hst with h | h <;> simp [ended, h]
  have hbyte : byte d c input body = bodyByte d c input body := by
    rcases hst with h | h <;> rw [byte, h]
  rw [run_byte hended, hbyte, bodyByte]
  by_cases hzero : d.remaining = 0
  · rw [hzero]
    simp
  · rw [if_neg hzero]
    by_cases hone : d.remaining - 1 = 0
    · -- the last byte of the body
      have hrem : d.remaining = 1 := by omega
      simp [hrem]
    · cases input with
      | nil =>
        have hmin : min d.remaining ([c] : Bytes).length = 1 := by
          rw [length_singleton]
          omega
        rw [hmin]
        simp [hone]
      | cons c' input =>
        -- the bytes behind the first are handed on by the rest of the run
        have ih := run_body (d := { d with remaining := d.remaining - 1 }) hst c' input
          (body ++ [c])
        have hmin : min d.remaining (c :: c' :: input).length =
            min (d.remaining - 1) (c' :: input).length + 1 := by
          simp only [length_cons]
          omega
        rw [if_neg hone, hmin]
        refine ih.trans ?_
        have hsub : d.remaining - (min (d.remaining - 1) (c' :: input).length + 1) =
            d.remaining - 1 - min (d.remaining - 1) (c' :: input).length := by omega
        rw [hsub, append_assoc]
        rfl

theorem run_closeBody (hst : d.state = .closeBody) (input body : Bytes) :
    machine.run ⟨d, input, body⟩ = ⟨d, [], body ++ input⟩ := by
  induction input generalizing body with
  | nil => rw [run_nil, append_nil]
  | cons c input ih =>
    have hbyte : byte d c input body = ⟨d, input, body ++ [c]⟩ := by rw [byte, hst]
    rw [run_byte (by simp [ended, hst]), hbyte, ih, append_assoc]
    rfl

/-- What a call of `decode` has done with its input. -/
structure Decoded (d : ResponseDecoder) (input : Bytes) (used : ℕ)
    (r : ResponseDecoder × DecodeResult) : Prop where
  run : ∀ body, machine.run ⟨d, input, body⟩ =
    machine.run ⟨r.1, input.drop (r.2.consumed - used), body ++ r.2.body⟩
  used_le : used ≤ r.2.consumed
  /-- The last event of the input. -/
  stop : r.2.event ≠ .body → r.2.event ≠ .headersComplete →
    r.2.body = [] ∧ r.2.event = (r.1.atEnd 0).event ∧
      advance ⟨r.1, input.drop (r.2.consumed - used), []⟩ = none
  go : r.2.event = .body ∨ r.2.event = .headersComplete →
    weight ⟨r.1, input.drop (r.2.consumed - used), []⟩ < weight ⟨d, input, []⟩
  headers : r.2.event = .headersComplete → r.2.body = []

variable {input : Bytes}

theorem Decoded.of_stop (used : ℕ) (h : advance ⟨d, input, []⟩ = none) :
    Decoded d input used (d, d.atEnd used) := by
  have hcons : (d.atEnd used).consumed = used := by
    rw [atEnd]
    cases d.state <;> rfl
  have hbody : (d.atEnd used).body = [] := by
    rw [atEnd]
    cases d.state <;> rfl
  have hev : (d.atEnd used).event = (d.atEnd 0).event := by
    rw [atEnd, atEnd]
    cases d.state <;> rfl
  have hlast : (d.atEnd used).event ≠ .body ∧ (d.atEnd used).event ≠ .headersComplete := by
    rw [atEnd]
    cases d.state <;> simp only <;> (try split_ifs) <;> exact ⟨nofun, nofun⟩
  refine ⟨fun body => ?_, hcons.ge, fun _ _ => ⟨hbody, hev, ?_⟩, fun h => ?_, fun _ => hbody⟩
  · rw [hcons, hbody, Nat.sub_self, drop_zero, append_nil]
  · rw [hcons, Nat.sub_self]
    exact h
  · rcases h with h | h
    · exact absurd h hlast.1
    · exact absurd h hlast.2

variable {c : UInt8}

theorem Decoded.cons {d' : ResponseDecoder} {used : ℕ} {r : ResponseDecoder × DecodeResult}
    (hended : d.ended = false) (hbyte : ∀ body, byte d c input body = ⟨d', input, body⟩)
    (h : Decoded d' input (used + 1) r) : Decoded d (c :: input) used r := by
  have hused := h.used_le
  have hdrop : (c :: input).drop (r.2.consumed - used) =
      input.drop (r.2.consumed - (used + 1)) := by
    have : r.2.consumed - used = r.2.consumed - (used + 1) + 1 := by omega
    rw [this, drop_succ_cons]
  refine ⟨fun body => ?_, by omega, fun h1 h2 => ?_, fun hgo => ?_, h.headers⟩
  · rw [run_byte hended, hbyte, hdrop]
    exact h.run body
  · rw [hdrop]
    exact h.stop h1 h2
  · rw [hdrop]
    refine (h.go hgo).trans ?_
    have := weight_byte_lt hended c input []
    rwa [hbyte] at this

theorem Decoded.of_step {d' : ResponseDecoder} {payload : Bytes} {used n : ℕ}
    {event : ResponseEvent} (hev : event = .body ∨ (event = .headersComplete ∧ payload = []))
    (hrun : ∀ body, machine.run ⟨d, c :: input, body⟩ =
    machine.run ⟨d', (c :: input).drop n, body ++ payload⟩)
    (hweight : weight ⟨d', (c :: input).drop n, []⟩ < weight ⟨d, c :: input, []⟩) :
    Decoded d (c :: input) used (d', ⟨event, used + n, payload⟩) := by
  have hsub : used + n - used = n := by omega
  refine ⟨fun body => ?_, Nat.le_add_right _ _, fun h1 h2 => ?_, fun _ => ?_, fun h => ?_⟩
  · simp only [hsub]
    exact hrun body
  · rcases hev with h | h
    · exact absurd h h1
    · exact absurd h.1 h2
  · simp only [hsub]
    exact hweight
  · rcases hev with hev | hev
    · exact absurd (hev.symm.trans h) nofun
    · exact hev.2

theorem decodeBody_decoded
    (hst : d.state = .fixedBody ∨ d.state = .closeBody ∨ d.state = .chunkBody) (c : UInt8)
    (input : Bytes) (used : ℕ) :
    Decoded d (c :: input) used (d.decodeBody (c :: input) used) := by
  rw [decodeBody]
  by_cases hclose : d.state = .closeBody
  · rw [if_pos hclose]
    refine Decoded.of_step (.inl rfl) (fun body => ?_) ?_
    · rw [run_closeBody hclose, drop_length, run_nil]
    · simp [weight]
  · rw [if_neg hclose]
    have hstate' : d.state = .fixedBody ∨ d.state = .chunkBody := by
      rcases hst with h | h | h
      · exact .inl h
      · exact absurd h hclose
      · exact .inr h
    refine Decoded.of_step (.inl rfl) (run_body hstate' c input) ?_
    have hphase : phase d.state = 2 := by rcases hstate' with h | h <;> rw [h] <;> rfl
    have hafter : phase (afterBody d.state) ≤ 1 := by
      rcases hstate' with h | h <;> rw [h] <;> decide
    -- the body ends, or a byte is taken
    simp only [weight, length_drop, hphase]
    by_cases hzero : d.remaining - min d.remaining (c :: input).length = 0
    · rw [if_pos hzero]
      omega
    · rw [if_neg hzero]
      simp only [length_cons] at hzero ⊢
      omega

/-- **What a call of `decode` does.** -/
theorem decodeLoop_decoded (d : ResponseDecoder) (input : Bytes) (used : ℕ) :
    Decoded d input used (d.decodeLoop input used) := by
  induction input generalizing d used with
  | nil => exact Decoded.of_stop used rfl
  | cons c input ih =>
    rw [decodeLoop]
    -- a missing line end after a chunk: the byte is not taken
    have hfail : d.ended = false → (∀ body, byte d c input body =
        ⟨d.fail "Missing CRLF after chunk data", c :: input, body⟩) →
        Decoded d (c :: input) used
          (d.fail "Missing CRLF after chunk data", ⟨.error, used, []⟩) := by
      intro hended hbyte
      refine ⟨fun body => ?_, le_rfl, fun _ _ => ⟨rfl, rfl, ?_⟩, fun h => ?_, fun _ => rfl⟩
      · rw [run_byte hended, hbyte, Nat.sub_self, drop_zero, append_nil]
      · rw [Nat.sub_self]
        rfl
      · rcases h with h | h <;> cases h
    -- a byte of a line
    have hline : d.state = .statusLine ∨ d.state = .headers ∨ d.state = .chunkSize ∨
        d.state = .trailers →
        Decoded d (c :: input) used
          (if d.state = .headers && d.line = [cr] && c = lf && (d.lineByte c).state ≠ .error then
            (d.lineByte c, ⟨.headersComplete, used + 1, []⟩)
          else (d.lineByte c).decodeLoop input (used + 1)) := by
      intro hst
      have hended : d.ended = false := by
        rcases hst with h | h | h | h <;> simp [ended, h]
      have hbyte : ∀ body, byte d c input body = ⟨d.lineByte c, input, body⟩ := by
        intro body
        rcases hst with h | h | h | h <;> rw [byte, h]
      split_ifs
      · refine Decoded.of_step (.inr ⟨rfl, rfl⟩) (fun body => ?_) ?_
        · rw [run_byte hended, hbyte, append_nil]
          rfl
        · have := weight_byte_lt hended c input []
          rwa [hbyte] at this
      · exact Decoded.cons hended hbyte (ih _ _)
    cases hst : d.state with
    | error | complete => exact Decoded.of_stop used (by simp [advance, ended, hst])
    | fixedBody => exact decodeBody_decoded (.inl hst) c input used
    | closeBody => exact decodeBody_decoded (.inr (.inl hst)) c input used
    | chunkBody => exact decodeBody_decoded (.inr (.inr hst)) c input used
    | chunkCr | chunkLf =>
      have hended : d.ended = false := by simp [ended, hst]
      simp only
      split_ifs with hc
      · exact hfail hended fun body => by rw [byte, hst]; exact if_pos hc
      · exact Decoded.cons hended (fun body => by rw [byte, hst]; exact if_neg hc) (ih _ _)
    | statusLine => simpa only [hst] using hline (.inl hst)
    | headers => simpa only [hst] using hline (.inr (.inl hst))
    | chunkSize => simpa only [hst] using hline (.inr (.inr (.inl hst)))
    | trailers => simpa only [hst] using hline (.inr (.inr (.inr hst)))

/-- **The events of an input are a run of the machine.** -/
theorem drainLoop_eq {bound : ℕ} (hbound : weight ⟨d, input, []⟩ < bound) (body : Bytes) :
    drainLoop bound d input body =
      ((machine.run ⟨d, input, body⟩).decoder,
        ((machine.run ⟨d, input, body⟩).decoder.atEnd 0).event,
        (machine.run ⟨d, input, body⟩).body, (machine.run ⟨d, input, body⟩).input) := by
  induction bound generalizing d input body with
  | zero => omega
  | succ bound ih =>
    have hdecoded := decodeLoop_decoded d input 0
    rw [drainLoop, decode]
    rcases hres : d.decodeLoop input 0 with ⟨d', event, consumed, payload⟩
    rw [hres] at hdecoded
    have hrun := hdecoded.run body
    simp only [Nat.sub_zero] at hrun
    -- the last event
    have hstop : event ≠ .body → event ≠ .headersComplete →
        (d', event, body, input.drop consumed) =
          ((machine.run ⟨d, input, body⟩).decoder,
            ((machine.run ⟨d, input, body⟩).decoder.atEnd 0).event,
            (machine.run ⟨d, input, body⟩).body, (machine.run ⟨d, input, body⟩).input) := by
      intro h1 h2
      obtain ⟨hpay, hev, hnone⟩ := hdecoded.stop h1 h2
      simp only [Nat.sub_zero] at hpay hev hnone
      have hend : machine.run ⟨d', input.drop consumed, body ++ payload⟩ =
          ⟨d', input.drop consumed, body ++ payload⟩ := by
        refine FeedMachine.run_of_none (show advance _ = none from ?_)
        rw [advance] at hnone ⊢
        cases hrest : input.drop consumed with
        | nil => rfl
        | cons c rest =>
          simp only [hrest] at hnone ⊢
          split_ifs at hnone ⊢
          rfl
      rw [hrun, hend, hpay, append_nil, hev]
    have hgo : event = .body ∨ event = .headersComplete → ∀ body',
        body' = body ++ payload →
        drainLoop bound d' (input.drop consumed) body' =
          ((machine.run ⟨d, input, body⟩).decoder,
            ((machine.run ⟨d, input, body⟩).decoder.atEnd 0).event,
            (machine.run ⟨d, input, body⟩).body, (machine.run ⟨d, input, body⟩).input) := by
      rintro h body' rfl
      have hlt := hdecoded.go h
      simp only [Nat.sub_zero] at hlt
      rw [ih (by omega), hrun]
    cases event with
    | body => exact hgo (.inl rfl) _ rfl
    | headersComplete =>
      have hpay : payload = [] := hdecoded.headers rfl
      exact hgo (.inr rfl) _ (by rw [hpay, append_nil])
    | needMore | messageComplete | protocolHandoff | error => exact hstop nofun nofun

theorem drain_eq (d : ResponseDecoder) (input : Bytes) :
    d.drain input =
      ((machine.run ⟨d, input, []⟩).decoder, ((machine.run ⟨d, input, []⟩).decoder.atEnd 0).event,
        (machine.run ⟨d, input, []⟩).body, (machine.run ⟨d, input, []⟩).input) := by
  refine drainLoop_eq ?_ []
  have := phase_le d.state
  simp only [weight]
  omega

/-! ### Lines -/

/-- The states in which a line is read. -/
def inLine (d : ResponseDecoder) : Prop :=
  d.state = .statusLine ∨ d.state = .headers ∨ d.state = .chunkSize ∨ d.state = .trailers

theorem inLine.ended (h : inLine d) : d.ended = false := by
  rcases h with h | h | h | h <;> simp [ResponseDecoder.ended, h]

theorem inLine.run (h : inLine d) (c : UInt8) (input body : Bytes) :
    machine.run ⟨d, c :: input, body⟩ = machine.run ⟨d.lineByte c, input, body⟩ := by
  rw [run_byte h.ended]
  rcases h with h | h | h | h <;> rw [byte, h]

theorem getLast?_ne_cr {s : Bytes} (h : Plain s) : s.getLast? ≠ some cr := by
  intro hlast
  exact (h cr (mem_of_getLast? hlast)).1 rfl

/-- A byte that is not a line end is collected, when there is room. -/
theorem lineByte_of_plain (hplain : Plain d.line) (hc : c ≠ cr ∧ c ≠ lf) :
    d.lineByte c = if d.line.length ≥ d.maxHeaderSize then d.failLimit (tooLong d.state)
      else { d with line := d.line ++ [c] } := by
  simp [lineByte, getLast?_ne_cr hplain, hc.1, hc.2]

theorem lineByte_cr (hplain : Plain d.line) :
    d.lineByte cr = { d with line := d.line ++ [cr] } := by
  have hne : cr ≠ lf := by decide
  simp [lineByte, getLast?_ne_cr hplain, hne]

theorem lineByte_lf (hplain : Plain d.line) :
    d.lineByte lf = d.fail "Invalid framing line ending" := by
  simp [lineByte, getLast?_ne_cr hplain]

theorem lineByte_after_cr (d : ResponseDecoder) (line : Bytes) (c : UInt8) :
    { d with line := line ++ [cr] }.lineByte c =
      if c = lf then d.endLine line
      else { d with line := line ++ [cr] }.fail "Invalid framing line ending" := by
  by_cases hc : c = lf
  · simp [lineByte, hc, endLine]
  · simp [lineByte, hc]

/-- **A line without line-end bytes that is not too long is processed.** -/
theorem run_line (hst : inLine d) {line : Bytes}
    (hplain : Plain (d.line ++ line)) (hle : (d.line ++ line).length ≤ d.maxHeaderSize)
    (rest body : Bytes) :
    machine.run ⟨d, line ++ crlf ++ rest, body⟩ =
      machine.run ⟨d.endLine (d.line ++ line), rest, body⟩ := by
  induction line generalizing d with
  | nil =>
    rw [append_nil] at hplain hle ⊢
    change machine.run ⟨d, cr :: lf :: rest, body⟩ = _
    rw [hst.run, lineByte_cr hplain, inLine.run (d := { d with line := d.line ++ [cr] }) hst,
      lineByte_after_cr, if_pos rfl]
  | cons c line ih =>
    have hc : c ≠ cr ∧ c ≠ lf := hplain c (by simp)
    have hacc : Plain d.line := fun x hx => hplain x (mem_append_left _ hx)
    have hroom : ¬ d.line.length ≥ d.maxHeaderSize := by
      rw [length_append, length_cons] at hle
      omega
    have hsplit : d.line ++ c :: line = d.line ++ [c] ++ line := by simp
    rw [hsplit] at hplain hle ⊢
    have hrest := ih (d := { d with line := d.line ++ [c] }) hst hplain hle
    change machine.run ⟨d, c :: (line ++ crlf ++ rest), body⟩ = _
    rw [hst.run, lineByte_of_plain hacc hc, if_neg hroom, hrest]
    rfl

/-- **The line that a run has read when it ends complete.** -/
theorem line_of_complete (hst : inLine d) (hacc : Plain d.line)
    (hlen : d.line.length ≤ d.maxHeaderSize) {body : Bytes}
    (h : (machine.run ⟨d, input, body⟩).decoder.state = .complete) :
    ∃ line rest, input = line ++ crlf ++ rest ∧ Plain (d.line ++ line) ∧
      (d.line ++ line).length ≤ d.maxHeaderSize := by
  -- without a complete line the run does not end complete
  have hstuck : ∀ d' : ResponseDecoder, d'.state = d.state →
      (machine.run ⟨d', [], body⟩).decoder.state ≠ .complete := by
    intro d' hsame hcomp
    rw [run_nil, hsame] at hcomp
    rcases hst with hs | hs | hs | hs <;> rw [hs] at hcomp <;> cases hcomp
  induction input generalizing d with
  | nil => exact absurd h (hstuck d rfl)
  | cons c input ih =>
    rw [hst.run] at h
    by_cases hcr : c = cr
    · subst hcr
      rw [lineByte_cr hacc] at h
      cases input with
      | nil => exact absurd h (hstuck _ rfl)
      | cons c rest =>
        rw [inLine.run (d := { d with line := d.line ++ [cr] }) hst, lineByte_after_cr] at h
        by_cases hlf : c = lf
        · subst hlf
          exact ⟨[], rest, rfl, by rwa [append_nil], by rwa [append_nil]⟩
        · rw [if_neg hlf] at h
          exact absurd rfl (ne_error_of_complete h)
    · by_cases hlf : c = lf
      · rw [hlf, lineByte_lf hacc] at h
        exact absurd rfl (ne_error_of_complete h)
      · rw [lineByte_of_plain hacc ⟨hcr, hlf⟩] at h
        split_ifs at h with hlong
        · exact absurd rfl (ne_error_of_complete h)
        · have hplain : Plain (d.line ++ [c]) :=
            hacc.append (Plain.cons ⟨hcr, hlf⟩ Plain.nil)
          have hlen' : (d.line ++ [c]).length ≤ d.maxHeaderSize := by
            rw [length_append, length_singleton]
            omega
          obtain ⟨line, rest, hin, hline, hle⟩ :=
            ih (d := { d with line := d.line ++ [c] }) hst hplain hlen' h hstuck
          have hsplit : d.line ++ c :: line = d.line ++ [c] ++ line := by simp
          refine ⟨c :: line, rest, ?_, ?_, ?_⟩
          · rw [hin]
            rfl
          · rw [hsplit]
            exact hline
          · rw [hsplit]
            exact hle

/-- A line that a decoder reads from its first byte on. -/
theorem run_first_line (hst : inLine d) (hline : d.line = []) {line : Bytes}
    (hplain : Plain line) (hle : line.length ≤ d.maxHeaderSize) (rest body : Bytes) :
    machine.run ⟨d, line ++ crlf ++ rest, body⟩ = machine.run ⟨d.endLine line, rest, body⟩ := by
  have hnil : d.line ++ line = line := by rw [hline, nil_append]
  have hrun := run_line hst (hnil.symm ▸ hplain) (hnil.symm ▸ hle) rest body
  rw [hrun, hnil]

/-- The first line of an input, when the line has not begun yet. -/
theorem first_line_of_complete (hst : inLine d) (hline : d.line = []) {body : Bytes}
    (h : (machine.run ⟨d, input, body⟩).decoder.state = .complete) :
    ∃ line rest, input = line ++ crlf ++ rest ∧ Plain line ∧ line.length ≤ d.maxHeaderSize ∧
      machine.run ⟨d, input, body⟩ = machine.run ⟨d.endLine line, rest, body⟩ := by
  obtain ⟨line, rest, hin, hplain, hle⟩ := line_of_complete hst (by rw [hline]; exact Plain.nil)
    (by rw [hline]; exact Nat.zero_le _) h
  have hrun := run_line hst hplain hle rest body
  rw [hline] at hplain hle hrun
  exact ⟨line, rest, hin, hplain, hle, hin ▸ hrun⟩

end Decoding

end Elio.Http
