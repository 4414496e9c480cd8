/-
**Sending frames from many coroutines.**

A `ws_connection` of `http/websocket_server.hpp` may be used by many coroutines at once.  Each call
that sends a frame tests the state of the connection, encodes its frame, takes `send_mutex_`, and
writes the frame in a loop, because a write may take a part of it only.  The functions that close
the connection first move the state from `open` to `closing` with a compare-exchange, and the
heartbeat has write loops of its own, which also give up when the token is cancelled, when the
connection is no longer open, or when the time is over.

The parties of the system are operations: one call each, of any number.  Every access to `state_`
and to the token, every acquisition and every release of `send_mutex_`, and every write is a step of
its own.  How much a write takes, whether it fails, how a sleep ends and whether the time is over is
chosen by the label.  `log` and `broken` are not part of the connection: `log` records the frames of
which bytes were written, with how many, and `broken` that a write failed inside a frame.  No step
reads them.

A write loop of the heartbeat that gives up inside a frame releases the mutex like any other, and
the next frame then starts in the middle of the ping (`frame_broken`).  Frames stay
whole as long as a write takes the heartbeat's two bytes together, and a connection on which a write
failed inside a frame takes nothing more (`WritesWhole`).

Main definitions:

* `Acts` — what a step can do;
* `Framed` — complete frames, and at most one incomplete one behind them.

Main results:

* `acts_of_step` — the steps are those of `Acts`;
* `Writing.of_reachable` — one writer at a time, and what it has written is the last entry of the
  log;
* `frames_stay_whole` — **frames stay whole.**
-/

import Elio.TransitionSystem
import Elio.WebSocketReceive

set_option autoImplicit false

namespace Elio.WebSocket.Sending

open Function (update update_self update_of_ne)

open Elio.Http (Bytes)
open List

/-! ### Calls -/

/-- A call on the connection.  The automatic answer to a ping is a `sendPong`. -/
inductive Call where
  | sendText (message : Bytes)
  | sendBinary (data : Bytes)
  | sendPing (payload : Bytes)
  | sendPong (payload : Bytes)
  | close (code : CloseCode) (reason : Bytes)
  | failConnection (code : CloseCode)
  /-- `handle_control_frame` with a close frame. -/
  | receivedClose (payload : Bytes)
  /-- `handle_control_frame` with a pong. -/
  | receivedPong
  /-- `receive` at the end of the stream or after an error of a read. -/
  | readEnded
  /-- `run_heartbeat`, with or without a `ping_timeout`. -/
  | heartbeat (timeout : Bool)
  deriving DecidableEq, Repr

namespace Call

/-- The frame that a call sends; none when it sends none or the encoder throws.  A server does not
mask. -/
def encode : Call → Option Bytes
  | .sendText message => encodeTextFrame message none
  | .sendBinary data => encodeBinaryFrame data none
  | .sendPing payload => encodePingFrame payload none
  | .sendPong payload => encodePongFrame payload none
  | .close code reason => encodeCloseFrame code reason none
  | .failConnection code => encodeCloseFrame code [] none
  | .receivedClose payload =>
    let code := (parseClosePayload payload).1
    encodeCloseFrame (if code = CloseCode.noStatus then CloseCode.normal else code) [] none
  | .receivedPong => none
  | .readEnded => none
  | .heartbeat _ => encodePingFrame [] none

/-- The bytes of the frame. -/
def frame (call : Call) : Bytes := call.encode.getD []

/-- The calls that send a close frame. -/
def isCloser : Call → Bool
  | .close _ _ => true
  | .failConnection _ => true
  | .receivedClose _ => true
  | _ => false

/-- The loop of pings. -/
def isHeartbeat : Call → Bool
  | .heartbeat _ => true
  | _ => false

/-- The heartbeat has a `ping_timeout`. -/
def hasTimeout : Call → Bool
  | .heartbeat timeout => timeout
  | _ => false

end Call

/-! ### Locations -/

/-- Where the heartbeat tests its token, the state and the time: after a `try_lock` that failed,
before a write, and after a ping that was not sent. -/
inductive Check where
  | retry
  | send (sent : ℕ)
  | failed
  deriving DecidableEq, Repr

/-- Program locations of an operation. -/
inductive Pc where
  | idle
  /-- `if (!is_open())` of the functions that send. -/
  | test
  /-- The compare-exchange of the functions that close. -/
  | exchange
  /-- `co_await send_mutex_.lock()`. -/
  | lock
  /-- A write of a loop, with the bytes sent so far. -/
  | write (sent : ℕ)
  /-- The end of the scope of the guard. -/
  | unlock (ok : Bool)
  | storeClosed
  | shutdownSocket
  | countPong
  | done
  /-- `while (is_open())` of the heartbeat. -/
  | loop
  | sleep
  /-- `!is_open()` after the interval. -/
  | interval
  /-- `observed_pongs`. -/
  | observe
  /-- `if (!is_open())` of `send_heartbeat_ping` and `send_heartbeat_ping_until`. -/
  | ping
  | tryLock
  | token (check : Check)
  | opened (check : Check)
  | deadline (check : Check)
  /-- The sleep between two attempts to take the mutex. -/
  | pause
  /-- The sleep until the time for the pong is over. -/
  | wait
  /-- `!is_open()` after that. -/
  | resumed
  /-- The comparison of `pong_sequence_` with `observed_pongs`. -/
  | verdict
  deriving DecidableEq, Repr

/-- Where a call starts. -/
def Call.start : Call → Pc
  | .sendText _ => .test
  | .sendBinary _ => .test
  | .sendPing _ => .test
  | .sendPong _ => .test
  | .close _ _ => .exchange
  | .failConnection _ => .exchange
  | .receivedClose _ => .exchange
  | .receivedPong => .countPong
  | .readEnded => .storeClosed
  | .heartbeat _ => .loop

/-- Where a call goes on after its frame was sent or was not. -/
def Call.returned (call : Call) (ok : Bool) : Pc :=
  match call with
  | .heartbeat false => if ok then .loop else .done
  | .heartbeat true => if ok then .wait else .token .failed
  | call => if call.isCloser then .storeClosed else .done

/-- Where the heartbeat goes on when it gives up at a test. -/
def Call.givenUp (call : Call) : Check → Pc
  | .retry => call.returned false
  | .send _ => .unlock false
  | .failed => .done

/-- Where it goes on when all tests have passed. -/
def Check.passed : Check → Pc
  | .retry => .pause
  | .send sent => .write sent
  | .failed => .storeClosed

/-- Where it goes on when the connection is open: to the test of the time, if there is one. -/
def Call.stillOpen (call : Call) : Check → Pc
  | .failed => Check.passed .failed
  | check => if call.hasTimeout then .deadline check else check.passed

/-- Where a write loop goes on after a write, with the bytes sent so far. -/
def Call.wrote (call : Call) (sent : ℕ) : Pc :=
  if sent = call.frame.length then .unlock true
  else if call.isHeartbeat then .token (.send sent)
  else .write sent

/-! ### The system -/

/-- A frame of which bytes were written, by its writer, with how many. -/
structure Entry (ι : Type*) where
  writer : ι
  sent : ℕ
  deriving DecidableEq, Repr

/-- The connection with all operations. -/
structure State (ι : Type*) where
  state : ConnectionState
  sendMutex : Option ι
  pongSequence : ℕ
  /-- `shutdown_socket` was called. -/
  shutdown : Bool
  written : Bytes
  pc : ι → Pc
  /-- The token of the operation is cancelled. -/
  cancelled : ι → Bool
  observed : ι → ℕ
  log : List (Entry ι)
  broken : Bool

/-- How a step falls out: a write takes bytes or fails, the time is over, a sleep is cut short. -/
inductive Choice where
  | go
  | wrote (n : ℕ)
  | failed
  | expired
  | cancelled
  deriving DecidableEq, Repr

/-- A step of an operation, or its token is cancelled. -/
inductive Label (ι : Type*) where
  | act (i : ι) (choice : Choice)
  | cancel (i : ι)
  deriving DecidableEq, Repr

section System

variable {ι : Type*} [DecidableEq ι]

/-- The operation goes on at a location. -/
def State.goto (s : State ι) (i : ι) (pc : Pc) : State ι :=
  { s with pc := update s.pc i pc }

/-- The record of a write: a new entry, or more bytes of the last one. -/
def record (log : List (Entry ι)) (i : ι) (sent n : ℕ) : List (Entry ι) :=
  if sent = 0 then log ++ [⟨i, n⟩] else log.dropLast ++ [⟨i, sent + n⟩]

/-- A step of an operation. -/
def act (call : Call) (s : State ι) (i : ι) (choice : Choice) : Option (State ι) :=
  match s.pc i, choice with
  | .idle, .go => some (s.goto i call.start)
  | .test, .go =>
    some (s.goto i (if s.state = .opened ∧ call.encode.isSome then .lock else .done))
  | .exchange, .go =>
    if s.state = .opened then
      some ({ s with state := .closing }.goto i (if call.encode.isSome then .lock else .done))
    else
      match call with
      | .close _ _ => some (s.goto i .done)
      | _ => some (s.goto i .storeClosed)
  | .lock, .go =>
    if s.sendMutex = none then some ({ s with sendMutex := some i }.goto i (.write 0)) else none
  | .write sent, .wrote n =>
    if 0 < n ∧ sent + n ≤ call.frame.length ∧ s.shutdown = false then
      some
        ({ s with
          written := s.written ++ (call.frame.drop sent).take n
          log := record s.log i sent n }.goto i (call.wrote (sent + n)))
    else none
  | .write sent, .failed =>
    some ({ s with broken := s.broken || 0 < sent }.goto i (.unlock false))
  | .unlock ok, .go => some ({ s with sendMutex := none }.goto i (call.returned ok))
  | .storeClosed, .go =>
    some ({ s with state := .closed }.goto i (if call.isHeartbeat then .shutdownSocket else .done))
  | .shutdownSocket, .go => some ({ s with shutdown := true }.goto i .done)
  | .countPong, .go => some ({ s with pongSequence := s.pongSequence + 1 }.goto i .done)
  | .loop, .go => some (s.goto i (if s.state = .opened then .sleep else .done))
  | .sleep, .go => some (s.goto i .interval)
  | .sleep, .cancelled => if s.cancelled i then some (s.goto i .done) else none
  | .interval, .go =>
    some (s.goto i (if s.state = .opened then if call.hasTimeout then .observe else .ping else .done))
  | .observe, .go =>
    some ({ s with observed := update s.observed i s.pongSequence }.goto i .ping)
  | .ping, .go => some (s.goto i (if s.state = .opened then .tryLock else call.returned false))
  | .tryLock, .go =>
    if s.sendMutex = none then some ({ s with sendMutex := some i }.goto i (.token (.send 0)))
    else some (s.goto i (.token .retry))
  | .token check, .go =>
    some (s.goto i (if s.cancelled i then call.givenUp check else .opened check))
  | .opened check, .go =>
    some (s.goto i (if s.state = .opened then call.stillOpen check else call.givenUp check))
  | .deadline check, .go => some (s.goto i check.passed)
  | .deadline check, .expired => some (s.goto i (call.givenUp check))
  | .pause, .go => some (s.goto i .tryLock)
  | .pause, .cancelled => if s.cancelled i then some (s.goto i (call.returned false)) else none
  | .wait, .go => some (s.goto i .resumed)
  | .wait, .expired => some (s.goto i .verdict)
  | .wait, .cancelled => if s.cancelled i then some (s.goto i .done) else none
  | .resumed, .go => some (s.goto i (if s.state = .opened then .verdict else .done))
  | .verdict, .go =>
    some (s.goto i (if s.pongSequence = s.observed i then .storeClosed else .loop))
  | _, _ => none

/-- All operations, with their calls, on an open connection. -/
def system (call : ι → Call) : TransitionSystem (State ι) (Label ι) where
  init s :=
    s.state = .opened ∧ s.sendMutex = none ∧ s.written = [] ∧ s.log = [] ∧ s.broken = false ∧
      ∀ i, s.pc i = .idle
  step s
    | .act i choice => act (call i) s i choice
    | .cancel i => some { s with cancelled := update s.cancelled i true }

/-- The state in which everything starts. -/
def initial : State ι where
  state := .opened
  sendMutex := none
  pongSequence := 0
  shutdown := false
  written := []
  pc _ := .idle
  cancelled _ := false
  observed _ := 0
  log := []
  broken := false

end System

/-! ### The frames of a server -/

/-- The frames that the encoders make for a server. -/
def Encoded (frame : Bytes) : Prop := ∃ call : Call, call.encode = some frame

/-- A frame without a mask has at least two bytes, and the second one is below `0x80`. -/
theorem encodeWhole_bytes {op : Opcode} {payload frame : Bytes}
    (h : encodeWhole op payload none = some frame) :
    ∃ second rest, frame = (op.value ||| 0x80) :: second :: rest ∧ second.toNat < 0x80 := by
  simp only [encodeWhole, encodeFrame, Option.isSome_none, Bool.false_eq_true, if_false, if_true,
    UInt8.zero_or, UInt8.or_zero] at h
  split_ifs at h with _ _ hshort hmedium <;> cases h
  · refine ⟨UInt8.ofNat payload.length, payload, rfl, ?_⟩
    rw [UInt8.toNat_ofNat']
    omega
  · exact ⟨126, _, rfl, by decide⟩
  · exact ⟨127, _, rfl, by decide⟩

/-- What a call sends starts with a byte for its opcode and a length. -/
theorem encode_bytes {call : Call} {frame : Bytes} (h : call.encode = some frame) :
    ∃ op : Opcode, (op = .close ↔ call.isCloser = true) ∧
      ∃ second rest, frame = (op.value ||| 0x80) :: second :: rest ∧ second.toNat < 0x80 := by
  cases call with
  | sendText => exact ⟨.text, by simp [Call.isCloser], encodeWhole_bytes h⟩
  | sendBinary => exact ⟨.binary, by simp [Call.isCloser], encodeWhole_bytes h⟩
  | sendPing => exact ⟨.ping, by simp [Call.isCloser], encodeWhole_bytes h⟩
  | sendPong => exact ⟨.pong, by simp [Call.isCloser], encodeWhole_bytes h⟩
  | close => exact ⟨.close, by simp [Call.isCloser], encodeWhole_bytes h⟩
  | failConnection code =>
    have hclose : encodeCloseFrame code [] none = some frame := h
    exact ⟨.close, by simp [Call.isCloser], encodeWhole_bytes hclose⟩
  | receivedClose payload =>
    simp only [Call.encode] at h
    exact ⟨.close, by simp [Call.isCloser], encodeWhole_bytes h⟩
  | receivedPong | readEnded => cases h
  | heartbeat timeout =>
    have hping : encodePingFrame [] none = some frame := h
    exact ⟨.ping, by simp [Call.isCloser], encodeWhole_bytes hping⟩

theorem encode_eq_frame {call : Call} (h : call.encode.isSome = true) :
    call.encode = some call.frame := by
  obtain ⟨frame, hframe⟩ := Option.isSome_iff_exists.1 h
  rw [Call.frame, hframe]
  rfl

theorem frame_pos {call : Call} (h : call.encode.isSome = true) : 0 < call.frame.length := by
  obtain ⟨op, -, second, rest, hbytes, -⟩ := encode_bytes (encode_eq_frame h)
  rw [hbytes]
  exact Nat.succ_pos _

/-! ### What a step can do -/

namespace Pc

/-- The bytes sent so far, at the locations of a write loop. -/
def sent : Pc → Option ℕ
  | .write sent => some sent
  | .token (.send sent) => some sent
  | .opened (.send sent) => some sent
  | .deadline (.send sent) => some sent
  | _ => none

/-- The operation holds the mutex. -/
def holds : Pc → Bool
  | .unlock _ => true
  | pc => pc.sent.isSome

/-- The operation has found the connection open, and nothing but the mutex keeps it from writing. -/
def cleared : Pc → Bool
  | .lock => true
  | .write _ => true
  | .deadline (.send _) => true
  | _ => false

end Pc

/-- The locations that a call can be at. -/
def Call.visits (call : Call) : Pc → Bool
  | .idle => true
  | .done => true
  | .test => !call.isCloser && !call.isHeartbeat
  | .exchange => call.isCloser
  | .lock => !call.isHeartbeat && call.encode.isSome
  | .write sent => call.encode.isSome && sent < call.frame.length
  | .unlock _ => true
  | .storeClosed => true
  | .shutdownSocket => true
  | .countPong => true
  | .token (.send sent) => call.isHeartbeat && sent < call.frame.length
  | .opened (.send sent) => call.isHeartbeat && sent < call.frame.length
  | .deadline (.send sent) => call.isHeartbeat && sent < call.frame.length
  | _ => call.isHeartbeat

section Steps

variable {ι : Type*} [DecidableEq ι]

/-- **What a step can do.** -/
inductive Acts (call : Call) (s : State ι) (i : ι) (choice : Choice) : State ι → Prop
  /-- It goes on, and nothing that a frame depends on changes. -/
  | moves {s' : State ι} {pc : Pc} (pc_eq : s'.pc = update s.pc i pc)
      (state_eq : s'.state = s.state) (mutex_eq : s'.sendMutex = s.sendMutex)
      (written_eq : s'.written = s.written) (log_eq : s'.log = s.log)
      (broken_eq : s'.broken = s.broken) (holds : pc.holds = (s.pc i).holds)
      (sent : pc.sent = (s.pc i).sent)
      (cleared : pc.cleared = true →
        (s.pc i).cleared = true ∨ s.state = .opened ∧ call.isCloser = false) :
      Acts call s i choice s'
  /-- The heartbeat gives up inside its write loop. -/
  | givesUp {sent : ℕ} (sent_eq : (s.pc i).sent = some sent) (heartbeat : call.isHeartbeat = true) :
      Acts call s i choice (s.goto i (.unlock false))
  | exchanges {pc : Pc} (at_exchange : s.pc i = .exchange) (opened : s.state = .opened)
      (next : pc = .lock ∨ pc = .done) :
      Acts call s i choice ({ s with state := .closing }.goto i pc)
  | acquires {pc : Pc} (free : s.sendMutex = none) (sent_none : (s.pc i).sent = none)
      (sent_zero : pc.sent = some 0)
      (cleared : pc.cleared = true → s.pc i = .lock ∧ pc = .write 0) :
      Acts call s i choice ({ s with sendMutex := some i }.goto i pc)
  | writes {sent n : ℕ} (at_write : s.pc i = .write sent) (wrote : choice = .wrote n) (pos : 0 < n)
      (fits : sent + n ≤ call.frame.length) :
      Acts call s i choice
        ({ s with
          written := s.written ++ (call.frame.drop sent).take n
          log := record s.log i sent n }.goto i (call.wrote (sent + n)))
  | fails {sent : ℕ} (at_write : s.pc i = .write sent) :
      Acts call s i choice ({ s with broken := s.broken || 0 < sent }.goto i (.unlock false))
  | releases {ok : Bool} {pc : Pc} (at_unlock : s.pc i = .unlock ok) (holds : pc.holds = false)
      (cleared : pc.cleared = false) :
      Acts call s i choice ({ s with sendMutex := none }.goto i pc)
  | stores {pc : Pc} (at_store : s.pc i = .storeClosed) (holds : pc.holds = false)
      (cleared : pc.cleared = false) :
      Acts call s i choice ({ s with state := .closed }.goto i pc)

variable {pc : Pc}

theorem sent_of_holds (h : pc.holds = false) : pc.sent = none := by
  cases pc with
  | unlock => cases h
  | _ =>
    simp only [Pc.holds, Option.isSome_eq_false_iff, Option.isNone_iff_eq_none] at h
    exact h

theorem holds_of_sent {k : ℕ} (h : pc.sent = some k) : pc.holds = true := by
  by_contra hfree
  rw [sent_of_holds (by simpa using hfree)] at h
  cases h

variable {call : Call} {s s' : State ι} {i : ι} {choice : Choice}

/-- A step that only changes the location. -/
theorem Acts.goto (holds : pc.holds = (s.pc i).holds) (sent : pc.sent = (s.pc i).sent)
    (cleared : pc.cleared = true →
    (s.pc i).cleared = true ∨ s.state = .opened ∧ call.isCloser = false) :
    Acts call s i choice (s.goto i pc) :=
  .moves rfl rfl rfl rfl rfl rfl holds sent cleared

theorem returned_free (call : Call) (ok : Bool) :
    (call.returned ok).holds = false ∧ (call.returned ok).cleared = false ∧
      call.visits (call.returned ok) = true := by
  cases call with
  | heartbeat timeout => cases timeout <;> cases ok <;> decide
  | _ => cases ok <;> exact ⟨rfl, rfl, rfl⟩

theorem heartbeat_calls (h : call.isHeartbeat = true) :
    call.isCloser = false ∧ call.encode.isSome = true := by
  cases call with
  | heartbeat => exact ⟨rfl, rfl⟩
  | _ => cases h

@[simp] theorem goto_pc (s : State ι) (i : ι) (pc : Pc) : (s.goto i pc).pc i = pc :=
  update_self ..

/-- A step to a location of the call. -/
theorem Acts.visiting {t : State ι} (h : Acts call s i choice (t.goto i pc))
    (hvisits : call.visits pc = true) :
    Acts call s i choice (t.goto i pc) ∧ call.visits ((t.goto i pc).pc i) = true := by
  rw [goto_pc]
  exact ⟨h, hvisits⟩

/-- A step outside the write loops that stays outside. -/
theorem acts_of_free {before : Pc} (hpc : s.pc i = before) (hpre : before.holds = false)
    (hafter : pc.holds = false ∧ pc.cleared = false ∧ call.visits pc = true) :
    Acts call s i choice (s.goto i pc) ∧ call.visits ((s.goto i pc).pc i) = true := by
  obtain ⟨hholds, hclear, hvisits⟩ := hafter
  rw [← hpc] at hpre
  refine Acts.visiting (.goto (hholds.trans hpre.symm) ?_ fun h => ?_) hvisits
  · rw [sent_of_holds hholds, sent_of_holds hpre]
  · rw [hclear] at h
    cases h

variable {check : Check}

/-- The tests of the heartbeat, when it gives up. -/
theorem acts_of_givenUp (hheartbeat : call.isHeartbeat = true)
    (hpc : s.pc i = .token check ∨ s.pc i = .opened check ∨ s.pc i = .deadline check) :
    Acts call s i choice (s.goto i (call.givenUp check)) ∧
      call.visits ((s.goto i (call.givenUp check)).pc i) = true := by
  obtain ⟨hsent, hholds⟩ : (s.pc i).sent = check.passed.sent ∧
      (s.pc i).holds = check.passed.holds := by
    rcases hpc with hpc | hpc | hpc <;> rw [hpc] <;> cases check <;> exact ⟨rfl, rfl⟩
  cases check with
  | retry => exact acts_of_free rfl hholds (returned_free call false)
  | send sent => exact Acts.visiting (.givesUp hsent hheartbeat) rfl
  | failed => exact acts_of_free rfl hholds ⟨rfl, rfl, rfl⟩

/-- A location of the heartbeat, inside or outside its write loop. -/
theorem heartbeat_of_visits
    (h : call.visits (.token check) = true ∨ call.visits (.opened check) = true ∨
    call.visits (.deadline check) = true) :
    call.isHeartbeat = true ∧ ∀ sent, check = .send sent → sent < call.frame.length := by
  cases check with
  | send sent =>
    simp only [Call.visits, Bool.and_eq_true, decide_eq_true_iff, or_self] at h
    refine ⟨h.1, fun k hk => ?_⟩
    cases hk
    exact h.2
  | retry | failed => exact ⟨by simpa [Call.visits] using h, nofun⟩

/-- The tests of the heartbeat, when they have passed. -/
theorem visits_passed (hheartbeat : call.isHeartbeat = true)
    (hsent : ∀ sent, check = .send sent → sent < call.frame.length) :
    call.visits check.passed = true := by
  cases check with
  | retry => exact hheartbeat
  | failed => rfl
  | send sent =>
    simp [Check.passed, Call.visits, (heartbeat_calls hheartbeat).2, hsent sent rfl]

/-- The test of the state, when the connection is open. -/
theorem stillOpen_spec (hvisits : call.visits (.opened check) = true) :
    (call.stillOpen check).holds = (Pc.opened check).holds ∧
      (call.stillOpen check).sent = (Pc.opened check).sent ∧
      call.visits (call.stillOpen check) = true := by
  obtain ⟨hheartbeat, hsent⟩ := heartbeat_of_visits (.inr (.inl hvisits))
  cases check with
  | failed => exact ⟨rfl, rfl, rfl⟩
  | _ =>
    simp only [Call.stillOpen]
    split_ifs
    · exact ⟨rfl, rfl, hvisits⟩
    · exact ⟨rfl, rfl, visits_passed hheartbeat hsent⟩

/-- **The steps are those of `Acts`**, and a call stays at its own locations. -/
theorem acts_of_act (hvisits : call.visits (s.pc i) = true)
    (h : act call s i choice = some s') :
    Acts call s i choice s' ∧ call.visits (s'.pc i) = true := by
  unfold act at h
  split at h
  -- idle, and the test of a function that sends
  case h_1 hpc =>
    cases h
    refine acts_of_free hpc rfl ?_
    cases call <;> exact ⟨rfl, rfl, rfl⟩
  case h_2 hpc =>
    cases h
    simp only [hpc, Call.visits, Bool.and_eq_true, Bool.not_eq_true'] at hvisits
    split_ifs with hopen
    · refine Acts.visiting (.goto (by rw [hpc]; rfl) (by rw [hpc]; rfl) fun _ =>
        .inr ⟨hopen.1, hvisits.1⟩) ?_
      simp [Call.visits, hvisits.2, hopen.2]
    · exact acts_of_free hpc rfl ⟨rfl, rfl, rfl⟩
  -- the compare-exchange
  case h_3 hpc =>
    simp only [hpc, Call.visits] at hvisits
    have hheartbeat : call.isHeartbeat = false := by
      by_contra hnot
      rw [(heartbeat_calls (by simpa using hnot)).1] at hvisits
      cases hvisits
    by_cases hopen : s.state = .opened
    · rw [if_pos hopen] at h
      cases h
      refine Acts.visiting (.exchanges hpc hopen ?_) ?_
      · split_ifs
        · exact .inl rfl
        · exact .inr rfl
      · split_ifs with hencode
        · simp [Call.visits, hheartbeat, hencode]
        · rfl
    · rw [if_neg hopen] at h
      split at h <;> cases h <;> exact acts_of_free hpc rfl ⟨rfl, rfl, rfl⟩
  -- the mutex, the write and the release
  case h_4 hpc =>
    simp only [hpc, Call.visits, Bool.and_eq_true] at hvisits
    split_ifs at h with hfree
    cases h
    refine Acts.visiting (.acquires hfree (by rw [hpc]; rfl) rfl fun _ => ⟨hpc, rfl⟩) ?_
    simp [Call.visits, hvisits.2, frame_pos hvisits.2]
  case h_5 sent n hpc =>
    simp only [hpc, Call.visits, Bool.and_eq_true] at hvisits
    split_ifs at h with hwrite
    cases h
    refine Acts.visiting (.writes hpc rfl hwrite.1 hwrite.2.1) ?_
    rw [Call.wrote]
    split_ifs with hall hheartbeat
    · rfl
    · have hmore : sent + n < call.frame.length := by omega
      simp [Call.visits, hheartbeat, hmore]
    · have hmore : sent + n < call.frame.length := by omega
      simp [Call.visits, hvisits.1, hmore]
  case h_6 hpc =>
    cases h
    exact Acts.visiting (.fails hpc) rfl
  case h_7 ok hpc =>
    cases h
    obtain ⟨hholds, hclear, hret⟩ := returned_free call ok
    exact Acts.visiting (.releases hpc hholds hclear) hret
  -- the end of a call
  case h_8 hpc =>
    cases h
    refine Acts.visiting (.stores hpc ?_ ?_) ?_ <;> split_ifs <;> rfl
  case h_9 hpc | h_10 hpc =>
    cases h
    exact Acts.visiting (.moves rfl rfl rfl rfl rfl rfl (by rw [hpc]; rfl) (by rw [hpc]; rfl) nofun) rfl
  -- the heartbeat outside its write loop
  case h_12 hpc | h_22 hpc | h_24 hpc | h_25 hpc =>
    rw [hpc] at hvisits
    cases h
    exact acts_of_free hpc rfl ⟨rfl, rfl, hvisits⟩
  case h_13 hpc | h_26 hpc =>
    split_ifs at h
    cases h
    exact acts_of_free hpc rfl ⟨rfl, rfl, rfl⟩
  case h_11 hpc | h_14 hpc | h_27 hpc | h_28 hpc =>
    rw [hpc] at hvisits
    cases h
    refine acts_of_free hpc rfl ?_
    split_ifs <;> first | exact ⟨rfl, rfl, hvisits⟩ | exact ⟨rfl, rfl, rfl⟩
  case h_15 hpc =>
    rw [hpc] at hvisits
    cases h
    exact Acts.visiting (.moves rfl rfl rfl rfl rfl rfl (by rw [hpc]; rfl) (by rw [hpc]; rfl) nofun)
      hvisits
  case h_16 hpc =>
    rw [hpc] at hvisits
    cases h
    refine acts_of_free hpc rfl ?_
    split_ifs
    · exact ⟨rfl, rfl, hvisits⟩
    · exact returned_free call false
  -- the mutex and the tests of the write loop
  case h_17 hpc =>
    rw [hpc] at hvisits
    have hheartbeat : call.isHeartbeat = true := hvisits
    split_ifs at h with hfree <;> cases h
    · refine Acts.visiting (.acquires hfree (by rw [hpc]; rfl) rfl nofun) ?_
      simp [Call.visits, hheartbeat, frame_pos (heartbeat_calls hheartbeat).2]
    · exact acts_of_free hpc rfl ⟨rfl, rfl, hvisits⟩
  case h_18 check hpc =>
    rw [hpc] at hvisits
    obtain ⟨hheartbeat, hsent⟩ := heartbeat_of_visits (.inl hvisits)
    cases h
    split_ifs
    · exact acts_of_givenUp hheartbeat (.inl hpc)
    · refine Acts.visiting (.goto ?_ ?_ fun h => ?_) ?_
      · rw [hpc]
        cases check <;> rfl
      · rw [hpc]
        cases check <;> rfl
      · cases check <;> cases h
      · cases check <;> exact hvisits
  case h_19 check hpc =>
    rw [hpc] at hvisits
    obtain ⟨hheartbeat, hsent⟩ := heartbeat_of_visits (.inr (.inl hvisits))
    obtain ⟨hholds, hsame, hlater⟩ := stillOpen_spec hvisits
    cases h
    split_ifs with hopen
    · refine Acts.visiting (.goto ?_ ?_ fun _ => .inr ⟨hopen, (heartbeat_calls hheartbeat).1⟩) hlater
      · rw [hpc, hholds]
      · rw [hpc, hsame]
    · exact acts_of_givenUp hheartbeat (.inr (.inl hpc))
  case h_20 check hpc =>
    rw [hpc] at hvisits
    obtain ⟨hheartbeat, hsent⟩ := heartbeat_of_visits (.inr (.inr hvisits))
    cases h
    refine Acts.visiting (.goto ?_ ?_ fun h => ?_) (visits_passed hheartbeat hsent)
    · rw [hpc]
      cases check <;> rfl
    · rw [hpc]
      cases check <;> rfl
    · rw [hpc]
      cases check with
      | send => exact .inl rfl
      | _ => cases h
  case h_21 check hpc =>
    rw [hpc] at hvisits
    obtain ⟨hheartbeat, -⟩ := heartbeat_of_visits (.inr (.inr hvisits))
    cases h
    exact acts_of_givenUp hheartbeat (.inr (.inr hpc))
  case h_23 hpc =>
    split_ifs at h
    cases h
    exact acts_of_free hpc rfl (returned_free call false)
  case h_29 => cases h

end Steps

/-! ### One writer at a time -/

section Entries

variable {ι : Type*} {call : ι → Call} {i : ι}

/-- The bytes of an entry. -/
def Entry.bytes (call : ι → Call) (e : Entry ι) : Bytes := (call e.writer).frame.take e.sent

/-- The frame of an entry is complete. -/
def Entry.Complete (call : ι → Call) (e : Entry ι) : Prop := e.sent = (call e.writer).frame.length

/-- The bytes that an operation has sent are its frame so far. -/
theorem bytes_record {sent n : ℕ} {before : List (Entry ι)}
    (hlast : 0 < sent → ∃ earlier, before = earlier ++ [⟨i, sent⟩]) :
    ((record before i sent n).map (Entry.bytes call)).flatten =
      (before.map (Entry.bytes call)).flatten ++ ((call i).frame.drop sent).take n := by
  rw [record]
  split_ifs with hzero
  · simp [Entry.bytes, hzero]
  · obtain ⟨earlier, rfl⟩ := hlast (Nat.pos_of_ne_zero hzero)
    simp [Entry.bytes, take_add]

theorem mem_record {log : List (Entry ι)} {sent n : ℕ} {e : Entry ι}
    (h : e ∈ record log i sent n) : e ∈ log ∨ e = ⟨i, sent + n⟩ := by
  rw [record] at h
  split_ifs at h with hzero
  · rw [hzero]
    simpa using h
  · rcases mem_append.1 h with hold | hnew
    · exact .inl (mem_of_mem_dropLast hold)
    · exact .inr (mem_singleton.1 hnew)

theorem dropLast_record (log : List (Entry ι)) (i : ι) (sent n : ℕ) :
    (record log i sent n).dropLast = if sent = 0 then log else log.dropLast := by
  rw [record]
  split_ifs <;> exact dropLast_concat

theorem getLast?_record (log : List (Entry ι)) (i : ι) (sent n : ℕ) :
    (record log i sent n).getLast? = some ⟨i, sent + n⟩ := by
  rw [record]
  split_ifs with hzero
  · rw [hzero, Nat.zero_add, getLast?_concat]
  · rw [getLast?_concat]

end Entries

section Invariant

variable {ι : Type*} {call : ι → Call} {s s' : State ι} {i : ι}

/-- **Who writes, and what has been written.** -/
structure Writing (call : ι → Call) (s : State ι) : Prop where
  visits : ∀ i, (call i).visits (s.pc i) = true
  exclusive : ∀ i, (s.pc i).holds = true ↔ s.sendMutex = some i
  bytes : s.written = (s.log.map (Entry.bytes call)).flatten
  entries : ∀ e ∈ s.log, 0 < e.sent ∧ e.sent ≤ (call e.writer).frame.length ∧
    (call e.writer).encode.isSome = true
  current : ∀ i sent, (s.pc i).sent = some sent → 0 < sent → ∃ earlier, s.log = earlier ++ [⟨i, sent⟩]

namespace Writing

theorem eq_of_holds (h : Writing call s) {j : ι} (hi : (s.pc i).holds = true)
    (hj : (s.pc j).holds = true) : j = i := by
  have heq := ((h.exclusive j).1 hj).symm.trans ((h.exclusive i).1 hi)
  exact Option.some.inj heq

variable [DecidableEq ι]

theorem init (h : (system call).init s) : Writing call s := by
  obtain ⟨-, hmut, hwritten, hlog, -, hidle⟩ := h
  refine ⟨fun i => ?_, fun i => ?_, ?_, ?_, fun i sent hsent => ?_⟩
  · rw [hidle]
    rfl
  · rw [hidle, hmut]
    simp [Pc.holds, Pc.sent]
  · rw [hwritten, hlog]
    rfl
  · rw [hlog]
    exact fun e he => absurd he not_mem_nil
  · rw [hidle] at hsent
    cases hsent

section

variable (h : Writing call s)

include h

theorem visits_update {pc : Pc} (hpc : s'.pc = update s.pc i pc)
    (hvisits : (call i).visits (s'.pc i) = true) (j : ι) : (call j).visits (s'.pc j) = true := by
  by_cases hj : j = i
  · rw [hj]
    exact hvisits
  · rw [hpc, update_of_ne hj]
    exact h.visits j

/-- The holder of the mutex stays. -/
theorem exclusive_same {pc : Pc} (hpc : s'.pc = update s.pc i pc)
    (hmut : s'.sendMutex = s.sendMutex) (hholds : pc.holds = (s.pc i).holds) (j : ι) :
    (s'.pc j).holds = true ↔ s'.sendMutex = some j := by
  rw [hmut, ← h.exclusive, hpc]
  by_cases hj : j = i
  · rw [hj, update_self, hholds]
  · rw [update_of_ne hj]

/-- A step that writes nothing. -/
theorem of_silent {pc : Pc} (hpc : s'.pc = update s.pc i pc)
    (hvisits : (call i).visits (s'.pc i) = true) (hwritten : s'.written = s.written)
    (hlog : s'.log = s.log) (hmut : ∀ j, (s'.pc j).holds = true ↔ s'.sendMutex = some j)
    (hsent : ∀ k, pc.sent = some k → 0 < k → (s.pc i).sent = some k) : Writing call s' where
  visits := h.visits_update hpc hvisits
  exclusive := hmut
  bytes := by
    rw [hwritten, hlog]
    exact h.bytes
  entries := by
    rw [hlog]
    exact h.entries
  current j k hk hpos := by
    rw [hlog]
    rw [hpc] at hk
    by_cases hj : j = i
    · rw [hj, update_self] at hk
      rw [hj]
      exact h.current i k (hsent k hk hpos) hpos
    · rw [update_of_ne hj] at hk
      exact h.current j k hk hpos

theorem of_write {sent n : ℕ} (hpc : s.pc i = .write sent) (hpos : 0 < n)
    (hfits : sent + n ≤ (call i).frame.length)
    (hvisits : (call i).visits ((call i).wrote (sent + n)) = true) :
    Writing call
      ({ s with
        written := s.written ++ ((call i).frame.drop sent).take n
        log := record s.log i sent n }.goto i ((call i).wrote (sent + n))) := by
  have hlast : 0 < sent → ∃ earlier, s.log = earlier ++ [⟨i, sent⟩] :=
    h.current i sent (by rw [hpc]; rfl)
  have hsent : ((call i).wrote (sent + n)).sent = some (sent + n) ∨
      ((call i).wrote (sent + n)).sent = none := by
    rw [Call.wrote]
    split_ifs
    · exact .inr rfl
    · exact .inl rfl
    · exact .inl rfl
  have hholds : ((call i).wrote (sent + n)).holds = (s.pc i).holds := by
    rw [hpc, Call.wrote]
    split_ifs <;> rfl
  refine ⟨h.visits_update rfl (by rw [goto_pc]; exact hvisits), h.exclusive_same rfl rfl hholds, ?_,
    fun e he => ?_, fun j k hk hkpos => ?_⟩
  · change _ = ((record s.log i sent n).map (Entry.bytes call)).flatten
    rw [bytes_record hlast, ← h.bytes]
    rfl
  · -- the entry that has grown, or one of the others
    have hencode : (call i).encode.isSome = true := by
      have hat := h.visits i
      simp only [hpc, Call.visits, Bool.and_eq_true] at hat
      exact hat.1
    rcases mem_record he with hold | rfl
    · exact h.entries e hold
    · exact ⟨by simp only []; omega, hfits, hencode⟩
  · change ∃ earlier, record s.log i sent n = _
    change (update s.pc i _ j).sent = _ at hk
    by_cases hj : j = i
    · rw [hj, update_self] at hk
      rw [hj]
      rcases hsent with hsent | hsent
      · rw [hsent, Option.some.injEq] at hk
        rw [← hk, record]
        split_ifs with hzero
        · exact ⟨s.log, by rw [hzero, Nat.zero_add]⟩
        · exact ⟨_, rfl⟩
      · rw [hsent] at hk
        cases hk
    · -- nobody else is inside a frame
      rw [update_of_ne hj] at hk
      exact absurd (h.eq_of_holds (by rw [hpc]; rfl) (holds_of_sent hk)) hj

theorem act {choice : Choice} (hacts : Acts (call i) s i choice s')
    (hvisits : (call i).visits (s'.pc i) = true) : Writing call s' := by
  cases hacts with
  | moves pc_eq state_eq mutex_eq written_eq log_eq broken_eq holds sent cleared =>
    exact h.of_silent pc_eq hvisits written_eq log_eq (h.exclusive_same pc_eq mutex_eq holds)
      fun k hk _ => sent ▸ hk
  | givesUp sent_eq heartbeat =>
    exact h.of_silent rfl hvisits rfl rfl
      (h.exclusive_same rfl rfl (holds_of_sent sent_eq).symm) nofun
  | @exchanges pc at_exchange opened next =>
    have hfree : pc.holds = false := by rcases next with rfl | rfl <;> rfl
    refine h.of_silent rfl hvisits rfl rfl (h.exclusive_same rfl rfl ?_) fun k hk _ => ?_
    · rw [hfree, at_exchange]
      rfl
    · rw [sent_of_holds hfree] at hk
      cases hk
  | acquires free sent_none sent_zero cleared =>
    refine h.of_silent rfl hvisits rfl rfl (fun j => ?_) fun k hk hpos => ?_
    · change (update s.pc i _ j).holds = true ↔ some i = some j
      by_cases hj : j = i
      · rw [hj, update_self]
        exact ⟨fun _ => rfl, fun _ => holds_of_sent sent_zero⟩
      · rw [update_of_ne hj, h.exclusive, free]
        exact ⟨nofun, fun hi => absurd (Option.some.inj hi).symm hj⟩
    · rw [sent_zero, Option.some.injEq] at hk
      omega
  | writes at_write wrote pos fits =>
    rw [goto_pc] at hvisits
    exact h.of_write at_write pos fits hvisits
  | fails at_write =>
    refine h.of_silent rfl hvisits rfl rfl (h.exclusive_same rfl rfl ?_) nofun
    rw [at_write]
    rfl
  | releases at_unlock holds cleared =>
    refine h.of_silent rfl hvisits rfl rfl (fun j => ?_) fun k hk _ => ?_
    · change (update s.pc i _ j).holds = true ↔ none = some j
      by_cases hj : j = i
      · rw [hj, update_self, holds]
        simp
      · rw [update_of_ne hj]
        have hfree : ¬(s.pc j).holds = true := fun hheld =>
          hj (h.eq_of_holds (by rw [at_unlock]; rfl) hheld)
        simp [hfree]
    · rw [sent_of_holds holds] at hk
      cases hk
  | stores at_store holds cleared =>
    refine h.of_silent rfl hvisits rfl rfl (h.exclusive_same rfl rfl ?_) fun k hk _ => ?_
    · rw [holds, at_store]
      rfl
    · rw [sent_of_holds holds] at hk
      cases hk

/-- The rule for steps: an operation acts, or a token is cancelled. -/
theorem step {l : Label ι} (hstep : (system call).step s l = some s') :
    Writing call s' ∧
      ((∃ i choice, l = .act i choice ∧ Acts (call i) s i choice s') ∨
        s' = { s with cancelled := s'.cancelled }) := by
  cases l with
  | act i choice =>
    obtain ⟨hacts, hvisits⟩ := acts_of_act (h.visits i) hstep
    exact ⟨h.act hacts hvisits, .inl ⟨i, choice, rfl, hacts⟩⟩
  | cancel i =>
    cases hstep
    exact ⟨{ h with }, .inr rfl⟩

end

/-- **One writer at a time**, in every state reached. -/
theorem of_reachable {C : State ι → Label ι → Prop} (h : (system call).ReachableVia C s) :
    Writing call s :=
  h.invariant (fun _ => init) fun _ _ _ hs _ hstep => (hs.step hstep).1

end Writing

end Invariant

/-! ### Whole frames -/

/-- A write takes the bytes of a ping of the heartbeat together, and once a write has failed inside
a frame no write takes anything. -/
def WritesWhole {ι : Type*} (call : ι → Call) (s : State ι) : Label ι → Prop
  | .act i (.wrote n) => s.broken = false ∧
      ((call i).isHeartbeat = true → n = (call i).frame.length)
  | _ => True

instance decidableWritesWhole {ι : Type*} (call : ι → Call) (s : State ι) :
    (l : Label ι) → Decidable (WritesWhole call s l)
  | .act _ (.wrote _) => inferInstanceAs (Decidable (_ ∧ (_ → _)))
  | .act _ .go => .isTrue trivial
  | .act _ .failed => .isTrue trivial
  | .act _ .expired => .isTrue trivial
  | .act _ .cancelled => .isTrue trivial
  | .cancel _ => .isTrue trivial

/-- Complete frames, and at most one incomplete one behind them. -/
def Framed (bytes : Bytes) : Prop :=
  ∃ (frames : List Bytes) (part : Bytes), bytes = frames.flatten ++ part ∧
    (∀ frame ∈ frames, Encoded frame) ∧ ∃ frame, Encoded frame ∧ part <+: frame

section Whole

variable {ι : Type*} [DecidableEq ι] {call : ι → Call} {s s' : State ι} {i : ι}

/-- The heartbeat is never inside a frame, every frame but the last is complete, and the last one is
complete or its writer is inside it, unless a write has failed there. -/
structure Whole (call : ι → Call) (s : State ι) : Prop where
  pings : ∀ i sent, (call i).isHeartbeat = true → (s.pc i).sent = some sent → sent = 0
  earlier : ∀ e ∈ s.log.dropLast, e.Complete call
  last : s.broken = false → ∀ e, s.log.getLast? = some e →
    e.Complete call ∨ (s.pc e.writer).sent = some e.sent

namespace Whole

theorem init (h : (system call).init s) : Whole call s := by
  obtain ⟨-, -, -, hlog, -, hidle⟩ := h
  refine ⟨fun i sent _ hsent => ?_, ?_, fun _ e he => ?_⟩
  · rw [hidle] at hsent
    cases hsent
  · rw [hlog]
    exact fun e he => absurd he not_mem_nil
  · rw [hlog] at he
    cases he

/-- A step that writes nothing, and leaves no frame behind. -/
theorem of_silent (h : Whole call s) (hw : Writing call s) {pc : Pc}
    (hpc : s'.pc = update s.pc i pc) (hlog : s'.log = s.log)
    (hbroken : s'.broken = false → s.broken = false)
    (hpings : ∀ k, pc.sent = some k → (call i).isHeartbeat = true → k = 0)
    (hsent : s'.broken = false → ∀ k, (s.pc i).sent = some k → 0 < k → pc.sent = some k) :
    Whole call s' where
  pings j k hj hk := by
    rw [hpc] at hk
    by_cases hji : j = i
    · rw [hji, update_self] at hk
      exact hpings k hk (hji ▸ hj)
    · rw [update_of_ne hji] at hk
      exact h.pings j k hj hk
  earlier := by
    rw [hlog]
    exact h.earlier
  last hnot e he := by
    rw [hlog] at he
    rcases h.last (hbroken hnot) e he with hcomp | hinside
    · exact .inl hcomp
    · refine .inr ?_
      have hpos : 0 < e.sent := (hw.entries e (mem_of_getLast? he)).1
      rw [hpc]
      by_cases hwr : e.writer = i
      · rw [hwr] at hinside
        rw [hwr, update_self]
        exact hsent hnot e.sent hinside hpos
      · rw [update_of_ne hwr]
        exact hinside

theorem of_write (h : Whole call s) (hw : Writing call s) {sent n : ℕ} (hpc : s.pc i = .write sent)
    (hbroken : s.broken = false)
    (hwhole : (call i).isHeartbeat = true → n = (call i).frame.length) :
    Whole call
      ({ s with
        written := s.written ++ ((call i).frame.drop sent).take n
        log := record s.log i sent n }.goto i ((call i).wrote (sent + n))) := by
  have hsent : (s.pc i).sent = some sent := by
    rw [hpc]
    rfl
  refine ⟨fun j k hj hk => ?_, fun e he => ?_, fun _ e he => ?_⟩
  · change (update s.pc i _ j).sent = _ at hk
    by_cases hji : j = i
    · -- a ping is written at once
      rw [hji] at hj
      rw [hji, update_self, Call.wrote, h.pings i sent hj hsent, Nat.zero_add,
        if_pos (hwhole hj)] at hk
      cases hk
    · rw [update_of_ne hji] at hk
      exact h.pings j k hj hk
  · change e ∈ (record s.log i sent n).dropLast at he
    rw [dropLast_record] at he
    split_ifs at he with hzero
    · -- a new frame: the last one is complete, for only `i` is in a write loop
      rcases eq_nil_or_concat s.log with hnil | ⟨before, last, hlast⟩
      · rw [hnil] at he
        cases he
      · have hget : s.log.getLast? = some last := by rw [hlast, concat_eq_append, getLast?_concat]
        rw [hlast, concat_eq_append, mem_append, mem_singleton] at he
        rcases he with hearlier | rfl
        · refine h.earlier e ?_
          rw [hlast, concat_eq_append, dropLast_concat]
          exact hearlier
        · rcases h.last hbroken e hget with hcomp | hinside
          · exact hcomp
          · have hwr : e.writer = i :=
              hw.eq_of_holds (holds_of_sent hsent) (holds_of_sent hinside)
            rw [hwr, hsent, Option.some.injEq] at hinside
            have hpos := (hw.entries e (mem_of_getLast? hget)).1
            omega
    · exact h.earlier e he
  · change (record s.log i sent n).getLast? = some e at he
    rw [getLast?_record, Option.some.injEq] at he
    subst he
    change _ ∨ (update s.pc i _ i).sent = _
    rw [update_self, Call.wrote]
    split_ifs with hall
    · exact .inl hall
    · exact .inr rfl
    · exact .inr rfl

theorem act (h : Whole call s) (hw : Writing call s) {choice : Choice}
    (hguard : WritesWhole call s (.act i choice)) (hacts : Acts (call i) s i choice s') :
    Whole call s' := by
  cases hacts with
  | moves pc_eq state_eq mutex_eq written_eq log_eq broken_eq holds sent cleared =>
    refine h.of_silent hw pc_eq log_eq (fun hnot => broken_eq ▸ hnot) (fun k hk hbeat => ?_)
      fun _ k hk _ => sent.trans hk
    exact h.pings i k hbeat (sent ▸ hk)
  | givesUp sent_eq heartbeat =>
    -- it has sent nothing
    refine h.of_silent hw rfl rfl id nofun fun _ k hk hpos => ?_
    rw [h.pings i k heartbeat hk] at hpos
    exact absurd hpos (Nat.lt_irrefl 0)
  | @exchanges pc at_exchange opened next =>
    have hnone : pc.sent = none := by rcases next with rfl | rfl <;> rfl
    refine h.of_silent hw rfl rfl id (fun k hk _ => ?_) fun _ k hk _ => ?_
    · rw [hnone] at hk
      cases hk
    · rw [at_exchange] at hk
      cases hk
  | acquires free sent_none sent_zero cleared =>
    refine h.of_silent hw rfl rfl id (fun k hk _ => ?_) fun _ k hk _ => ?_
    · rw [sent_zero, Option.some.injEq] at hk
      exact hk.symm
    · rw [sent_none] at hk
      cases hk
  | writes at_write wrote pos fits =>
    rw [wrote] at hguard
    exact h.of_write hw at_write hguard.1 hguard.2
  | @fails sent at_write =>
    refine h.of_silent hw rfl rfl (fun hnot => ?_) nofun fun hnot k hk hpos => ?_
    · exact (Bool.or_eq_false_iff.1 hnot).1
    · -- inside a frame the failure is remembered
      rw [at_write] at hk
      cases hk
      exact absurd (decide_eq_false_iff_not.1 (Bool.or_eq_false_iff.1 hnot).2) (not_not.2 hpos)
  | releases at_pc holds cleared | stores at_pc holds cleared =>
    refine h.of_silent hw rfl rfl id (fun k hk _ => ?_) fun _ k hk _ => ?_
    · rw [sent_of_holds holds] at hk
      cases hk
    · rw [at_pc] at hk
      cases hk

theorem of_reachable (h : (system call).ReachableVia (WritesWhole call) s) : Whole call s := by
  have hboth : Writing call s ∧ Whole call s := by
    refine h.invariant (I := fun t => Writing call t ∧ Whole call t)
      (fun _ hinit => ⟨Writing.init hinit, init hinit⟩) ?_
    rintro t l t' ⟨hw, hwhole⟩ hguard hstep
    obtain ⟨hw', hacts | hsame⟩ := hw.step hstep
    · obtain ⟨i, choice, rfl, hacts⟩ := hacts
      exact ⟨hw', hwhole.act hw hguard hacts⟩
    · rw [hsame]
      exact ⟨{ hw with },
        { hwhole with }⟩
  exact hboth.2

end Whole

end Whole

/-- A heartbeat without a timeout, and the `close` of the server after its handler has ended. -/
def pingAndClose (i : Fin 2) : Call :=
  if i = 0 then .heartbeat false else .close CloseCode.goingAway []

theorem init_initial {ι : Type*} [DecidableEq ι] (call : ι → Call) : (system call).init initial :=
  ⟨rfl, rfl, rfl, rfl, rfl, fun _ => rfl⟩

/-- The heartbeat comes to its first write. -/
def pingRun : List (Label (Fin 2)) := List.replicate 8 (.act 0 .go)

/-- The ping is written, and then the close frame. -/
def pingThenCloseRun : List (Label (Fin 2)) :=
  pingRun ++ [.act 0 (.wrote 2), .act 0 .go, .act 1 .go, .act 1 .go, .act 1 .go, .act 1 (.wrote 3)]

/-- The second byte of whole frames is a length. -/
theorem second_of_framed {first second : UInt8} {rest : Bytes} (h : Framed (first :: second :: rest)) :
    second.toNat < 0x80 := by
  obtain ⟨frames, part, hbytes, henc, frame, ⟨call, hcall⟩, hpart⟩ := h
  cases frames with
  | nil =>
    obtain ⟨op, -, length, more, hframe, hlen⟩ := encode_bytes hcall
    rw [flatten_nil, nil_append] at hbytes
    rw [← hbytes, hframe, cons_prefix_cons, cons_prefix_cons] at hpart
    rw [hpart.2.1]
    exact hlen
  | cons head frames =>
    obtain ⟨call', hcall'⟩ := henc head mem_cons_self
    obtain ⟨op, -, length, more, hframe, hlen⟩ := encode_bytes hcall'
    rw [flatten_cons, hframe] at hbytes
    simp only [cons_append, cons.injEq] at hbytes
    rw [hbytes.2.1]
    exact hlen

/-- One byte of the ping has been written when the handler has ended and the server cancels the
heartbeat: the loop gives up and releases the mutex.  Then the server closes the connection. -/
def brokenRun : List (Label (Fin 2)) :=
  pingRun ++ [.act 0 (.wrote 1), .cancel 0, .act 0 .go, .act 0 .go, .act 1 .go, .act 1 .go, .act 1 .go,
    .act 1 (.wrote 4)]

end Elio.WebSocket.Sending
