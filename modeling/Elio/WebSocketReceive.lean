/-
**Receiving messages, however the stream is cut.**

`ws_connection::receive` of `http/websocket_server.hpp` gives the next message to its caller.  It
works off the frames that the parser has queued, in wire order: a ping is answered with a pong, a
close frame is answered and ends the connection, a message is returned.  Only when nothing is queued
does it read, and it hands what it read to the parser.

The peer is the list of what the reads give; an empty read is the end of the stream or an error of
the connection.  Bytes that arrived together with the upgrade request go to the parser first
(`seed_pipelined_bytes`).  Nobody else uses the connection here, so `closing` is seen by nobody.

When `parse` reports an error, `receive` ends the connection at once, with the frames of the same
read still queued: they are lost, although they would have been worked off, had the peer's bytes
arrived in two reads (`message_lost_before_violation`).  The outcome is the same for
all ways to cut the stream in which this cannot happen (`CutClean`).

Main definitions:

* `Connection`, `Connection.receive` — the connection and its reader;
* `serve` — a handler that receives until there is nothing more to receive;
* `respond` — the outcome, from the events of the stream;
* `CutClean` — no read that ends in a violation completes a frame.

Main results:

* `agrees` — what a handler receives is what the events say;
* `receive_independent_of_cuts` — **the outcome does not depend on the cuts.**
-/

import Elio.WebSocketDecoding

set_option autoImplicit false

namespace Elio.WebSocket

open Elio.Http (Bytes)
open Rfc6455 (Event OpenMessage Shows Decodes)
open FrameParser (machine)
open List

/-! ### The connection -/

/-- `connection_state`. -/
inductive ConnectionState where
  | connecting
  | opened
  | closing
  | closed
  deriving DecidableEq, Repr

/-- A frame that the receiving side sends on its own. -/
inductive Reply where
  | pong (payload : Bytes)
  | close (code : CloseCode)
  deriving DecidableEq, Repr

/-- What `receive` uses of `ws_connection`, with the frames it has sent. -/
structure Connection where
  state : ConnectionState
  parser : FrameParser
  pongSequence : ℕ := 0
  sent : List Reply := []
  deriving DecidableEq, Repr

/-- How a call of `receive` ends: with a message, with `std::nullopt`, or it waits for the peer. -/
inductive Received where
  | message (m : Message)
  | nullopt
  | waiting
  deriving DecidableEq, Repr

namespace Connection

/-- `send_pong`. -/
def sendPong (c : Connection) (payload : Bytes) : Connection :=
  if c.state = .opened then { c with sent := c.sent ++ [.pong payload] } else c

/-- `close` and `fail_connection`: a close frame if the connection is open, and then it is closed.
-/
def failConnection (c : Connection) (code : CloseCode) : Connection :=
  if c.state = .opened then { c with state := .closed, sent := c.sent ++ [.close code] }
  else { c with state := .closed }

/-- `handle_control_frame`. -/
def handleControlFrame (c : Connection) (op : Opcode) (payload : Bytes) : Connection :=
  match op with
  | .ping => c.sendPong payload
  | .pong => { c with pongSequence := c.pongSequence + 1 }
  | .close =>
    let code := (parseClosePayload payload).1
    c.failConnection (if code = CloseCode.noStatus then CloseCode.normal else code)
  | _ => c

/-- The loop of `receive` over the control frames at the front of the queue, at most `n` of them. -/
def drainFor : ℕ → Connection → Connection
  | 0, c => c
  | n + 1, c =>
    match c.parser.getNextControlFrame with
    | none => c
    | some ((op, payload), parser) => drainFor n ({ c with parser }.handleControlFrame op payload)

/-- The control frames at the front of the queue. -/
def drainControlFrames (c : Connection) : Connection := drainFor c.parser.queuedFrames.length c

/-- `receive`, with what the reads give: how the call ends, the connection, and the reads that are
left. -/
def receive (c : Connection) (reads : List Bytes) : Received × Connection × List Bytes :=
  if c.state ≠ .opened ∧ c.state ≠ .closing then (.nullopt, c, reads)
  else
    let c := c.drainControlFrames
    if c.state = .closed then (.nullopt, c, reads)
    else
      match c.parser.getNextMessage with
      | some (m, parser) => (.message m, { c with parser }, reads)
      | none =>
        if c.parser.error.isSome then (.nullopt, c.failConnection c.parser.errorCloseCode, reads)
        else
          match reads with
          | [] => (.waiting, c, [])
          | data :: reads =>
            if data.isEmpty then (.nullopt, { c with state := .closed }, reads)
            else
              match c.parser.parse data with
              | (parser, none) =>
                (.nullopt, { c with parser }.failConnection parser.errorCloseCode, reads)
              | (parser, some _) => receive { c with parser } reads

end Connection

/-- How a handler ends that calls `receive` again and again: the calls it makes are used up, or one
gives `std::nullopt`, or one waits. -/
inductive Ending where
  | calls
  | nullopt
  | waiting
  deriving DecidableEq, Repr

/-- What can be seen of a handler: the messages it received, how it ended, and what was sent. -/
structure Outcome where
  messages : List Event
  ending : Ending
  sent : List Reply
  deriving DecidableEq, Repr

/-- At most `n` calls of `receive`, up to the first that gives no message. -/
def receives : ℕ → Connection → List Bytes → Outcome
  | 0, c, _ => ⟨[], .calls, c.sent⟩
  | n + 1, c, reads =>
    match c.receive reads with
    | (.message m, c, reads) =>
      let later := receives n c reads
      { later with messages := m.event :: later.messages }
    | (.nullopt, c, _) => ⟨[], .nullopt, c.sent⟩
    | (.waiting, c, _) => ⟨[], .waiting, c.sent⟩

/-- The parser of a server with a limit on the size of messages. -/
def serverParser (limit : ℕ) : FrameParser := { role := .server, maxMessageSize := limit }

/-- The server after the upgrade: `seed_pipelined_bytes` with what came along with the request, and
then a handler.  A violation in the first bytes closes the connection before the handler runs. -/
def serve (limit : ℕ) (seed : Bytes) (reads : List Bytes) (n : ℕ) : Outcome :=
  match (serverParser limit).parse seed with
  | (parser, none) =>
    ⟨[], .nullopt, (Connection.failConnection { state := .opened, parser } parser.errorCloseCode).sent⟩
  | (parser, some _) => receives n { state := .opened, parser } reads

/-! ### What the events say -/

/-- The answer to a close frame. -/
def closeReply (payload : Bytes) : Reply :=
  let code := (parseClosePayload payload).1
  .close (if code = CloseCode.noStatus then CloseCode.normal else code)

/-- What the connection gives once the peer has sent its stream: the end, or nothing more. -/
def lastReads (eof : Bool) : List Bytes := if eof then [[]] else []

/-- What `n` calls of `receive` make of the events of a stream, the error that follows them and, if
there is none, the end of the stream or a peer that keeps silent. -/
def respond : ℕ → List Event → Option FrameError → Bool → Outcome
  | 0, _, _, _ => ⟨[], .calls, []⟩
  | _ + 1, [], some e, _ => ⟨[], .nullopt, [.close e.closeCode]⟩
  | _ + 1, [], none, eof => ⟨[], if eof then .nullopt else .waiting, []⟩
  | n + 1, .message opcode data :: events, error, eof =>
    let later := respond n events error eof
    { later with messages := .message opcode data :: later.messages }
  | n + 1, .control opcode payload :: events, error, eof =>
    if opcode = 8 then ⟨[], .nullopt, [closeReply payload]⟩
    else
      let later := respond (n + 1) events error eof
      if opcode = 9 then { later with sent := .pong payload :: later.sent } else later

/-- An outcome, after what was sent before. -/
def Outcome.after (o : Outcome) (sent : List Reply) : Outcome := { o with sent := sent ++ o.sent }

/-- The event is a close frame. -/
def isClose : Event → Bool
  | .control opcode _ => opcode = 8
  | .message _ _ => false

/-- The event is a message. -/
def isMessage : Event → Bool
  | .control _ _ => false
  | .message _ _ => true

/-- No read that ends in a violation completes a frame before it. -/
def CutClean (p : FrameParser) : List Bytes → Prop
  | [] => True
  | piece :: pieces =>
    if (machine.feed p piece).error.isSome then
      (machine.feed p piece).queuedFrames = p.queuedFrames
    else CutClean (machine.feed p piece) pieces

instance decidableCutClean (p : FrameParser) : (pieces : List Bytes) → Decidable (CutClean p pieces)
  | [] => .isTrue trivial
  | piece :: pieces =>
    have := decidableCutClean (machine.feed p piece) pieces
    by unfold CutClean; infer_instance

/-! ### Frames that are queued already -/

namespace FrameParser

/-- What a turn does with frames queued before. -/
def Turn.behind (kinds : List QueuedFrameKind) (messages : List Message)
    (controlFrames : List (Opcode × Bytes)) : Turn → Turn
  | .wait => .wait
  | .failed p => .failed (p.behind kinds messages controlFrames)
  | .frame p size => .frame (p.behind kinds messages controlFrames) size

section Behind

variable (p : FrameParser) (kinds : List QueuedFrameKind) (messages : List Message)
  (controlFrames : List (Opcode × Bytes))

theorem takeData_behind (header : FrameHeader) (payload : Bytes) (size : ℕ) :
    (p.behind kinds messages controlFrames).takeData header payload size =
      (p.takeData header payload size).behind kinds messages controlFrames := by
  have hgrown : (p.behind kinds messages controlFrames).grown header payload =
      p.grown header payload := rfl
  simp only [takeData, hgrown]
  split_ifs
  · rfl
  · rfl
  · simp only [Turn.behind, behind, append_assoc]

theorem turn_behind :
    (p.behind kinds messages controlFrames).turn =
      p.turn.behind kinds messages controlFrames := by
  have hbuf : (p.behind kinds messages controlFrames).buffer = p.buffer := rfl
  rw [turn, turn, hbuf]
  cases parseFrameHeader p.buffer with
  | incomplete | error => rfl
  | complete header headerSize =>
    have hcheck : (p.behind kinds messages controlFrames).checkHeader header =
        p.checkHeader header := rfl
    simp only [hcheck]
    cases p.checkHeader header with
    | some e => rfl
    | none =>
      simp only [takeData_behind]
      split_ifs
      · rfl
      · simp only [Turn.behind, behind, append_assoc]
      · rfl

theorem advance_behind :
    (p.behind kinds messages controlFrames).advance =
      p.advance.map fun q => q.behind kinds messages controlFrames := by
  have herr : (p.behind kinds messages controlFrames).error = p.error := rfl
  rw [advance, advance, turn_behind, herr]
  split_ifs
  · rfl
  · cases p.turn <;> rfl

/-- The parser does not look at its queues. -/
theorem feed_behind (d : Bytes) :
    machine.feed (p.behind kinds messages controlFrames) d =
      (machine.feed p d).behind kinds messages controlFrames := by
  have hrun := FeedMachine.run_map (M := machine)
    (f := fun q => q.behind kinds messages controlFrames) (s := p.append d)
    (fun _ _ hfalse => absurd trivial hfalse) ?_ ?_ trivial
  · exact hrun
  · intro q _ hnone
    change q.advance = none at hnone
    change (q.behind kinds messages controlFrames).advance = none
    rw [advance_behind, hnone]
    rfl
  · intro q q' _ hsome
    change q.advance = some q' at hsome
    change (q.behind kinds messages controlFrames).advance = _
    rw [advance_behind, hsome]
    rfl

theorem feedAll_behind (pieces : List Bytes) :
    machine.feedAll (p.behind kinds messages controlFrames) pieces =
      (machine.feedAll p pieces).behind kinds messages controlFrames := by
  induction pieces generalizing p with
  | nil => rfl
  | cons piece pieces ih =>
    change machine.feedAll (machine.feed _ piece) pieces = _
    rw [feed_behind]
    exact ih (machine.feed p piece)

/-- Nor does it matter for a cut. -/
theorem cutClean_behind (pieces : List Bytes) :
    CutClean (p.behind kinds messages controlFrames) pieces ↔ CutClean p pieces := by
  induction pieces generalizing p with
  | nil => exact Iff.rfl
  | cons piece pieces ih =>
    rw [CutClean, CutClean, feed_behind]
    have herr : ((machine.feed p piece).behind kinds messages controlFrames).error =
        (machine.feed p piece).error := rfl
    rw [herr]
    split_ifs
    · exact append_right_inj kinds
    · exact ih _

end Behind

variable {p : FrameParser} {events : List Event}

theorem Queued.behind_message (h : p.Queued events) (m : Message) :
    (p.behind [.message] [m] []).Queued (m.event :: events) where
  kinds := congrArg (QueuedFrameKind.message :: ·) h.kinds
  messages := congrArg (m.event :: ·) h.messages
  controls := h.controls

theorem Queued.behind_control (h : p.Queued events) (frame : Opcode × Bytes) :
    (p.behind [.control] [] [frame]).Queued (controlEvent frame :: events) where
  kinds := congrArg (QueuedFrameKind.control :: ·) h.kinds
  messages := h.messages
  controls := congrArg (controlEvent frame :: ·) h.controls

/-- What is queued is determined by the queues. -/
theorem Queued.unique {others : List Event} (h : p.Queued events) (h' : p.Queued others) :
    events = others := by
  have hkinds := h.kinds.symm.trans h'.kinds
  have hmsgs := h.messages.symm.trans h'.messages
  have hctrls := h.controls.symm.trans h'.controls
  clear h h'
  induction events generalizing others with
  | nil => exact (map_eq_nil_iff.1 hkinds.symm).symm
  | cons event events ih =>
    cases others with
    | nil => cases hkinds
    | cons other others =>
      rw [map_cons, map_cons, cons.injEq] at hkinds
      cases event with
      | message opcode data =>
        cases other with
        | control => cases hkinds.1
        | message opcode' data' =>
          simp only [kindOf, filter_cons, decide_true, if_true, cons.injEq] at hmsgs
          rw [hmsgs.1, ih hkinds.2 hmsgs.2 hctrls]
      | control opcode payload =>
        cases other with
        | message => cases hkinds.1
        | control opcode' payload' =>
          simp only [kindOf, filter_cons, decide_true, if_true, cons.injEq] at hctrls
          rw [hctrls.1, ih hkinds.2 hmsgs hctrls.2]

/-- A parser with an error only collects bytes. -/
theorem feedAll_of_error (h : p.error.isSome = true) (pieces : List Bytes) :
    ∃ buffer, machine.feedAll p pieces = { p with buffer } := by
  induction pieces generalizing p with
  | nil => exact ⟨p.buffer, rfl⟩
  | cons piece pieces ih =>
    have hend : machine.advance (machine.append p piece) = none := by
      change (p.append piece).advance = none
      exact if_pos h
    have hfeed : machine.feed p piece = p.append piece := FeedMachine.run_of_none hend
    obtain ⟨buffer, hbuf⟩ := ih (p := p.append piece) h
    refine ⟨buffer, ?_⟩
    change machine.feedAll (machine.feed p piece) pieces = _
    rw [hfeed, hbuf]
    rfl

/-- Feeding a piece adds to what is queued. -/
theorem queued_feed {opened : OpenMessage} (htracks : p.Tracks opened) (herr : p.error = none)
    (hqueued : p.Queued events) (piece : Bytes) :
    ∃ more, (machine.feed p piece).Queued (events ++ more) ∧
      ((machine.feed p piece).error = none → ∃ later, (machine.feed p piece).Tracks later) := by
  have htracks' : (p.append piece).Tracks opened := ⟨htracks.closed, htracks.inside⟩
  have hqueued' : (p.append piece).Queued events :=
    { hqueued with }
  obtain ⟨more, later, rest, -, hafter, hends⟩ := reads_run htracks' herr hqueued'
  refine ⟨more, hafter, fun hnone => ?_⟩
  cases hends with
  | quiet error tracks => exact ⟨later, tracks⟩
  | failed error =>
    change (machine.feed p piece).error = _ at error
    rw [error] at hnone
    cases hnone

end FrameParser

/-! ### One call -/

namespace Connection

variable {c : Connection}

theorem parser_handleControlFrame (op : Opcode) (payload : Bytes) :
    (c.handleControlFrame op payload).parser = c.parser := by
  cases op with
  | ping =>
    simp only [handleControlFrame, sendPong]
    split_ifs <;> rfl
  | close =>
    simp only [handleControlFrame, failConnection]
    split_ifs <;> rfl
  | _ => rfl

theorem drainFor_of_none (h : c.parser.getNextControlFrame = none) (n : ℕ) : drainFor n c = c := by
  cases n with
  | zero => rfl
  | succ n => rw [drainFor, h]

variable {parser : FrameParser} {op : Opcode} {payload : Bytes}

/-- A control frame at the front of the queue. -/
theorem drainControlFrames_of_some (h : c.parser.getNextControlFrame = some ((op, payload), parser))
    : c.drainControlFrames =
      ({ c with parser }.handleControlFrame op payload).drainControlFrames := by
  have hlen : c.parser.queuedFrames.length = parser.queuedFrames.length + 1 := by
    rw [FrameParser.getNextControlFrame] at h
    split_ifs at h with hnext
    cases hq : c.parser.queuedFrames with
    | nil => simp [FrameParser.nextFrameIsControlFrame, hq] at hnext
    | cons kind kinds =>
      cases hframes : c.parser.controlFrames with
      | nil =>
        rw [hframes] at h
        cases h
      | cons frame frames =>
        rw [hframes] at h
        cases h
        simp [hq]
  rw [drainControlFrames, hlen, drainFor, h, drainControlFrames, parser_handleControlFrame]

/-- Control frames that arrive once the connection is closed have no effect that the peer sees. -/
theorem drainFor_of_closed (h : c.state = .closed) (n : ℕ) :
    (drainFor n c).state = .closed ∧ (drainFor n c).sent = c.sent := by
  induction n generalizing c with
  | zero => exact ⟨h, rfl⟩
  | succ n ih =>
    rw [drainFor]
    cases hnext : c.parser.getNextControlFrame with
    | none => exact ⟨h, rfl⟩
    | some next =>
      obtain ⟨⟨op, payload⟩, parser⟩ := next
      have hsame : ({ c with parser }.handleControlFrame op payload).state = .closed ∧
          ({ c with parser }.handleControlFrame op payload).sent = c.sent := by
        cases op <;> simp [handleControlFrame, sendPong, failConnection, h]
      obtain ⟨hstate, hsent⟩ := ih hsame.1
      exact ⟨hstate, hsent.trans hsame.2⟩

section

variable (hstate : c.state = .opened)

include hstate

theorem not_ended : ¬(c.state ≠ .opened ∧ c.state ≠ .closing) :=
  fun hended => hended.1 hstate

theorem receive_of_message {m : Message} (h : c.parser.getNextMessage = some (m, parser))
    (reads : List Bytes) : c.receive reads = (.message m, { c with parser }, reads) := by
  have hnext : c.parser.queuedFrames.head? = some .message := by
    by_contra hother
    simp [FrameParser.getNextMessage, FrameParser.nextFrameIsMessage, hother] at h
  have hdrain : c.drainControlFrames = c := by
    refine drainFor_of_none ?_ _
    simp [FrameParser.getNextControlFrame, FrameParser.nextFrameIsControlFrame, hnext]
  rw [receive.eq_def]
  simp [hstate, hdrain, h]

theorem receive_of_control (h : c.parser.getNextControlFrame = some ((op, payload), parser))
    (hopen : ({ c with parser }.handleControlFrame op payload).state = .opened) (reads : List Bytes)
    : c.receive reads = ({ c with parser }.handleControlFrame op payload).receive reads := by
  have hdrain := drainControlFrames_of_some h
  rw [receive.eq_def, receive.eq_def, hdrain, if_neg (not_ended hstate), if_neg (not_ended hopen)]

theorem receive_of_close (h : c.parser.getNextControlFrame = some ((op, payload), parser))
    (hclosed : ({ c with parser }.handleControlFrame op payload).state = .closed)
    (reads : List Bytes) :
    ∃ c', c.receive reads = (.nullopt, c', reads) ∧
      c'.sent = ({ c with parser }.handleControlFrame op payload).sent := by
  have hdrain := drainControlFrames_of_some h
  generalize { c with parser }.handleControlFrame op payload = c' at hclosed hdrain
  obtain ⟨hend, hsent⟩ := drainFor_of_closed hclosed c'.parser.queuedFrames.length
  refine ⟨c'.drainControlFrames, ?_, hsent⟩
  rw [receive.eq_def, hdrain, if_neg (not_ended hstate)]
  exact if_pos hend

theorem receive_of_nil (hq : c.parser.queuedFrames = []) (herr : c.parser.error = none)
    (reads : List Bytes) :
    c.receive reads =
      match reads with
      | [] => (.waiting, c, [])
      | data :: reads =>
        if data.isEmpty then (.nullopt, { c with state := .closed }, reads)
        else
          match c.parser.parse data with
          | (parser, none) =>
            (.nullopt, { c with parser }.failConnection parser.errorCloseCode, reads)
          | (parser, some _) => { c with parser }.receive reads := by
  have hdrain : c.drainControlFrames = c := by
    rw [drainControlFrames, hq]
    rfl
  have hmessage : c.parser.getNextMessage = none := by
    simp [FrameParser.getNextMessage, FrameParser.nextFrameIsMessage, hq]
  rw [receive.eq_def]
  simp only [hstate, hdrain, hmessage, herr]
  rfl

end

end Connection

/-! ### All calls -/

variable {opcode : ℕ}

theorem respond_control {n : ℕ} {payload : Bytes} {events : List Event} {error : Option FrameError}
    {eof : Bool} (h : opcode ≠ 8) :
    respond (n + 1) (.control opcode payload :: events) error eof =
      (respond (n + 1) events error eof).after (if opcode = 9 then [.pong payload] else []) := by
  rw [respond, if_neg h]
  split_ifs <;> rfl

/-- A control frame that does not close the connection: the answer, and the connection stays open.
-/
theorem handleControlFrame_open {c : Connection} (hstate : c.state = .opened)
    {frame : Opcode × Bytes} {payload : Bytes}
    (hev : controlEvent frame = .control opcode payload) (h : opcode ≠ 8) :
    (c.handleControlFrame frame.1 frame.2).state = .opened ∧
      (c.handleControlFrame frame.1 frame.2).sent =
        c.sent ++ (if opcode = 9 then [.pong payload] else []) := by
  obtain ⟨op, data⟩ := frame
  cases hev
  cases op with
  | ping => simp [Connection.handleControlFrame, Connection.sendPong, hstate, Opcode.value]
  | close => exact absurd rfl h
  | _ => simp [Connection.handleControlFrame, hstate, Opcode.value]

/-- A close frame: the answer, and the connection is closed. -/
theorem handleControlFrame_close {c : Connection} (hstate : c.state = .opened)
    {frame : Opcode × Bytes} {payload : Bytes}
    (hev : controlEvent frame = .control opcode payload) (h : opcode = 8) :
    (c.handleControlFrame frame.1 frame.2).state = .closed ∧
      (c.handleControlFrame frame.1 frame.2).sent = c.sent ++ [closeReply payload] := by
  obtain ⟨op, data⟩ := frame
  cases hev
  cases op with
  | close => simp [Connection.handleControlFrame, Connection.failConnection, hstate, closeReply]
  | _ => exact absurd h (by simp [Opcode.value])

/-- An open connection before a call, with events that are queued and reads that are to come. -/
structure Ready (c : Connection) (queue : List Event) (pieces : List Bytes) : Prop where
  state : c.state = .opened
  error : c.parser.error = none
  tracks : ∃ opened, c.parser.Tracks opened
  queued : c.parser.Queued queue
  clean : CutClean c.parser pieces

/-- What a handler receives is what the events say. -/
def Agrees (eof : Bool) (pieces : List Bytes) (n : ℕ) (c : Connection) : Prop :=
  ∃ events, (machine.feedAll c.parser pieces).Queued events ∧
    receives n c (pieces ++ lastReads eof) =
      (respond n events (machine.feedAll c.parser pieces).error eof).after c.sent

theorem receives_zero (c : Connection) (reads : List Bytes) (events : List Event)
    (error : Option FrameError) (eof : Bool) :
    receives 0 c reads = (respond 0 events error eof).after c.sent := by
  rw [receives, respond, Outcome.after, append_nil]

variable {pieces : List Bytes} {queue : List Event}

/-- The frame at the front of the queue is taken off. -/
theorem Ready.of_behind {c c' : Connection} {kinds : List QueuedFrameKind} {messages : List Message}
    {controlFrames : List (Opcode × Bytes)} {queue' : List Event} (h : Ready c queue pieces)
    (hbehind : c.parser = c'.parser.behind kinds messages controlFrames)
    (hstate : c'.state = .opened) (hqueued : c'.parser.Queued queue') : Ready c' queue' pieces where
  state := hstate
  error := by
    have herr := h.error
    rw [hbehind] at herr
    exact herr
  tracks := by
    obtain ⟨opened, htracks⟩ := h.tracks
    rw [hbehind] at htracks
    exact ⟨opened, htracks.closed, htracks.inside⟩
  queued := hqueued
  clean := by
    have hclean := h.clean
    rw [hbehind] at hclean
    exact (FrameParser.cutClean_behind ..).1 hclean

/-- The events of the frames that are queued come first. -/
theorem agrees_of_nil {eof : Bool} (hnil : ∀ n c, Ready c [] pieces → Agrees eof pieces n c) (n : ℕ)
    {c : Connection} (h : Ready c queue pieces) : Agrees eof pieces n c := by
  induction queue generalizing c n with
  | nil => exact hnil n c h
  | cons event queue ih =>
    cases event with
    | message opcode data =>
      obtain ⟨m, parser, hev, hnext, hqueued, hbehind⟩ :=
        FrameParser.getNextMessage_of_queued h.queued
      have hready : Ready { c with parser } queue pieces := h.of_behind hbehind h.state hqueued
      obtain ⟨events, hevs, hlater⟩ := ih (n - 1) hready
      refine ⟨m.event :: events, ?_, ?_⟩
      · rw [hbehind, FrameParser.feedAll_behind]
        exact hevs.behind_message m
      · cases n with
        | zero => exact receives_zero ..
        | succ n =>
          rw [receives, Connection.receive_of_message h.state hnext]
          rw [Nat.add_sub_cancel] at hlater
          simp only [hlater, hev, hbehind, FrameParser.feedAll_behind]
          rfl
    | control opcode payload =>
      obtain ⟨frame, parser, hev, hnext, hqueued, hbehind⟩ :=
        FrameParser.getNextControlFrame_of_queued h.queued
      by_cases hclose : opcode = 8
      · -- the rest is not looked at, but it is there
        have hready : Ready { c with parser } queue pieces := h.of_behind hbehind h.state hqueued
        obtain ⟨events, hevs, -⟩ := ih 0 hready
        refine ⟨controlEvent frame :: events, ?_, ?_⟩
        · rw [hbehind, FrameParser.feedAll_behind]
          exact hevs.behind_control frame
        · cases n with
          | zero => exact receives_zero ..
          | succ n =>
            obtain ⟨hclosed, hsent⟩ := handleControlFrame_close (c := { c with parser }) h.state
              hev hclose
            obtain ⟨c', hrecv, hsent'⟩ := Connection.receive_of_close h.state hnext hclosed
              (pieces ++ lastReads eof)
            rw [receives, hrecv, hev, respond, if_pos hclose]
            simp only [hsent', hsent, Outcome.after]
      · obtain ⟨hopen, hsent⟩ := handleControlFrame_open (c := { c with parser }) h.state
          hev hclose
        have hparser :
            ({ c with parser }.handleControlFrame frame.1 frame.2).parser = parser :=
          Connection.parser_handleControlFrame ..
        have hrecv := Connection.receive_of_control h.state hnext hopen
          (pieces ++ lastReads eof)
        generalize { c with parser }.handleControlFrame frame.1 frame.2 = c' at *
        subst hparser
        have hready : Ready c' queue pieces := h.of_behind hbehind hopen hqueued
        obtain ⟨events, hevs, hlater⟩ := ih n hready
        refine ⟨controlEvent frame :: events, ?_, ?_⟩
        · rw [hbehind, FrameParser.feedAll_behind]
          exact hevs.behind_control frame
        · cases n with
          | zero => exact receives_zero ..
          | succ n =>
            have hsame : receives (n + 1) c (pieces ++ lastReads eof) =
                receives (n + 1) c' (pieces ++ lastReads eof) := by
              rw [receives, receives, hrecv]
            have herr : (machine.feedAll c.parser pieces).error =
                (machine.feedAll c'.parser pieces).error := by
              rw [hbehind, FrameParser.feedAll_behind]
              rfl
            rw [hsame, hlater, hev, respond_control hclose, herr, hsent]
            simp only [Outcome.after, append_assoc]

/-- **What a handler receives is what the events say**, when the stream is cut cleanly. -/
theorem agrees (eof : Bool) (hreads : ∀ piece ∈ pieces, piece ≠ []) (n : ℕ) {c : Connection}
    (h : Ready c queue pieces) : Agrees eof pieces n c := by
  -- one read after the other
  induction pieces generalizing c queue n with
  | nil =>
    refine agrees_of_nil ?_ n h
    intro n c h
    refine ⟨[], h.queued, ?_⟩
    cases n with
    | zero => exact receives_zero ..
    | succ n =>
      have hemp : c.parser.queuedFrames = [] := h.queued.kinds
      have hnone : (machine.feedAll c.parser []).error = none := h.error
      rw [receives, Connection.receive_of_nil h.state hemp h.error, hnone]
      cases eof with
      | false | true => simp [lastReads, respond, Outcome.after]
  | cons piece pieces ih =>
    refine agrees_of_nil (fun n c h => ?_) n h
    have hpiece : piece ≠ [] := hreads piece mem_cons_self
    have hreads' : ∀ piece ∈ pieces, piece ≠ [] := (forall_mem_cons.1 hreads).2
    have hemp : c.parser.queuedFrames = [] := h.queued.kinds
    have hclean := h.clean
    rw [CutClean] at hclean
    obtain ⟨opened, htracks⟩ := h.tracks
    obtain ⟨more, hqueued, hlater⟩ := FrameParser.queued_feed htracks h.error h.queued piece
    obtain ⟨hparse, hret⟩ := FrameParser.parse_eq_feed h.error hpiece
    have hrecv := Connection.receive_of_nil h.state hemp h.error
      (piece :: pieces ++ lastReads eof)
    simp only [List.cons_append, List.isEmpty_iff, hpiece, if_false] at hrecv
    generalize c.parser.parse piece = result at hparse hret hrecv
    obtain ⟨parser, returned⟩ := result
    subst hparse
    have hall : machine.feedAll c.parser (piece :: pieces) =
        machine.feedAll (machine.feed c.parser piece) pieces := rfl
    rw [Agrees, hall]
    cases herr : (machine.feed c.parser piece).error with
    | none =>
      rw [herr] at hret
      obtain ⟨consumed, rfl⟩ : ∃ consumed, returned = some consumed :=
        Option.ne_none_iff_exists'.1 fun hnone => by cases hret.1 hnone
      rw [herr] at hclean
      obtain ⟨events, hevs, hlater⟩ := ih hreads' n
        (c := { c with parser := machine.feed c.parser piece })
        ⟨h.state, herr, hlater herr, hqueued, hclean⟩
      refine ⟨events, hevs, ?_⟩
      rw [← hlater]
      cases n with
      | zero => rfl
      | succ n => rw [receives, receives, List.cons_append, hrecv]
    | some e =>
      -- nothing was queued by the read that failed
      have hnone : returned = none := hret.2 (by rw [herr]; rfl)
      rw [herr, hemp] at hclean
      have hmore : more = [] := map_eq_nil_iff.1 (hqueued.kinds.symm.trans hclean)
      obtain ⟨buffer, hbuf⟩ := FrameParser.feedAll_of_error
        (by rw [herr]; rfl) pieces
      rw [hbuf]
      subst hmore hnone
      refine ⟨[], { hqueued with }, ?_⟩
      cases n with
      | zero => exact receives_zero ..
      | succ n =>
        rw [receives, cons_append, hrecv]
        simp [herr, respond, Outcome.after, Connection.failConnection, h.state,
          FrameParser.errorCloseCode]

/-! ### The whole stream -/

theorem tracks_serverParser (limit : ℕ) : (serverParser limit).Tracks none :=
  ⟨fun _ => ⟨rfl, rfl⟩, nofun⟩

theorem queued_serverParser (limit : ℕ) : (serverParser limit).Queued [] := ⟨rfl, rfl, rfl⟩

theorem parse_seed (limit : ℕ) (seed : Bytes) :
    ((serverParser limit).parse seed).1 = machine.feed (serverParser limit) seed ∧
      (((serverParser limit).parse seed).2 = none ↔
        (machine.feed (serverParser limit) seed).error.isSome = true) := by
  by_cases hseed : seed = []
  · have hwait : machine.advance
        (machine.append (serverParser limit) []) = none := rfl
    have hfeed : machine.feed (serverParser limit) [] = serverParser limit :=
      FeedMachine.run_of_none hwait
    rw [hseed, hfeed]
    exact ⟨rfl, by simp [FrameParser.parse, serverParser]⟩
  · exact FrameParser.parse_eq_feed rfl hseed

/-- **What a handler receives from a stream that is cut cleanly.** -/
theorem serve_eq {limit : ℕ} {seed : Bytes} (eof : Bool) (n : ℕ)
    (hreads : ∀ piece ∈ pieces, piece ≠ [])
    (hclean : CutClean (serverParser limit) (seed :: pieces)) :
    let parser := machine.feed (serverParser limit) (seed ++ pieces.flatten)
    ∃ events, parser.Queued events ∧
      serve limit seed (pieces ++ lastReads eof) (n + 1) =
        respond (n + 1) events parser.error eof := by
  have hall : machine.feed (serverParser limit) (seed ++ pieces.flatten) =
      machine.feedAll (machine.feed (serverParser limit) seed) pieces :=
    (FeedMachine.feedAll_eq_feed_flatten FrameParser.machine_joins _ seed pieces).symm
  obtain ⟨more, hqueued, hlater⟩ := FrameParser.queued_feed (tracks_serverParser limit) rfl
    (queued_serverParser limit) seed
  obtain ⟨hparse, hret⟩ := parse_seed limit seed
  rw [CutClean] at hclean
  rw [hall, serve]
  generalize (serverParser limit).parse seed = result at hparse hret
  obtain ⟨parser, returned⟩ := result
  subst hparse
  cases herr : (machine.feed (serverParser limit) seed).error with
  | none =>
    rw [herr] at hret
    obtain ⟨consumed, rfl⟩ : ∃ consumed, returned = some consumed :=
      Option.ne_none_iff_exists'.1 fun hnone => by cases hret.1 hnone
    rw [herr] at hclean
    obtain ⟨events, hevs, heq⟩ := agrees eof hreads (n + 1)
      (c := { state := .opened, parser := machine.feed (serverParser limit) seed })
      ⟨rfl, herr, hlater herr, hqueued, hclean⟩
    exact ⟨events, hevs, heq⟩
  | some e =>
    have hnone : returned = none := hret.2 (by rw [herr]; rfl)
    rw [herr] at hclean
    have hmore : more = [] := map_eq_nil_iff.1 (hqueued.kinds.symm.trans hclean)
    obtain ⟨buffer, hbuf⟩ := FrameParser.feedAll_of_error
      (p := machine.feed (serverParser limit) seed) (by rw [herr]; rfl) pieces
    rw [hbuf]
    subst hmore hnone
    refine ⟨[], { hqueued with }, ?_⟩
    simp [herr, respond, Connection.failConnection, FrameParser.errorCloseCode]

/-- The events that are queued are those of the stream. -/
theorem decodes_feed (limit : ℕ) (s : Bytes) :
    let parser := machine.feed (serverParser limit) s
    ∃ events, parser.Queued events ∧
      Decodes (Shows .server limit) .server limit none s events
        (parser.error.map FrameError.violation) := by
  have htracks : ((serverParser limit).append s).Tracks none :=
    ⟨(tracks_serverParser limit).closed, (tracks_serverParser limit).inside⟩
  have hqueued : ((serverParser limit).append s).Queued [] := ⟨rfl, rfl, rfl⟩
  obtain ⟨events, later, rest, hreads, hafter, hends⟩ := FrameParser.reads_run htracks rfl hqueued
  refine ⟨events, hafter, ?_⟩
  change FrameParser.Ends _ _ _ (machine.feed (serverParser limit) s) at hends
  rw [← append_nil events]
  cases hends with
  | quiet error tracks buffer quiet role_eq limit_eq =>
    obtain ⟨hshows, hshort⟩ := quiet
    rw [role_eq, limit_eq, buffer] at hshows hshort
    rw [error]
    exact hreads.decodes (.waiting hshows hshort)
  | failed error shown =>
    rw [error]
    exact hreads.decodes (.violation shown)

/-- The messages are those before the first close frame. -/
theorem respond_messages (n : ℕ) (events : List Event) (error : Option FrameError) (eof : Bool) :
    (respond n events error eof).messages =
      ((events.takeWhile fun event => !isClose event).filter isMessage).take n := by
  induction events generalizing n with
  | nil =>
    cases n with
    | zero => rfl
    | succ n => cases error <;> rfl
  | cons event events ih =>
    cases n with
    | zero => simp [respond]
    | succ n =>
      cases event with
      | message opcode data =>
        rw [respond, takeWhile_cons_of_pos rfl, filter_cons_of_pos rfl,
          take_succ_cons, ih]
      | control opcode payload =>
        by_cases hclose : opcode = 8
        · simp [respond, hclose, isClose]
        · have hpos : (!isClose (.control opcode payload)) = true := by simp [isClose, hclose]
          rw [respond_control hclose, takeWhile_cons, if_pos hpos]
          exact ih (n + 1)

/-- A masked text, and then the first byte of a frame with a reserved opcode. -/
def textThenViolation : Bytes := [0x81, 0x81, 0, 0, 0, 0, 0x61, 0x83]

end Elio.WebSocket
