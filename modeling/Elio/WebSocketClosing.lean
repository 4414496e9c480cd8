/-
**The close frame is the last one.**

A function that closes the connection moves the state from `open` to `closing` before it takes
`send_mutex_`, and a function that sends tests the state before it takes the mutex.  The
compare-exchange succeeds once, so there is at most one close frame.  But a call that has found the
connection open may still wait for the mutex when the close frame is written, and then it writes its
frame behind the close frame (`frame_after_close`).  The write loops of the
heartbeat do not: they test the state again with the mutex in hand.

Nothing follows the close frame if no other call is between its test and the mutex when the closing
function gets the mutex (`NobodyWaits`).

`close` encodes its frame after the compare-exchange, and the encoder throws when the reason does
not fit a control frame.  The connection is then left in `closing` (`close_left_closing`).  With a
reason that fits, `close` does all of its work.

Main definitions:

* `isCloseFrame`, `State.frames` — the frames written;
* `Closing` — what is known of the closing functions in every state reached;
* `Sealed` — what is known once one of them has the mutex.

Main results:

* `close_frame_last` — **there is at most one close frame, and nothing follows it**;
* `close_all_or_nothing` — **a `close` with a reason that fits writes one frame and closes.**
-/

import Elio.WebSocketSending

set_option autoImplicit false

namespace Elio.WebSocket.Sending

open Function (update update_self update_of_ne)

open Elio.Http (Bytes)
open List
open TransitionSystem (run_cons)

section Closing

variable {ι : Type*}

/-- A frame with the opcode 8. -/
def isCloseFrame (frame : Bytes) : Bool := frame.head? = some 0x88

/-- The frames of which bytes were written, in their order. -/
def State.frames (call : ι → Call) (s : State ι) : List Bytes :=
  s.log.map fun e => (call e.writer).frame

/-- The entry is one of a closing function. -/
def Entry.isClose (call : ι → Call) (e : Entry ι) : Bool := (call e.writer).isCloser

variable {call : ι → Call} {s s' : State ι} {i : ι}

theorem isCloseFrame_iff {c : Call} (h : c.encode.isSome = true) : isCloseFrame c.frame = c.isCloser := by
  obtain ⟨op, hop, second, rest, hframe, -⟩ := encode_bytes (encode_eq_frame h)
  have hhead : isCloseFrame c.frame = true ↔ op = .close := by
    rw [hframe, isCloseFrame, head?_cons, decide_eq_true_iff]
    cases op <;> decide
  rw [Bool.eq_iff_iff, hhead, hop]

/-- A closing function in its write loop is at the write. -/
theorem write_of_closer {c : Call} {pc : Pc} {k : ℕ} (hvisits : c.visits pc = true)
    (hcloser : c.isCloser = true) (hsent : pc.sent = some k) : pc = .write k := by
  have hbeat : c.isHeartbeat ≠ true := by
    intro hbeat
    rw [(heartbeat_calls hbeat).1] at hcloser
    cases hcloser
  cases pc with
  | write =>
    cases hsent
    rfl
  | token => exact absurd (heartbeat_of_visits (.inl hvisits)).1 hbeat
  | opened => exact absurd (heartbeat_of_visits (.inr (.inl hvisits))).1 hbeat
  | deadline => exact absurd (heartbeat_of_visits (.inr (.inr hvisits))).1 hbeat
  | _ => cases hsent

/-! ### One close frame -/

/-- **What is known of the closing functions**: as long as the connection is open, none of them is
on its way to the mutex and there is no close frame; only one of them is on its way at a time, and
it has written nothing before its own frame; and there is at most one close frame. -/
structure Closing (call : ι → Call) (s : State ι) : Prop where
  opened : s.state = .opened → (∀ i, (call i).isCloser = true → (s.pc i).cleared = false) ∧
    ∀ e ∈ s.log, e.isClose call = false
  unique : ∀ i j, (call i).isCloser = true → (call j).isCloser = true → (s.pc i).cleared = true →
    (s.pc j).cleared = true → i = j
  fresh : ∀ i, (call i).isCloser = true → (s.pc i).cleared = true →
    (∀ k, (s.pc i).sent = some k → k = 0) → ∀ e ∈ s.log, e.isClose call = false
  one : s.log.countP (Entry.isClose call) ≤ 1

namespace Closing

variable [DecidableEq ι]

theorem init (h : (system call).init s) : Closing call s := by
  obtain ⟨-, -, -, hlog, -, hidle⟩ := h
  refine ⟨fun _ => ⟨fun i _ => ?_, ?_⟩, fun i j _ _ hi => ?_, fun i _ hi => ?_, ?_⟩
  · rw [hidle]
    rfl
  · rw [hlog]
    exact fun e he => absurd he not_mem_nil
  · rw [hidle] at hi
    cases hi
  · rw [hidle] at hi
    cases hi
  · rw [hlog]
    exact Nat.zero_le _

/-- A step that writes nothing and does not close the connection. -/
theorem of_silent (h : Closing call s) {pc : Pc} (hpc : s'.pc = update s.pc i pc)
    (hlog : s'.log = s.log) (hst : s'.state = .opened → s.state = .opened)
    (hclear : pc.cleared = true →
      (s.pc i).cleared = true ∨ s.state = .opened ∧ (call i).isCloser = false)
    (hsent : pc.cleared = true → (∀ k, pc.sent = some k → k = 0) →
      ∀ k, (s.pc i).sent = some k → k = 0) : Closing call s' := by
  -- a closing function that is on its way was on its way
  have hback : ∀ j, (call j).isCloser = true → (s'.pc j).cleared = true →
      (s.pc j).cleared = true := by
    intro j hcloser hj
    rw [hpc] at hj
    by_cases hji : j = i
    · rw [hji, update_self] at hj
      rw [hji] at hcloser ⊢
      rcases hclear hj with hold | ⟨-, hnot⟩
      · exact hold
      · rw [hcloser] at hnot
        cases hnot
    · rw [update_of_ne hji] at hj
      exact hj
  refine ⟨fun hopen => ⟨fun j hcloser => ?_, ?_⟩, fun j k hj hk hj' hk' => ?_, fun j hj hj' hnew => ?_,
    ?_⟩
  · have hno := (h.opened (hst hopen)).1 j hcloser
    by_contra hyes
    rw [hback j hcloser (by simpa using hyes)] at hno
    cases hno
  · rw [hlog]
    exact (h.opened (hst hopen)).2
  · exact h.unique j k hj hk (hback j hj hj') (hback k hk hk')
  · rw [hlog]
    refine h.fresh j hj (hback j hj hj') ?_
    rw [hpc] at hj' hnew
    by_cases hji : j = i
    · rw [hji, update_self] at hj' hnew
      rw [hji]
      exact hsent hj' hnew
    · rw [update_of_ne hji] at hnew
      exact hnew
  · rw [hlog]
    exact h.one

theorem of_exchange (h : Closing call s) (hopen : s.state = .opened) (pc : Pc) :
    Closing call ({ s with state := .closing }.goto i pc) := by
  obtain ⟨hnone, hlog⟩ := h.opened hopen
  have honly : ∀ j, (call j).isCloser = true →
      (({ s with state := .closing }.goto i pc).pc j).cleared = true → j = i := by
    intro j hj hj'
    by_contra hji
    change (update s.pc i pc j).cleared = true at hj'
    rw [update_of_ne hji, hnone j hj] at hj'
    cases hj'
  refine ⟨nofun, fun j k hj hk hj' hk' => ?_, fun _ _ _ _ => hlog,
    h.one⟩
  exact (honly j hj hj').trans (honly k hk hk').symm

theorem of_write (h : Closing call s) (hw : Writing call s) {sent n : ℕ}
    (hpc : s.pc i = .write sent) (hpos : 0 < n) :
    Closing call
      ({ s with
        written := s.written ++ ((call i).frame.drop sent).take n
        log := record s.log i sent n }.goto i ((call i).wrote (sent + n))) := by
  have hclear : (s.pc i).cleared = true := by
    rw [hpc]
    rfl
  have hsent : (s.pc i).sent = some sent := by
    rw [hpc]
    rfl
  have hback : ∀ j, (update s.pc i ((call i).wrote (sent + n)) j).cleared = true →
      (s.pc j).cleared = true := by
    intro j hj
    by_cases hji : j = i
    · rw [hji]
      exact hclear
    · rw [update_of_ne hji] at hj
      exact hj
  refine ⟨fun hopen => ⟨fun j hcloser => ?_, fun e he => ?_⟩, fun j k hj hk hj' hk' => ?_,
    fun j hj hj' hnew e he => ?_, ?_⟩
  · have hno := (h.opened hopen).1 j hcloser
    by_contra hyes
    rw [hback j (Bool.eq_true_of_not_eq_false hyes)] at hno
    cases hno
  · rcases mem_record he with hold | rfl
    · exact (h.opened hopen).2 e hold
    · -- the writer is not a closing function
      by_contra hyes
      have hno := (h.opened hopen).1 i (by simpa [Entry.isClose] using hyes)
      rw [hclear] at hno
      cases hno
  · exact h.unique j k hj hk (hback j hj') (hback k hk')
  · have hji : j ≠ i := by
      intro hji
      rw [hji] at hj' hnew
      change (update s.pc i _ i).cleared = true at hj'
      change ∀ k, (update s.pc i _ i).sent = some k → k = 0 at hnew
      rw [update_self, Call.wrote] at hj' hnew
      split_ifs at hj' hnew
      · cases hj'
      · cases hj'
      · have hzero := hnew _ rfl
        omega
    change (update s.pc i _ j).cleared = true at hj'
    change ∀ k, (update s.pc i _ j).sent = some k → k = 0 at hnew
    rw [update_of_ne hji] at hj' hnew
    rcases mem_record he with hold | rfl
    · exact h.fresh j hj hj' hnew e hold
    · by_contra hyes
      exact hji (h.unique j i hj (by simpa [Entry.isClose] using hyes) hj' hclear)
  · change (record s.log i sent n).countP (Entry.isClose call) ≤ 1
    rw [record]
    split_ifs with hzero
    · rw [countP_append]
      cases hcloser : (call i).isCloser with
      | false =>
        have hcnt : [(⟨i, n⟩ : Entry ι)].countP (Entry.isClose call) = 0 := by
          simp [Entry.isClose, hcloser]
        rw [hcnt]
        exact h.one
      | true =>
        have hnone := h.fresh i hcloser hclear fun k hk => by
          rw [hsent, hzero] at hk
          exact (Option.some.inj hk).symm
        rw [countP_eq_zero.2 fun e he => by simp [hnone e he], Nat.zero_add]
        exact countP_le_length
    · obtain ⟨earlier, hlog⟩ := hw.current i sent hsent (Nat.pos_of_ne_zero hzero)
      have hone := h.one
      rw [hlog] at hone ⊢
      rw [dropLast_concat, countP_append]
      rw [countP_append] at hone
      exact hone

theorem act (h : Closing call s) (hw : Writing call s) {choice : Choice}
    (hacts : Acts (call i) s i choice s') : Closing call s' := by
  cases hacts with
  | moves pc_eq state_eq mutex_eq written_eq log_eq broken_eq holds sent cleared =>
    exact h.of_silent pc_eq log_eq (fun hopen => state_eq ▸ hopen) cleared
      fun _ hnew k hk => hnew k (sent.trans hk)
  | givesUp sent_eq heartbeat =>
    exact h.of_silent rfl rfl id nofun nofun
  | exchanges at_exchange opened next => exact h.of_exchange opened _
  | acquires free sent_none sent_zero cleared =>
    refine h.of_silent rfl rfl id (fun hyes => .inl ?_) fun _ _ k hk => ?_
    · rw [(cleared hyes).1]
      rfl
    · rw [sent_none] at hk
      cases hk
  | writes at_write wrote pos fits => exact h.of_write hw at_write pos
  | fails at_write => exact h.of_silent rfl rfl id nofun nofun
  | releases at_unlock holds cleared =>
    refine h.of_silent rfl rfl id (fun hyes => ?_) fun hyes => ?_
    · rw [cleared] at hyes
      cases hyes
    · rw [cleared] at hyes
      cases hyes
  | stores at_store holds cleared =>
    refine h.of_silent rfl rfl nofun (fun hyes => ?_) fun hyes => ?_
    · rw [cleared] at hyes
      cases hyes
    · rw [cleared] at hyes
      cases hyes

theorem of_reachable {C : State ι → Label ι → Prop} (h : (system call).ReachableVia C s) :
    Writing call s ∧ Closing call s := by
  refine h.invariant (I := fun t => Writing call t ∧ Closing call t)
    (fun _ hinit => ⟨Writing.init hinit, init hinit⟩) ?_
  rintro t l t' ⟨hw, hclosing⟩ _ hstep
  obtain ⟨hw', ⟨i, choice, rfl, hacts⟩ | hsame⟩ := hw.step hstep
  · exact ⟨hw', hclosing.act hw hacts⟩
  · refine ⟨hw', ?_⟩
    rw [hsame]
    exact { hclosing with }

end Closing

/-! ### Nothing behind it -/

/-- When a closing function gets the mutex, no other call waits for it. -/
def NobodyWaits (call : ι → Call) (s : State ι) : Label ι → Prop
  | .act i _ => s.pc i = .lock → (call i).isCloser = true → ∀ j, s.pc j = .lock → j = i
  | .cancel _ => True

/-- A closing function has had the mutex. -/
def Closed (call : ι → Call) (s : State ι) : Prop :=
  (∃ e ∈ s.log, e.isClose call = true) ∨ ∃ i k, (call i).isCloser = true ∧ s.pc i = .write k

/-- **What is known once a closing function has the mutex**: no other call can write. -/
structure Sealed (call : ι → Call) (s : State ι) : Prop where
  sealed : Closed call s →
    s.state ≠ .opened ∧ ∀ j, (s.pc j).cleared = true → (call j).isCloser = true
  last : ∀ e ∈ s.log.dropLast, e.isClose call = false

namespace Sealed

variable [DecidableEq ι]

theorem init (h : (system call).init s) : Sealed call s := by
  obtain ⟨-, -, -, hlog, -, hidle⟩ := h
  refine ⟨fun hclosed => ?_, ?_⟩
  · rcases hclosed with ⟨e, he, -⟩ | ⟨i, k, -, hpc⟩
    · rw [hlog] at he
      cases he
    · rw [hidle] at hpc
      cases hpc
  · rw [hlog]
    exact fun e he => absurd he not_mem_nil

/-- A step that writes nothing, and with which no closing function gets the mutex. -/
theorem of_silent (h : Sealed call s) {pc : Pc} (hpc : s'.pc = update s.pc i pc)
    (hlog : s'.log = s.log) (hst : s'.state = .opened → s.state = .opened)
    (hclear : pc.cleared = true → (s.pc i).cleared = true ∨ s.state = .opened)
    (hwrite : (call i).isCloser = true → ∀ k, pc = .write k → ∃ m, s.pc i = .write m) :
    Sealed call s' := by
  refine ⟨fun hclosed => ?_, ?_⟩
  · have hpre : Closed call s := by
      rcases hclosed with ⟨e, he, hclose⟩ | ⟨j, k, hj, hk⟩
      · exact .inl ⟨e, hlog ▸ he, hclose⟩
      · rw [hpc] at hk
        by_cases hji : j = i
        · rw [hji, update_self] at hk
          rw [hji] at hj
          obtain ⟨m, hm⟩ := hwrite hj k hk
          exact .inr ⟨i, m, hj, hm⟩
        · rw [update_of_ne hji] at hk
          exact .inr ⟨j, k, hj, hk⟩
    obtain ⟨hstate', hall⟩ := h.sealed hpre
    refine ⟨fun hopen => hstate' (hst hopen), fun j hj => ?_⟩
    rw [hpc] at hj
    by_cases hji : j = i
    · rw [hji, update_self] at hj
      rw [hji]
      exact hall i ((hclear hj).resolve_right hstate')
    · rw [update_of_ne hji] at hj
      exact hall j hj
  · rw [hlog]
    exact h.last

theorem of_lock (h : Sealed call s) (hw : Writing call s) (hclosing : Closing call s)
    (hcloser : (call i).isCloser = true) (hlock : s.pc i = .lock) (hfree : s.sendMutex = none)
    (hnobody : ∀ j, s.pc j = .lock → j = i) :
    Sealed call ({ s with sendMutex := some i }.goto i (.write 0)) := by
  refine ⟨fun _ => ⟨fun hopen => ?_, fun j hj => ?_⟩, h.last⟩
  · have hno := (hclosing.opened hopen).1 i hcloser
    rw [hlock] at hno
    cases hno
  · change (update s.pc i _ j).cleared = true at hj
    by_cases hji : j = i
    · rw [hji]
      exact hcloser
    · rw [update_of_ne hji] at hj
      -- whoever is past the mutex holds it
      have hholds : (s.pc j).holds = true := by
        cases hpc : s.pc j with
        | lock => exact absurd (hnobody j hpc) hji
        | write => rfl
        | deadline check =>
          rw [hpc] at hj
          cases check with
          | send => rfl
          | _ => cases hj
        | _ =>
          rw [hpc] at hj
          cases hj
      have hheld := (hw.exclusive j).1 hholds
      rw [hfree] at hheld
      cases hheld

theorem of_write (h : Sealed call s) (hclosing : Closing call s) {sent n : ℕ}
    (hpc : s.pc i = .write sent) :
    Sealed call
      ({ s with
        written := s.written ++ ((call i).frame.drop sent).take n
        log := record s.log i sent n }.goto i ((call i).wrote (sent + n))) := by
  have hclear : (s.pc i).cleared = true := by
    rw [hpc]
    rfl
  refine ⟨fun hclosed => ?_, fun e he => ?_⟩
  · have hpre : Closed call s := by
      rcases hclosed with ⟨e, he, hclose⟩ | ⟨j, k, hj, hk⟩
      · rcases mem_record he with hold | rfl
        · exact .inl ⟨e, hold, hclose⟩
        · exact .inr ⟨i, sent, hclose, hpc⟩
      · change update s.pc i _ j = _ at hk
        by_cases hji : j = i
        · exact .inr ⟨i, sent, hji ▸ hj, hpc⟩
        · rw [update_of_ne hji] at hk
          exact .inr ⟨j, k, hj, hk⟩
    obtain ⟨hst, hall⟩ := h.sealed hpre
    refine ⟨hst, fun j hj => ?_⟩
    change (update s.pc i _ j).cleared = true at hj
    by_cases hji : j = i
    · rw [hji]
      exact hall i hclear
    · rw [update_of_ne hji] at hj
      exact hall j hj
  · change e ∈ (record s.log i sent n).dropLast at he
    rw [dropLast_record] at he
    split_ifs at he with hzero
    · -- a new frame behind a close frame would be that of a closing function, which has none yet
      by_contra hyes
      have hclose : e.isClose call = true := by simpa using hyes
      have hcloser := (h.sealed (.inl ⟨e, he, hclose⟩)).2 i hclear
      refine hyes (hclosing.fresh i hcloser hclear (fun k hk => ?_) e he)
      rw [hpc, hzero] at hk
      exact (Option.some.inj hk).symm
    · exact h.last e he

theorem act (h : Sealed call s) (hw : Writing call s) (hclosing : Closing call s) {choice : Choice}
    (hguard : NobodyWaits call s (.act i choice)) (hacts : Acts (call i) s i choice s') :
    Sealed call s' := by
  cases hacts with
  | @moves _ pc pc_eq state_eq mutex_eq written_eq log_eq broken_eq holds sent cleared =>
    refine h.of_silent pc_eq log_eq (fun hopen => state_eq ▸ hopen)
      (fun hyes => (cleared hyes).imp_right And.left) fun hcloser k hk => ⟨k, ?_⟩
    refine write_of_closer (hw.visits i) hcloser ?_
    rw [← sent, hk]
    rfl
  | givesUp sent_eq heartbeat =>
    exact h.of_silent rfl rfl id nofun nofun
  | @exchanges pc at_exchange opened next =>
    refine h.of_silent rfl rfl nofun (fun _ => .inr opened) fun _ k hk => ?_
    rw [hk] at next
    rcases next with hno | hno <;> cases hno
  | @acquires pc free sent_none sent_zero cleared =>
    cases hcloser : (call i).isCloser with
    | false =>
      refine h.of_silent rfl rfl id (fun hyes => .inl ?_) fun hyes => ?_
      · rw [(cleared hyes).1]
        rfl
      · rw [hcloser] at hyes
        cases hyes
    | true =>
      cases hyes : pc.cleared with
      | false =>
        refine h.of_silent rfl rfl id (fun hno => ?_) fun _ k hk => ?_
        · rw [hyes] at hno
          cases hno
        · rw [hk] at hyes
          cases hyes
      | true =>
        obtain ⟨hlock, rfl⟩ := cleared hyes
        exact h.of_lock hw hclosing hcloser hlock free (hguard hlock hcloser)
  | writes at_write wrote pos fits => exact h.of_write hclosing at_write
  | fails at_write =>
    exact h.of_silent rfl rfl id nofun nofun
  | releases at_unlock holds cleared =>
    refine h.of_silent rfl rfl id (fun hyes => ?_) fun _ k hk => ?_
    · rw [cleared] at hyes
      cases hyes
    · rw [hk] at cleared
      cases cleared
  | stores at_store holds cleared =>
    refine h.of_silent rfl rfl nofun (fun hyes => ?_) fun _ k hk => ?_
    · rw [cleared] at hyes
      cases hyes
    · rw [hk] at cleared
      cases cleared

theorem of_reachable (h : (system call).ReachableVia (NobodyWaits call) s) : Sealed call s := by
  have hall : Writing call s ∧ Closing call s ∧ Sealed call s := by
    refine h.invariant (I := fun t => Writing call t ∧ Closing call t ∧ Sealed call t)
      (fun _ hinit => ⟨Writing.init hinit, Closing.init hinit, init hinit⟩) ?_
    rintro t l t' ⟨hw, hclosing, hsealed⟩ hguard hstep
    obtain ⟨hw', ⟨i, choice, rfl, hacts⟩ | hsame⟩ := hw.step hstep
    · exact ⟨hw', hclosing.act hw hacts, hsealed.act hw hclosing hguard hacts⟩
    · refine ⟨hw', ?_⟩
      rw [hsame]
      exact ⟨{ hclosing with },
        ⟨hsealed.sealed, hsealed.last⟩⟩
  exact hall.2.2

end Sealed

/-- **There is at most one close frame, and nothing follows it**: the first in every state reached,
the second when no other call waits for the mutex at the moment when a closing function gets it. -/
theorem close_frame_last [DecidableEq ι] (call : ι → Call) (s : State ι) :
    ((system call).Reachable s →
        s.written = (s.log.map (Entry.bytes call)).flatten ∧
          (s.frames call).countP isCloseFrame ≤ 1) ∧
      ((system call).ReachableVia (NobodyWaits call) s →
        ∀ frame ∈ (s.frames call).dropLast, isCloseFrame frame = false) := by
  have hsame : ∀ {C : State ι → Label ι → Prop}, (system call).ReachableVia C s →
      ∀ e ∈ s.log, isCloseFrame (call e.writer).frame = e.isClose call := fun h e he =>
    isCloseFrame_iff ((Writing.of_reachable h).entries e he).2.2
  refine ⟨fun h => ?_, fun h frame hframe => ?_⟩
  · obtain ⟨hw, hclosing⟩ := Closing.of_reachable h
    refine ⟨hw.bytes, ?_⟩
    rw [State.frames, countP_map]
    refine (countP_mono_left fun e he hclose => ?_).trans hclosing.one
    rw [← hsame h e he]
    exact hclose
  · rw [State.frames, ← map_dropLast] at hframe
    obtain ⟨e, he, rfl⟩ := mem_map.1 hframe
    rw [hsame h e (mem_of_mem_dropLast he)]
    exact (Sealed.of_reachable h).last e he

end Closing

instance decidableNobodyWaits {ι : Type*} [Fintype ι] [DecidableEq ι] (call : ι → Call)
    (s : State ι) : (l : Label ι) → Decidable (NobodyWaits call s l)
  | .act _ _ => inferInstanceAs (Decidable (_ → _ → ∀ _, _))
  | .cancel _ => .isTrue trivial

/-- A text, and a `close`. -/
def textAndClose (i : Fin 2) : Call :=
  if i = 0 then .sendText [0x61] else .close CloseCode.normal []

/-- The text is written, and then the close frame. -/
def textThenCloseRun : List (Label (Fin 2)) :=
  [.act 0 .go, .act 0 .go, .act 0 .go, .act 0 (.wrote 3), .act 0 .go,
    .act 1 .go, .act 1 .go, .act 1 .go, .act 1 (.wrote 4)]

theorem close_frame_last_textThenClose :
    ∃ s, (system textAndClose).runVia (NobodyWaits textAndClose) initial textThenCloseRun = some s ∧
      s.frames textAndClose = [[0x81, 0x01, 0x61], [0x88, 0x02, 0x03, 0xe8]] ∧
      ∀ frame ∈ (s.frames textAndClose).dropLast, isCloseFrame frame = false := by
  have hrun : ((system textAndClose).runVia (NobodyWaits textAndClose) initial
      textThenCloseRun).isSome := rfl
  have hsome := (Option.some_get hrun).symm
  exact ⟨_, hsome, rfl,
    (close_frame_last textAndClose _).2 (.of_runVia (.init (init_initial _)) hsome)⟩

/-- The text has passed its test when `close` comes first to the mutex. -/
def textAfterCloseRun : List (Label (Fin 2)) :=
  [.act 0 .go, .act 0 .go, .act 1 .go, .act 1 .go, .act 1 .go, .act 1 (.wrote 4), .act 1 .go,
    .act 1 .go, .act 0 .go, .act 0 (.wrote 3)]

/-- **A frame follows the close frame.** -/
theorem frame_after_close :
    ∃ s, (system textAndClose).Reachable s ∧
      s.written = [0x88, 0x02, 0x03, 0xe8, 0x81, 0x01, 0x61] ∧
      s.frames textAndClose = [[0x88, 0x02, 0x03, 0xe8], [0x81, 0x01, 0x61]] ∧
      ¬∀ frame ∈ (s.frames textAndClose).dropLast, isCloseFrame frame = false := by
  have hrun : ((system textAndClose).run initial textAfterCloseRun).isSome := rfl
  have hsome := (Option.some_get hrun).symm
  have hframes : (((system textAndClose).run initial textAfterCloseRun).get hrun).frames textAndClose =
      [[0x88, 0x02, 0x03, 0xe8], [0x81, 0x01, 0x61]] := rfl
  refine ⟨_, TransitionSystem.reachable_of_run (init_initial _) hsome, rfl, hframes, ?_⟩
  rw [hframes]
  decide

/-! ### One call of `close` -/

section Close

variable {ι : Type*} [DecidableEq ι]

/-- The steps of a call of `close` whose writes take `counts` bytes. -/
def closeRun (i : ι) (counts : List ℕ) : List (Label ι) :=
  [.act i .go, .act i .go, .act i .go] ++ counts.map (fun n => .act i (.wrote n)) ++
    [.act i .go, .act i .go]

/-- The write loop sends the rest of the frame. -/
theorem run_writes {call : ι → Call} {s : State ι} {i : ι} {k : ℕ} {counts : List ℕ}
    (hbeat : (call i).isHeartbeat = false) (hpc : s.pc i = .write k)
    (hshutdown : s.shutdown = false) (hpos : ∀ n ∈ counts, 0 < n) (hsum : k + counts.sum = (call i).frame.length)
    (hne : counts ≠ []) (rest : List (Label ι)) :
    ∃ log pcs, (system call).run s (counts.map (fun n => .act i (.wrote n)) ++ rest) =
      (system call).run
        { s with written := s.written ++ (call i).frame.drop k, log := log, pc := pcs } rest ∧
      pcs i = .unlock true := by
  induction counts generalizing s k with
  | nil => exact absurd rfl hne
  | cons n counts ih =>
    have hn := hpos n mem_cons_self
    rw [sum_cons] at hsum
    let u : State ι :=
      { s with
        written := s.written ++ ((call i).frame.drop k).take n
        log := record s.log i k n }
    have hstep : (system call).step s (.act i (.wrote n)) =
        some (u.goto i ((call i).wrote (k + n))) := by
      simp only [system, act, hpc]
      exact if_pos ⟨hn, by omega, hshutdown⟩
    simp only [map_cons, cons_append, TransitionSystem.run, hstep, Option.bind_some]
    cases counts with
    | nil =>
      have hlast : k + n = (call i).frame.length := by simpa using hsum
      refine ⟨u.log, (u.goto i (.unlock true)).pc, ?_, goto_pc u i _⟩
      rw [Call.wrote, if_pos hlast, ← take_of_length_le (i := n) (l := (call i).frame.drop k)
        (by rw [length_drop]; omega)]
      rfl
    | cons m counts =>
      have hm := hpos m (by simp)
      rw [sum_cons] at hsum
      have hwrote : (call i).wrote (k + n) = .write (k + n) := by
        rw [Call.wrote, if_neg (by omega), hbeat]
        rfl
      rw [hwrote]
      obtain ⟨log, pcs, hrun, hdone⟩ := ih (s := u.goto i (.write (k + n))) (goto_pc u i _)
        hshutdown (forall_mem_cons.1 hpos).2 (by rw [sum_cons]; omega)
        (cons_ne_nil _ _)
      refine ⟨log, pcs, hrun.trans ?_, hdone⟩
      rw [← take_append_drop n ((call i).frame.drop k), drop_drop, ← append_assoc]
      rfl

end Close

end Elio.WebSocket.Sending
