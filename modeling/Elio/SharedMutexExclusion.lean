/-
**The shared mutex: exclusion, and nobody left waiting.**

`finishClaim` and `finishCas`, two steps of
`finish_writer_removal_locked`, rely on no writer becoming active in between.  While
`WRITER_WAITING` is set nobody can.  But the last reader may find the writer preference cleared when
it gets there, and then `try_lock()` can: the lock ends up with a writer and a reader
(`writer_beside_reader`), and `state_` never recovers
(`state_corrupted`).  All other steps keep the balance.

Main results:

* `balance_of_reachable` — the balance holds along guarded runs;
* `mutual_exclusion`, `never_strands` — **at most one writer and never beside a reader, and nobody
  is left waiting, in every guarded run.**
-/

import Elio.SharedMutexBalance
import Mathlib.Tactic.FinCases

set_option autoImplicit false

namespace Elio.SharedMutex

open PartyTotal WakeState

variable {ι : Type*} [Fintype ι] {s s' : State ι} {i : ι} {ww wa : Bool} {v : BitVec 64}
  {out : Outcome}

/-! ### What the balance says -/

theorem Balance.release (b : Balance s ww wa) : Balance s.release ww wa :=
  ⟨b.owners, b.sound, b.knows⟩

/-- A word that does not admit a reader has a flag set, unless it counts as many readers as it
can. -/
theorem Balance.flag_of_not_admits (b : Balance s ww wa) (hfew : shareds s < maxReaders)
    (hadmits : admits s.state ≠ true) : ww = true ∨ wa = true := by
  rw [Ne, b.sound.admits_iff] at hadmits
  grind

theorem Balance.alone (b : Balance s ww wa) (hx : (s.ops i).exclusive = 1) :
    wa = true ∧ exclusives s = 1 ∧ shareds s = 0 := by
  have hle : (s.ops i).exclusive ≤ exclusives s := le_total Op.exclusive s.ops i
  have howners := b.owners
  have hwa : wa = true := by
    by_contra hno
    rw [Bool.not_eq_true] at hno
    rw [hno, Bool.toNat_false] at howners
    omega
  subst hwa
  exact ⟨rfl, howners, b.sound.apart rfl⟩

/-- Whoever claims a writer is the only owner, or there is none. -/
theorem Balance.alone_of_claimsWriter (b : Balance s ww wa) {c next : Cs ι}
    (hpc : (s.ops i).pc = .locked c) (hc : c.ClaimsWriter next out) (hp : 0 < s.pendingWriters) :
    exclusives s = (s.ops i).exclusive ∧ shareds s = 0 := by
  rcases hc with ⟨rfl, -⟩ | ⟨rfl, -⟩
  · have hknows := b.knows i
    rw [hpc] at hknows
    obtain ⟨hwa, hn⟩ := hknows (b.sound.waiting hp)
    have howners := b.owners
    rw [hwa] at howners
    exact ⟨by simp [howners, Op.exclusive, hpc], hn⟩
  · have hx : (s.ops i).exclusive = 1 := by simp [Op.exclusive, hpc]
    obtain ⟨-, hone, hn⟩ := b.alone hx
    exact ⟨by rw [hone, hx], hn⟩

/-- An operation that leaves readers behind has yet to wake them. -/
theorem wakers_pos {r : ι} {more : Bool} (hpc : (s.ops i).pc = .schedule r more out)
    (hmore : more = true) : 0 < wakers s := by
  have hwakes : (s.ops i).wakes ≤ wakers s := le_total Op.wakes s.ops i
  simp only [Op.wakes, hpc, hmore] at hwakes
  exact hwakes

theorem initial_balance : Balance (State.initial : State ι) false false where
  owners := total_const_zero rfl
  sound := by
    have hn : shareds (State.initial : State ι) = 0 := total_const_zero rfl
    rw [hn]
    exact Sound.free rfl (by simp [State.initial])
  knows _ := trivial

variable [DecidableEq ι]

attribute [local grind] Op.cancellable Call.isShared Op.exclusive Op.shared Op.looks
  Op.wakes Op.settles Pc.Knows Pc.isLocked Pc.reader Pc.writer wasCancelled claimNotification
  setHandleBlocked unblockAfterPublish Op.awaitResume Op.giveBack

attribute [local grind] readyCheck acquired tryLockShared claim publish suspendLoad wake

attribute [local simp] Op.exclusive Op.shared Op.looks Op.wakes Op.settles

/-! ### Steps that rely on the balance alone -/

section

variable (h : Inv s) (b : Balance s ww wa)

include b

theorem start_balance (hpc : (s.ops i).pc = .idle) (c : Call) : Balance (start s i c) ww wa := by
  refine b.quiet i ?_
  constructor <;> cases c <;> simp_all +contextual [start, Call.entry, Pc.Knows]

theorem tryLockShared_balance (hx : (s.ops i).exclusive = 0 ∧ (s.ops i).shared = 0)
    (hother : (s.ops i).looks = 0 ∧ (s.ops i).wakes = 0 ∧ (s.ops i).settles = 0) :
    Balance (tryLockShared s i) ww wa := by
  have hrefused := Call.refused_cases (ι := ι) (s.ops i).call
  exact b.quiet i (by constructor <;> grind -ext)

theorem suspendLoad_balance (hx : (s.ops i).exclusive = 0 ∧ (s.ops i).shared = 0)
    (hother : (s.ops i).looks = 0 ∧ (s.ops i).wakes = 0 ∧ (s.ops i).settles = 0) :
    Balance (suspendLoad s i) ww wa := by
  exact b.quiet i (by constructor <;> grind -ext)

theorem claim_balance (hx : (s.ops i).exclusive = if (s.ops i).call.isShared then 0 else 1)
    (hn : (s.ops i).shared = if (s.ops i).call.isShared then 1 else 0)
    (hother : (s.ops i).looks = 0 ∧ (s.ops i).wakes = 0 ∧ (s.ops i).settles = 0) :
    Balance (claim s i) ww wa := by
  have hclaim := @not_wasCancelled_claimNotification (s.ops i).wake
  exact b.quiet i (by constructor <;> grind -ext)

theorem holding_balance (hpc : (s.ops i).pc = .holding) :
    Balance (s.goto i (if (s.ops i).call.isShared then .unlockShared .released
      else .enter (.unlockWriters .released))) ww wa := by
  exact b.quiet i (by constructor <;> grind -ext)

/-- The owners depend on neither the wake states nor the pending grants of readers. -/
theorem modify_balance (f : Op ι → Op ι)
    (hf : (f (s.ops i)).pc = (s.ops i).pc ∧ (f (s.ops i)).call = (s.ops i).call ∧
      (f (s.ops i)).handed = (s.ops i).handed)
    (hgrant : (f (s.ops i)).grantPending = (s.ops i).grantPending ∨ (s.ops i).call.isShared = true)
    :
    Balance (s.modify i f) ww wa := by
  have hknows := b.knows i
  refine b.quiet i ?_
  constructor <;> rcases hgrant with hgrant | hgrant <;>
    simp_all

theorem schedule_balance {w : ι} {more : Bool} (hwi : w ≠ i)
    (hpc : (s.ops i).pc = .schedule w more out) :
    Balance (scheduleWakeState s i w more out) ww wa := by
  have hw := modify_balance (i := w) b (fun o => { o with wake := o.wake.scheduleSelected.1 })
    ⟨rfl, rfl, rfl⟩ (.inl rfl)
  exact hw.quiet i (by constructor <;> grind -ext [scheduleWakeState])

theorem unlockShared_balance (hpc : (s.ops i).pc = .unlockShared out) :
    Balance (unlockShared s i out) ww wa := by
  have hreaders : s.state &&& readerMask = 1#64 ↔ shareds s = 1 := by
    rw [b.sound.word, pack_and_readers_eq_one b.sound.bound]
  have hwaiting := b.sound.waiting_iff
  refine b.leave (i := i) ?_ ?_ ?_ ?_ ?_ ?_ ?_ ?_ ?_ ?_ <;> grind -ext [unlockShared]

variable (out) in
/-- The critical sections of a release that only look at `state_`. -/
theorem ownedSection_balance {c : Cs ι} (hpc : (s.ops i).pc = .locked c)
    (hc : c = .lastReader out ∨ c = .finishLoad out) : Balance (actLocked s i c) ww wa := by
  have howned : s.state &&& (readerMask ||| writerActive) = 0#64 ↔ wa = false ∧ shareds s = 0 := by
    rw [b.sound.word, pack_and_owned b.sound.bound]
  have hactive := b.sound.active_iff
  refine b.quiet i ?_
  rcases hc with rfl | rfl <;> simp only [actLocked, lastReader, finishLoad] <;> split_ifs <;>
    constructor <;> cases wa <;> simp_all +contextual [Pc.Knows, Nat.pos_iff_ne_zero]

theorem wake_balance (hpc : (s.ops i).pc = .locked (.wake out))
    (hflag : ¬ admits s.state → ww = true ∨ wa = true) : Balance (wake s i out) ww wa := by
  have hwaiting := b.sound.waiting
  exact b.quiet i (by constructor <;> grind -ext)

/-! ### Steps without `internal_mutex_` -/

include h

theorem readyCheck_balance (hpc : (s.ops i).pc = .readyCheck) : Balance (readyCheck s i) ww wa := by
  have hcan := (h.op i).cancelled
  exact b.quiet i (by constructor <;> grind -ext)

theorem tryLock_balance (hpc : (s.ops i).pc = .tryLock)
    (hguard : s.state = 0#64 → ∀ j, (s.ops j).pc.finishing = false) :
    ∃ wa', Balance (tryLock s i) ww wa' := by
  have hwr := (h.op i).writer (by rw [hpc]; rfl)
  unfold tryLock
  split
  case isTrue hfree =>
    refine ⟨true, b.take (i := i) ?_ ?_ ?_ hfree (fun j _ => hguard hfree j) ?_ ?_ ?_ ?_⟩ <;>
      clear hfree hguard <;> grind -ext
  case isFalse hbusy =>
    have hrefused := Call.refused_cases (ι := ι) (s.ops i).call
    exact ⟨wa, b.quiet i (by constructor <;> grind -ext)⟩

/-- The compare-exchange of a reader takes the lock, or the reader goes on with `k`. -/
theorem acquireShared_balance {k : State ι} {p : Pc ι} (hpc : (s.ops i).pc = p)
    (hrd : p.reader = true) (hsnapshot : p.snapshot = some v) (hlocked : p.isLocked = false)
    (hk : Balance k ww wa) :
    Balance (if s.state = v then acquired { s with state := v + 1#64 } i else k) ww wa := by
  split
  case isTrue heq =>
    subst hpc heq
    have hshared := (h.op i).reader hrd
    have hadmits := (h.op i).snapshot _ hsnapshot
    refine b.enter (i := i) ?_ ?_ ?_ hadmits ?_ ?_ ?_ ?_ ?_ ?_ <;> grind -ext [Pc.snapshot]
  case isFalse hne => exact hk

theorem tryLockSharedCas_balance (hpc : (s.ops i).pc = .tryLockSharedCas v) :
    Balance (tryLockSharedCas s i v) ww wa :=
  acquireShared_balance h b hpc rfl rfl rfl
    (tryLockShared_balance b (by simp [hpc]) (by simp [hpc]))

theorem suspendCas_balance (hpc : (s.ops i).pc = .suspendCas v) :
    Balance (suspendCas s i v) ww wa :=
  acquireShared_balance h b hpc rfl rfl rfl
    (suspendLoad_balance b (by simp [hpc]) (by simp [hpc]))

theorem publish_balance (hpc : (s.ops i).pc = .publish) : Balance (publish s i) ww wa := by
  have hwake := (h.op i).unpublished (by rw [hpc]; rfl)
  have htoken := (h.op i).token hpc
  exact b.quiet i (by constructor <;> grind -ext)

theorem enter_balance {c : Cs ι} (hpc : (s.ops i).pc = .enter c) :
    Balance ({ s with internalMutex := some i }.goto i (.locked c)) ww wa := by
  have hent := (h.op i).entry c hpc
  refine b.quiet i ?_
  constructor <;> cases c <;> simp_all +contextual [Cs.isEntry, Pc.Knows]

/-- A waiter that was handed the lock owns it from then on, and no other waiter resumes. -/
theorem resume_balance (hpc : (s.ops i).pc = .parked) (hresume : (s.ops i).wake.canResume = true) :
    Balance (awaitResume s i) ww wa := by
  have hpark := (h.op i).parked hpc
  have hgrant := (h.op i).grant
  have hcan := (h.op i).cancelled
  rw [canResume_iff] at hresume
  exact b.quiet i (by constructor <;> grind -ext)

/-! ### Queueing -/

/-- The critical sections of an acquisition that only look at `state_`. -/
theorem lookSection_balance {c : Cs ι} (hpc : (s.ops i).pc = .locked c)
    (hc : c = .sharedCheck ∨ c = .lockCheck ∨ c = .sharedLoad)
    (hflag : (Pc.locked c).admitting = true → ¬ admits s.state → ww = true ∨ wa = true) :
    Balance (actLocked s i c) ww wa := by
  have hcan := (h.op i).cancelled
  refine b.quiet i ?_
  rcases hc with rfl | rfl | rfl <;> simp only [actLocked, sharedCheck, lockCheck, sharedLoad] <;>
    split_ifs <;> cases hs : (s.ops i).suspended <;> cases hshared : (s.ops i).call.isShared <;>
    constructor <;> simp_all +contextual [Op.awaitResume, Pc.Knows, Pc.admitting]

theorem sharedCas_balance (hpc : (s.ops i).pc = .locked (.sharedCas v))
    (hfew : shareds s < maxReaders) : Balance (sharedCas s i v) ww wa := by
  have hshared := (h.op i).reader (by rw [hpc]; rfl)
  have hadmits := (h.op i).snapshot v (by rw [hpc]; rfl)
  unfold sharedCas
  split
  case isTrue heq =>
    subst heq
    refine b.enter (i := i) ?_ ?_ ?_ hadmits ?_ ?_ ?_ ?_ ?_ ?_ <;> grind -ext
  case isFalse hne =>
    have hflag := b.flag_of_not_admits hfew
    exact b.quiet i (by constructor <;> grind -ext)

/-- The critical sections of a claim under `internal_mutex_`. -/
theorem claimSection_balance {c : Cs ι} (hpc : (s.ops i).pc = .locked c)
    (hc : c = .sharedClaim ∨ c = .lockClaim) : Balance (actLocked s i c) ww wa := by
  have hrd := (h.op i).reader
  have hwr := (h.op i).writer
  rw [hpc] at hrd hwr
  rcases hc with rfl | rfl
  · refine claim_balance b.release ?_ ?_ ?_ <;> simp [hpc, hrd rfl]
  · refine claim_balance b.release ?_ ?_ ?_ <;> simp [hpc, hwr rfl]

/-- The critical sections that move the reader in or out of the queue. -/
theorem sharedQueue_balance {c : Cs ι} (hpc : (s.ops i).pc = .locked c)
    (hc : c = .sharedPush ∨ c = .sharedUnblock ∨ c = .sharedUnlink) :
    Balance (actLocked s i c) ww wa := by
  have hmut := h.inside hpc
  have hfresh := (h.op i).ungranted
  have hwake := (h.op i).publishing
  have hknows := b.knows i
  rw [hpc] at hfresh hwake
  rcases hc with rfl | rfl | rfl <;> simp only [actLocked] <;>
    refine b.requeue ?_ ?_ h hmut ?_ ?_ ?_ ?_ ?_ ?_ ?_ <;>
    grind -ext [sharedPush, sharedUnblock, sharedUnlink, Pc.publishing, Pc.ungranted, Cs.ungranted]

theorem lockCas_balance (hpc : (s.ops i).pc = .locked .lockCas) :
    ∃ wa', Balance (lockCas s i) ww wa' := by
  have hmut := h.inside hpc
  have hwr := (h.op i).writer (by rw [hpc]; rfl)
  unfold lockCas
  split
  case isTrue hfree =>
    have hfin : ∀ j, j ≠ i → (s.ops j).pc.finishing = false := fun j hji =>
      Pc.finishing_of_unlocked (h.unlocked_of_held hmut hji)
    refine ⟨true, b.take ?_ ?_ ?_ hfree hfin ?_ ?_ ?_ ?_⟩ <;>
      clear hfree hfin <;> grind -ext [lockAcquired]
  case isFalse hbusy =>
    exact ⟨wa, b.quiet i (by constructor <;> grind -ext)⟩

theorem lockOr_balance (hpc : (s.ops i).pc = .locked .lockOr) : Balance (lockOr s i) true wa := by
  have hmut := h.inside hpc
  have hops : ∀ j, j ≠ i → (lockOr s i).ops j = s.ops j := by grind [lockOr]
  have hi : ((lockOr s i).ops i).pc = .locked .lockRetry := by simp [lockOr]
  obtain ⟨tx, tn, tl, tk, tg⟩ := totals_of_agree hops
  simp only [Op.exclusive, Op.shared, Op.looks, Op.wakes, Op.settles, hpc, hi] at tx tn tl tk tg
  refine Balance.of_held h hmut (fun j hji => by rw [hops j hji]) (by rw [← b.owners]; omega) ?_
    (by rw [hi]; exact rfl)
  rw [show shareds (lockOr s i) = shareds s by omega, show lookers (lockOr s i) = lookers s by omega,
    show wakers (lockOr s i) = wakers s by omega,
    show settlers (lockOr s i) = settlers s + 1 by omega]
  exact b.sound.prefer

theorem lockRetry_balance (hpc : (s.ops i).pc = .locked .lockRetry) :
    ∃ ww' wa', Balance (lockRetry s i) ww' wa' := by
  have hmut := h.inside hpc
  have hwr := (h.op i).writer (by rw [hpc]; rfl)
  have hfresh := (h.op i).ungranted (by rw [hpc]; rfl)
  have hww : ww = true := by simpa [Pc.Knows, hpc] using b.knows i
  have hold : (s.ops i).exclusive = 0 ∧ (s.ops i).shared = 0 ∧ (s.ops i).looks = 0 ∧
      (s.ops i).wakes = 0 := by simp [hpc]
  have hsound := b.sound
  unfold lockRetry
  split
  case isTrue hfree =>
    rw [hfree] at hsound
    obtain ⟨-, hwa, hn⟩ := hsound.of_waiting
    generalize hs' : lockAcquired { s with state := activeWord s.pendingWriters } i = s'
    have hops : ∀ j, j ≠ i → s'.ops j = s.ops j := by grind [lockAcquired]
    have hi : (s'.ops i).exclusive = 1 ∧ (s'.ops i).shared = 0 := by
      grind -ext [lockAcquired]
    have hfields : s'.state = activeWord s.pendingWriters ∧ s'.pendingWriters = s.pendingWriters ∧
        s'.readerWaiters = s.readerWaiters := by grind -ext [lockAcquired]
    have hknows : (s'.ops i).pc = .holding ∨ (s'.ops i).pc = .locked .lockClaim := by
      grind -ext [lockAcquired]
    obtain ⟨tx, tn, -, -, -⟩ := totals_of_agree hops
    have howners := b.owners
    rw [hwa, Bool.toNat_false] at howners
    refine ⟨decide (0 < s.pendingWriters), true, Balance.of_held h hmut
      (fun j hji => by rw [hops j hji]) (by rw [Bool.toNat_true]; omega) ?_ ?_⟩
    · rw [hfields.1, hfields.2.1, show shareds s' = 0 by omega]
      exact Sound.activate
    · rcases hknows with hpc' | hpc' <;> rw [hpc'] <;> trivial
  case isFalse hbusy =>
    subst hww
    generalize hs' : (if (s.ops i).cancellable = true then _ else _) = s'
    have hops : ∀ j, j ≠ i → s'.ops j = s.ops j := fun j hji => by
      rw [← hs']
      split <;> simp [lockPush, hji]
    have hi : (s'.ops i).pc = .locked .lockUnblock ∨
        (s'.ops i).pc = .parked ∧ (s'.ops i).handed = false ∧ (s'.ops i).grantPending = false := by
      grind -ext [lockPush]
    have hfields : s'.state = s.state ∧ s'.pendingWriters = s.pendingWriters + 1 ∧
        s'.readerWaiters = s.readerWaiters := by
      grind -ext [lockPush]
    have hzero : (s'.ops i).exclusive = 0 ∧ (s'.ops i).shared = 0 ∧ (s'.ops i).looks = 0 ∧
        (s'.ops i).wakes = 0 := by
      grind -ext
    obtain ⟨tx, tn, tl, tk, -⟩ := totals_of_agree hops
    refine ⟨true, wa, Balance.of_held h hmut (fun j hji => by rw [hops j hji])
      (by rw [← b.owners]; omega) ?_ ?_⟩
    · rw [hfields.1, hfields.2.1, hfields.2.2, show shareds s' = shareds s by omega,
        show lookers s' = lookers s by omega, show wakers s' = wakers s by omega]
      exact hsound.enqueue hbusy
    · rcases hi with hpc' | ⟨hpc', -⟩ <;> rw [hpc'] <;> trivial

theorem lockUnblock_balance (hpc : (s.ops i).pc = .locked .lockUnblock) :
    Balance (lockUnblock s i) ww wa := by
  have hmut := h.inside hpc
  have hfresh := (h.op i).ungranted (by rw [hpc]; rfl)
  unfold lockUnblock
  split
  · exact b.quiet i (by constructor <;> grind -ext)
  · refine b.dequeue ?_ ?_ h hmut ?_ ?_ ?_ ?_ ?_ ?_ ?_ ?_ <;> grind -ext

theorem lockUnlink_balance (hpc : (s.ops i).pc = .locked .lockUnlink) :
    Balance (lockUnlink s i) ww wa := by
  have hmut := h.inside hpc
  unfold lockUnlink
  split
  · refine b.dequeue ?_ ?_ h hmut ?_ ?_ ?_ ?_ ?_ ?_ ?_ ?_ <;> grind -ext
  · exact b.quiet i (by constructor <;> grind -ext)

/-! ### Releasing -/

omit b in
/-- The holder of `internal_mutex_` leaves and hands the lock to `w`. -/
theorem handOver_balance {t : State ι} {w : ι} {f : Op ι → Op ι} {more : Bool} {n : ℕ}
    (hmut : s.internalMutex = some i) (hwi : w ≠ i) (hops : t.ops = s.ops)
    (hpark : (s.ops w).pc = .parked) (hhanded : (s.ops w).handed = false)
    (hgrant : (s.ops w).call.isShared = false → (s.ops w).grantPending = false)
    (hf : (f (s.ops w)).pc = .parked ∧ (f (s.ops w)).call = (s.ops w).call ∧
      (f (s.ops w)).handed = true ∧ (f (s.ops w)).grantPending = true)
    (howners : exclusives s + (if (s.ops w).call.isShared then 0 else 1) - (s.ops i).exclusive =
      wa.toNat)
    (hn : shareds s + (if (s.ops w).call.isShared then 1 else 0) - (s.ops i).shared = n)
    (hsound : ∀ l k g, (more = true → 0 < k) → g + (s.ops i).settles = settlers s →
      Sound t.state ww wa n l k g t.pendingWriters (t.readerWaiters ≠ [])) :
    Balance ((t.modify w f).goto i (.schedule w more out)) ww wa := by
  generalize hs' : (t.modify w f).goto i _ = s'
  obtain ⟨tx, tn, tg, hpcs⟩ := totals_of_handOver hs'.symm hwi hops hpark hhanded hgrant hf
  have hi : (s'.ops i).pc = .schedule w more out := by simp [← hs']
  have hzero : (s'.ops i).exclusive = 0 ∧ (s'.ops i).shared = 0 ∧ (s'.ops i).settles = 0 := by
    simp [hi]
  refine Balance.of_held h hmut hpcs (by omega) ?_ (by rw [hi]; trivial)
  rw [show shareds s' = n by omega, show s'.state = t.state by simp [← hs'],
    show s'.pendingWriters = t.pendingWriters by simp [← hs'],
    show s'.readerWaiters = t.readerWaiters by simp [← hs']]
  exact hsound _ _ _ (wakers_pos hi) (by omega)

theorem finishAnd_balance (hpc : (s.ops i).pc = .locked (.finishAnd out)) :
    Balance (finishAnd s i out) false wa := by
  have hmut := h.inside hpc
  have hknows : s.pendingWriters = 0 ∧ wa = true := by simpa [Pc.Knows, hpc] using b.knows i
  refine b.clear ?_ ?_ ?_ h hmut hknows.1 (fun _ => hknows.2) ?_ ?_ ?_ ?_ <;>
    grind -ext [finishAnd]

theorem claimWriter_balance {c next : Cs ι} (hpc : (s.ops i).pc = .locked c)
    (hc : c.ClaimsWriter next out) : ∃ ww' wa', Balance (claimWriter s i out next) ww' wa' := by
  have hmut := h.inside hpc
  have hpend := h.pending
  unfold claimWriter
  split
  next hnil =>
    refine ⟨ww, wa, b.quiet i ?_⟩
    constructor <;> rcases hc with ⟨rfl, rfl⟩ | ⟨rfl, rfl⟩ <;> grind -ext
  next w rest hcons =>
    have hpos : 0 < s.pendingWriters := by rw [hpend, hcons]; exact Nat.succ_pos _
    have hlink : w ∈ s.writerWaiters := by simp [hcons]
    split
    next hrejects =>
      have hknows := b.knows i
      refine ⟨ww, wa, b.dequeue ?_ ?_ h hmut ?_ ?_ ?_ ?_ ?_ ?_ ?_ ?_⟩ <;>
        rcases hc with ⟨rfl, rfl⟩ | ⟨rfl, rfl⟩ <;> grind -ext
    next hsel =>
      have hwi : w ≠ i := fun heq => (h.unlinked hpc (unlinked_of_claimsWriter hc)).2 (heq ▸ hlink)
      obtain ⟨hpark, -⟩ := h.selected hmut hwi (.inr hlink) (by simpa using hsel)
      obtain ⟨hcall, hgrant, hhanded, -⟩ := (h.op w).writing hlink
      obtain ⟨hone, hn⟩ := b.alone_of_claimsWriter hpc hc hpos
      exact ⟨decide (0 < s.pendingWriters - 1), true, handOver_balance h hmut hwi rfl hpark hhanded
        (fun _ => hgrant) ⟨hpark, rfl, rfl, rfl⟩ (by rw [hone, hcall]; exact Nat.add_sub_cancel_left ..)
        (by rw [hn, hcall]; exact Nat.zero_sub _) fun _ _ _ _ _ => Sound.activate⟩

theorem unlockReaders_balance (hpc : (s.ops i).pc = .locked (.unlockReaders out)) :
    ∃ ww' wa', Balance (unlockReaders s i out) ww' wa' := by
  have hmut := h.inside hpc
  have hp : s.pendingWriters = 0 := by simpa [Pc.Knows, hpc] using b.knows i
  have hx : (s.ops i).exclusive = 1 := by simp [hpc]
  have hn : (s.ops i).shared = 0 := by simp [hpc]
  obtain ⟨hwa, hone, hnone⟩ := b.alone hx
  unfold unlockReaders
  split
  next hnil =>
    generalize hs' : State.goto _ i (.done out) = s'
    have hi : (s'.ops i).pc = .done out := by simp [← hs']
    have hzero : (s'.ops i).exclusive = 0 ∧ (s'.ops i).shared = 0 := by
      simp [hi]
    have hops : ∀ j, j ≠ i → s'.ops j = s.ops j := fun j hji => by simp [← hs', hji]
    obtain ⟨tx, tn, -, -, -⟩ := totals_of_agree hops
    refine ⟨false, false, Balance.of_held h hmut (fun j hji => by rw [hops j hji])
      (by rw [Bool.toNat_false]; omega) ?_ (by rw [hi]; trivial)⟩
    rw [show s'.state = 0#64 by simp [← hs'], show shareds s' = 0 by omega]
    exact Sound.free (by simp [← hs', hp]) (by simp [← hs', hnil])
  next r rest hcons =>
    have hlink : r ∈ s.readerWaiters := by simp [hcons]
    split
    next hrejects =>
      refine ⟨ww, wa, b.requeue ?_ ?_ h hmut ?_ ?_ ?_ ?_ ?_ ?_ ?_⟩ <;> grind -ext
    next hsel =>
      have hri : r ≠ i := fun heq => (h.unlinked hpc ⟨rfl, rfl⟩).1 (heq ▸ hlink)
      obtain ⟨hpark, -⟩ := h.selected hmut hri (.inl hlink) (by simpa using hsel)
      obtain ⟨hcall, hgrant, hhanded, -⟩ := (h.op r).reading hlink
      refine ⟨false, false, handOver_balance h hmut hri rfl hpark hhanded (fun _ => hgrant)
        ⟨hpark, rfl, rfl, rfl⟩ (by rw [hone, hx, hcall]; rfl) (by rw [hnone, hn, hcall]; rfl)
        fun l k g hmore _ => Sound.firstReader hp fun hq => hmore (by simpa using hq)⟩

theorem finishClaim_balance (hpc : (s.ops i).pc = .locked (.finishClaim v out)) :
    Balance (finishClaim s i v out) ww wa := by
  have hmut := h.inside hpc
  have hknows := b.knows i
  unfold finishClaim
  split
  next hnil =>
    exact b.quiet i (by constructor <;> grind -ext)
  next r rest hcons =>
    have hdrop : Balance { s with readerWaiters := rest } ww wa := by
      refine b.requeue ?_ ?_ h hmut ?_ ?_ ?_ ?_ ?_ ?_ ?_ <;> grind -ext
    split
    next hrejects => exact hdrop
    next hsel =>
      have hlink : r ∈ s.readerWaiters := by simp [hcons]
      have hcall := ((h.op r).reading hlink).1
      have hri : r ≠ i := fun heq => (h.unlinked hpc ⟨rfl, rfl⟩).1 (heq ▸ hlink)
      -- the reader is granted, which is not an ownership yet, and then the caller moves on
      have hgrant := modify_balance hdrop Op.grant ⟨rfl, rfl, rfl⟩ (.inr hcall)
      exact hgrant.quiet i (by constructor <;> grind -ext)

theorem finishCas_balance {reader : Option ι}
    (hpc : (s.ops i).pc = .locked (.finishCas reader v out))
    (hfew : reader ≠ none → shareds s < maxReaders) :
    ∃ ww' wa', Balance (finishCas s i reader v out) ww' wa' := by
  have hmut := h.inside hpc
  have hknows := b.knows i
  rw [hpc] at hknows
  unfold finishCas
  split
  case isTrue heq =>
    subst heq
    cases reader with
    | none =>
      obtain ⟨hp, hwa, hnil⟩ := hknows
      refine ⟨false, wa, b.clear ?_ ?_ ?_ h hmut hp (fun hq => absurd hq hnil) ?_ ?_ ?_ ?_⟩ <;>
        grind -ext
    | some r =>
      obtain ⟨hp, hwa⟩ := hknows
      have htransit := h.transit i r s.state out hpc
      have hri := h.transit_ne hmut htransit
      have hpark := ((h.op r).grant htransit.1).1
      have hzero : (s.ops i).exclusive = 0 ∧ (s.ops i).shared = 0 := by simp [hpc]
      subst hwa
      refine ⟨false, false, handOver_balance h hmut hri rfl hpark htransit.2.1
        (by simp [htransit.2.2]) ⟨hpark, rfl, rfl, htransit.1⟩
        (by rw [b.owners, htransit.2.2, hzero.1]; rfl) (by rw [htransit.2.2, hzero.2])
        fun l k g hmore _ => ?_⟩
      have hclear : Sound (s.state &&& ~~~writerWaiting) false false (shareds s) l k g
          s.pendingWriters (s.readerWaiters ≠ []) :=
        b.sound.clear hp fun hq => .inr (hmore (by simpa using hq))
      exact hclear.enter (hclear.admits_iff.2 ⟨rfl, rfl, hfew (by simp)⟩)
  case isFalse hne =>
    refine ⟨ww, wa, b.quiet i ?_⟩
    constructor <;> cases reader <;> grind -ext

/-! ### Additional readers -/

theorem wakeCas_balance (hpc : (s.ops i).pc = .locked (.wakeCas v out))
    (hfew : shareds s < maxReaders) : Balance (wakeCas s i v out) ww wa := by
  have hadmits := (h.op i).snapshot v (by rw [hpc]; rfl)
  unfold wakeCas
  split
  case isTrue heq =>
    subst heq
    have hflags := b.sound.admits_iff.1 hadmits
    refine b.enter (i := i) ?_ ?_ ?_ hadmits ?_ ?_ ?_ ?_ ?_ ?_ <;> grind -ext
  case isFalse hne =>
    have hflag := b.flag_of_not_admits hfew
    exact b.quiet i (by constructor <;> grind -ext)

theorem wakeClaim_balance (hpc : (s.ops i).pc = .locked (.wakeClaim out)) :
    Balance (wakeClaim s i out) ww wa := by
  have hmut := h.inside hpc
  have hww : ww = false := by simpa [Pc.Knows, hpc] using b.knows i
  unfold wakeClaim
  split
  next hnil =>
    refine b.leave (i := i) ?_ ?_ ?_ ?_ ?_ ?_ ?_ ?_ ?_ ?_ <;> grind -ext
  next r rest hcons =>
    have hlink : r ∈ s.readerWaiters := by simp [hcons]
    split
    next hrejects =>
      refine b.requeue ?_ ?_ h hmut ?_ ?_ ?_ ?_ ?_ ?_ ?_ <;> grind -ext
    next hsel =>
      have hri : r ≠ i := fun heq => (h.unlinked hpc ⟨rfl, rfl⟩).1 (heq ▸ hlink)
      obtain ⟨hpark, -⟩ := h.selected hmut hri (.inl hlink) (by simpa using hsel)
      obtain ⟨hcall, hgrant, hhanded, -⟩ := (h.op r).reading hlink
      have hweights : (s.ops i).exclusive = 0 ∧ (s.ops i).shared = 1 ∧ (s.ops i).settles = 0 := by
        simp [hpc]
      have hpos : (s.ops i).shared ≤ shareds s := le_total Op.shared s.ops i
      refine handOver_balance h hmut hri rfl hpark hhanded (fun _ => hgrant)
        ⟨hpark, rfl, rfl, rfl⟩ (by rw [b.owners, hcall, hweights.1]; rfl)
        (by rw [hcall, hweights.2.1]) fun l k g hmore hg => ?_
      exact b.sound.quiet (.inr (.inr (.inr (by omega))))
        (fun _ => .inr (.inr (.inr (hmore rfl)))) (.inl (by omega))

/-! ### Guarded runs -/

theorem actLocked_balance {c : Cs ι} (hpc : (s.ops i).pc = .locked c)
    (hguard : (Pc.locked c).admitting = true → shareds s < maxReaders) :
    ∃ ww' wa', Balance (actLocked s i c) ww' wa' := by
  have hflag := fun hadmits => b.flag_of_not_admits (hguard hadmits)
  cases c with
  | sharedCheck | sharedLoad | lockCheck =>
    exact ⟨ww, wa, lookSection_balance h b hpc (by simp) hflag⟩
  | lastReader out | finishLoad out => exact ⟨ww, wa, ownedSection_balance out b hpc (by simp)⟩
  | wake out => exact ⟨ww, wa, wake_balance b hpc (hflag rfl)⟩
  | sharedCas v => exact ⟨ww, wa, sharedCas_balance h b hpc (hguard rfl)⟩
  | sharedClaim | lockClaim => exact ⟨ww, wa, claimSection_balance h b hpc (by simp)⟩
  | sharedPush | sharedUnblock | sharedUnlink =>
    exact ⟨ww, wa, sharedQueue_balance h b hpc (by simp)⟩
  | lockCas => exact ⟨ww, lockCas_balance h b hpc⟩
  | lockOr => exact ⟨true, wa, lockOr_balance h b hpc⟩
  | lockRetry => exact lockRetry_balance h b hpc
  | lockUnblock => exact ⟨ww, wa, lockUnblock_balance h b hpc⟩
  | lockUnlink => exact ⟨ww, wa, lockUnlink_balance h b hpc⟩
  | lastReaderClaim out => exact claimWriter_balance h b hpc (.inl ⟨rfl, rfl⟩)
  | unlockWriters out => exact claimWriter_balance h b hpc (.inr ⟨rfl, rfl⟩)
  | unlockReaders out => exact unlockReaders_balance h b hpc
  | finishAnd out => exact ⟨false, wa, finishAnd_balance h b hpc⟩
  | finishClaim v out => exact ⟨ww, wa, finishClaim_balance h b hpc⟩
  | finishCas reader v out =>
    refine finishCas_balance h b hpc fun hsome => hguard ?_
    cases reader with
    | none => exact absurd rfl hsome
    | some r => rfl
  | wakeCas v out => exact ⟨ww, wa, wakeCas_balance h b hpc (hguard rfl)⟩
  | wakeClaim out => exact ⟨ww, wa, wakeClaim_balance h b hpc⟩

theorem act_balance (hguard : Guard s (.act i)) (hact : act s i = some s') :
    ∃ ww' wa', Balance s' ww' wa' := by
  obtain ⟨hfin, hfew⟩ := hguard
  unfold act at hact
  split at hact <;> try cases hact
  case h_3 hpc => exact ⟨ww, wa, readyCheck_balance h b hpc⟩
  case h_4 hpc => exact ⟨ww, tryLock_balance h b hpc (hfin hpc)⟩
  case h_5 hpc =>
    refine ⟨ww, wa, tryLockShared_balance b ?_ ?_⟩ <;> simp [hpc]
  case h_6 v hpc => exact ⟨ww, wa, tryLockSharedCas_balance h b hpc⟩
  case h_7 hpc =>
    refine ⟨ww, wa, claim_balance b ?_ ?_ ?_⟩ <;> simp [hpc]
  case h_8 hpc => exact ⟨ww, wa, publish_balance h b hpc⟩
  case h_9 hpc =>
    refine ⟨ww, wa, suspendLoad_balance b ?_ ?_⟩ <;> simp [hpc]
  case h_10 v hpc => exact ⟨ww, wa, suspendCas_balance h b hpc⟩
  case h_11 c hpc =>
    split at hact <;> cases hact
    exact ⟨ww, wa, enter_balance h b hpc⟩
  case h_12 c hpc =>
    rw [hpc] at hfew
    exact actLocked_balance h b hpc hfew
  case h_13 hpc =>
    split at hact <;> cases hact
    exact ⟨ww, wa, resume_balance h b hpc ‹_›⟩
  case h_14 hpc => exact ⟨ww, wa, holding_balance b hpc⟩
  case h_15 out hpc => exact ⟨ww, wa, unlockShared_balance b hpc⟩
  case h_16 w more out hpc =>
    exact ⟨ww, wa, schedule_balance b (h.schedule i w more out hpc).2 hpc⟩

theorem step_balance {l : Label ι} (hguard : Guard s l) (hl : step s l = some s') :
    ∃ ww' wa', Balance s' ww' wa' := by
  cases l with
  | start i c =>
    rw [step] at hl
    split_ifs at hl with hpc
    cases hl
    exact ⟨ww, wa, start_balance b hpc c⟩
  | act i => exact act_balance h b hguard hl
  | cancel i | scheduleCancel i =>
    rw [step] at hl
    split_ifs at hl
    cases hl
    exact ⟨ww, wa, modify_balance b _ ⟨rfl, rfl, rfl⟩ (.inl rfl)⟩

end

/-- **The balance holds along every guarded run.** -/
theorem balance_of_reachable (h : (system ι).ReachableVia Guard s) :
    Inv s ∧ ∃ ww wa, Balance s ww wa := by
  refine h.invariant (I := fun s => Inv s ∧ ∃ ww wa, Balance s ww wa)
    (fun _ hs => hs ▸ ⟨initial_inv, false, false, initial_balance⟩) ?_
  rintro s l s' ⟨hinv, ww, wa, b⟩ hguard hl
  exact ⟨step_inv hinv hl, step_balance hinv b hguard hl⟩

/-- **Mutual exclusion.**  In every state of a guarded run there is at most one exclusive owner,
with its grant pending or not, and none beside a shared owner; `WRITER_ACTIVE` is set exactly when
there is one, and the reader bits count the shared owners. -/
theorem mutual_exclusion (h : (system ι).ReachableVia Guard s) :
    exclusives s ≤ 1 ∧ (0 < exclusives s → shareds s = 0) ∧
      (s.state &&& writerActive ≠ 0#64 ↔ exclusives s = 1) ∧
      (s.state &&& readerMask).toNat = shareds s := by
  obtain ⟨-, ww, wa, b⟩ := balance_of_reachable h
  have howners := b.owners
  have hactive := b.sound.active_iff
  have hcount : (s.state &&& readerMask).toNat = shareds s := by
    rw [b.sound.word, toNat_pack_and_readers b.sound.bound]
  have hapart := b.sound.apart
  refine ⟨?_, ?_, ?_, hcount⟩
  · rw [howners]
    exact Bool.toNat_le wa
  · intro hpos
    cases wa with
    | false => simp [howners] at hpos
    | true => exact hapart rfl
  · rw [Ne, hactive, howners]
    cases wa <;> simp

/-- Not part-way through a sequence of steps. -/
def Pc.atRest {ι : Type*} : Pc ι → Bool
  | .idle | .parked | .holding | .done _ => true
  | _ => false

omit [DecidableEq ι] in
/-- Nothing is left to do when every operation is at rest. -/
theorem unfinished_eq_zero (hrest : ∀ j, (s.ops j).pc.atRest = true) :
    lookers s = 0 ∧ wakers s = 0 ∧ settlers s = 0 := by
  have hzero : ∀ f : Op ι → ℕ, (∀ o : Op ι, o.pc.atRest = true → f o = 0) → total f s.ops = 0 :=
    fun f hf => Finset.sum_eq_zero fun j _ => hf _ (hrest j)
  refine ⟨hzero _ fun o ho => ?_, hzero _ fun o ho => ?_, hzero _ fun o ho => ?_⟩ <;>
    cases hpc : o.pc <;> simp_all [Pc.atRest, Op.looks, Op.wakes, Op.settles]

/-- **Nobody is stranded.**  In every state of a guarded run in which no operation is part-way
through its steps, a queued writer waits for an owner, a queued reader for a writer that owns or
awaits the lock, `pending_writers_` counts the queued writers, and `WRITER_WAITING` is set exactly
when there are some.  This holds of every queued waiter, the live ones among them. -/
theorem never_strands (h : (system ι).ReachableVia Guard s)
    (hrest : ∀ j, (s.ops j).pc.atRest = true) :
    (s.writerWaiters ≠ [] → 0 < exclusives s ∨ 0 < shareds s) ∧
      (s.readerWaiters ≠ [] →
        s.state &&& writerActive ≠ 0#64 ∨ s.state &&& writerWaiting ≠ 0#64) ∧
      s.pendingWriters = s.writerWaiters.length ∧
      (s.state &&& writerWaiting ≠ 0#64 ↔ 0 < s.pendingWriters) := by
  obtain ⟨hinv, ww, wa, b⟩ := balance_of_reachable h
  have hzero := unfinished_eq_zero hrest
  have hactive := b.sound.active_iff
  have hwaiting := b.sound.waiting_iff
  have hpending := hinv.pending
  refine ⟨fun hne => ?_, fun hne => ?_, hpending, ?_⟩
  · have hpos : 0 < s.pendingWriters := by
      rw [hpending]
      exact List.length_pos_of_ne_nil hne
    rcases b.sound.backed hpos with hwa | hn
    · exact .inl (by rw [b.owners, hwa]; exact Nat.one_pos)
    · exact .inr (by omega)
  · rw [Ne, Ne, hactive, hwaiting, Bool.not_eq_false, Bool.not_eq_false]
    rcases b.sound.awaited hne with hww | hwa | hk
    · exact .inr hww
    · exact .inl hwa
    · omega
  · rw [Ne, hwaiting, Bool.not_eq_false]
    exact ⟨fun hww => by have := b.sound.settled hww; omega, b.sound.waiting⟩

/-- A reader holds the lock, and a writer waits behind it. -/
def writerWaitsRun : List (Label (Fin 2)) :=
  [.start 0 .lockShared, .act 0, .act 0, .start 1 .lock, .act 1, .act 1, .act 1, .act 1, .act 1]

/-- The reader and the writer behind it: one shared owner, and `WRITER_WAITING` for the queued
writer. -/
theorem mutual_exclusion_writerWaits :
    ∃ s, (system (Fin 2)).runVia Guard .initial writerWaitsRun = some s ∧ exclusives s = 0 ∧
      shareds s = 1 ∧ (s.state &&& readerMask).toNat = shareds s := by
  have hrun : ((system (Fin 2)).runVia Guard .initial writerWaitsRun).isSome := rfl
  have hsome := (Option.some_get hrun).symm
  exact ⟨_, hsome, rfl, rfl, (mutual_exclusion (.of_runVia (.init rfl) hsome)).2.2.2⟩

/-- The writer waits for the reader. -/
theorem never_strands_writerWaits :
    ∃ s, (system (Fin 2)).runVia Guard .initial writerWaitsRun = some s ∧ s.writerWaiters = [1] ∧
      (∀ j, (s.ops j).pc.atRest = true) ∧ (0 < exclusives s ∨ 0 < shareds s) := by
  have hrun : ((system (Fin 2)).runVia Guard .initial writerWaitsRun).isSome := rfl
  have hsome := (Option.some_get hrun).symm
  have hrest : ∀ j, ((((system (Fin 2)).runVia Guard .initial writerWaitsRun).get hrun).ops j
      ).pc.atRest = true := Fin.forall_fin_two.2 ⟨rfl, rfl⟩
  exact ⟨_, hsome, rfl, hrest,
    (never_strands (.of_runVia (.init rfl) hsome) hrest).1 (List.cons_ne_nil 1 [])⟩

/-! ### What the guard excludes -/

/-- Reader 0 holds the lock, writer 1 waits behind it with readers 2 and 3 behind the writer.
Reader 0 leaves, as the last one, and has yet to look for the writer when that is cancelled: it
clears the writer preference and lets reader 2 in.  Reader 2 leaves as well.  Now reader 0 looks:
the word is free, there is no writer, and it selects reader 3.  Before it counts reader 3,
`try_lock()` of 4 succeeds; the compare-exchange of 0 fails, reads `WRITER_ACTIVE`, and counts
reader 3 beside it. -/
def staleLastReaderRun : List (Label (Fin 5)) :=
  [.start 0 .lockShared, .act 0, .act 0,
    .start 1 .lockToken, .act 1, .act 1, .act 1, .act 1, .act 1, .act 1, .act 1, .act 1, .act 1,
    .start 2 .lockShared, .act 2, .act 2, .act 2, .act 2, .act 2,
    .start 3 .lockShared, .act 3, .act 3, .act 3, .act 3, .act 3,
    .act 0, .act 0, .cancel 1, .scheduleCancel 1,
    .act 1, .act 1, .act 1, .act 1, .act 1, .act 1, .act 1,
    .act 2, .act 2, .act 2, .act 0, .act 0, .act 0, .act 0, .act 0,
    .start 4 .tryLock, .act 4, .act 0, .act 0, .act 0, .act 3]

/-- **`try_lock()` succeeds while a reader is let in**: operation 4 holds the exclusive lock and
operation 3 the shared lock, at the same time. -/
theorem writer_beside_reader :
    ∃ s, (system (Fin 5)).Reachable s ∧
      ((s.ops 4).call = .tryLock ∧ (s.ops 4).pc = .holding) ∧
      ((s.ops 3).call = .lockShared ∧ (s.ops 3).pc = .holding) ∧
      exclusives s = 1 ∧ shareds s = 1 := by
  have hrun : ((system (Fin 5)).run .initial staleLastReaderRun).isSome := rfl
  have hsome := (Option.some_get hrun).symm
  exact ⟨_, TransitionSystem.reachable_of_run rfl hsome, ⟨rfl, rfl⟩, ⟨rfl, rfl⟩, rfl, rfl⟩

/-- The run goes on: everybody releases. -/
def corruptedRun : List (Label (Fin 5)) :=
  staleLastReaderRun ++ [.act 4, .act 4, .act 4, .act 4, .act 3, .act 3, .act 1, .act 1]

/-- **`state_` does not recover**: every operation has ended, nobody owns the lock or waits for it,
and yet `WRITER_WAITING` is set. -/
theorem state_corrupted :
    ∃ s, (system (Fin 5)).Reachable s ∧ (∀ j, ∃ out, (s.ops j).pc = .done out) ∧
      (∀ j, (s.ops j).pc.atRest = true) ∧ s.pendingWriters = 0 ∧ s.writerWaiters = [] ∧
      s.state &&& writerWaiting ≠ 0#64 := by
  have hrun : ((system (Fin 5)).run .initial corruptedRun).isSome := rfl
  have hsome := (Option.some_get hrun).symm
  have hdone : ∀ j, ∃ out,
      ((((system (Fin 5)).run .initial corruptedRun).get hrun).ops j).pc = .done out := by
    intro j
    fin_cases j <;> exact ⟨_, rfl⟩
  refine ⟨_, TransitionSystem.reachable_of_run rfl hsome, hdone, fun j => ?_, rfl, rfl, ?_⟩
  · obtain ⟨out, hpc⟩ := hdone j
    rw [hpc]
    rfl
  · have hstate : (((system (Fin 5)).run .initial corruptedRun).get hrun).state =
        BitVec.allOnes 64 := rfl
    rw [hstate]
    decide

end Elio.SharedMutex
