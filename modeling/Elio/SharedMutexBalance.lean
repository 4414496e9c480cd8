/-
**The shared mutex: what its word says about the owners.**

An operation owns the shared mutex from the step that puts it into `state_`, by its own
compare-exchange or by the hand-over of another, until the step that takes it out; the reader slot
that `wake_additional_readers` reserves is owned by the operation that reserved it.
`Balance` says that `state_` is the word of these owners, and also what keeps
waiters from being stranded: a queued writer is backed by an owner, or by a last reader that has yet
to look for it, and a queued reader by a writer, or by an operation that has yet to wake it.

Main definitions:

* `exclusives`, `shareds` — the owners;
* `Balance` — what `state_` says;
* `Guard` — the steps that keep it.

Main results:

* `Balance.quiet`, `Balance.enter`, `Balance.leave`, `Balance.take`, `Balance.of_held` — **the kinds
  of steps that keep the balance.**
-/

import Elio.SharedMutexHandOver

set_option autoImplicit false

namespace Elio.SharedMutex

open PartyTotal

variable {ι : Type*}

/-! ### Owners -/

/-- The operation owns the exclusive lock, or its grant is pending. -/
def Op.exclusive (o : Op ι) : ℕ :=
  match o.pc with
  | .claim | .holding => if o.call.isShared then 0 else 1
  | .locked .lockClaim | .enter (.unlockWriters _) | .locked (.unlockWriters _)
  | .locked (.unlockReaders _) => 1
  | .parked => if o.grantPending ∧ ¬o.call.isShared then 1 else 0
  | _ => 0

/-- The operation owns the shared lock, or a reader slot.  A pending grant counts once it has taken
effect: `finish_writer_removal_locked` selects the reader before its compare-exchange. -/
def Op.shared (o : Op ι) : ℕ :=
  match o.pc with
  | .claim | .holding => if o.call.isShared then 1 else 0
  | .locked .sharedClaim | .unlockShared _ | .locked (.wakeClaim _) => 1
  | .parked => if o.handed ∧ o.call.isShared then 1 else 0
  | _ => 0

/-- The operation was the last reader and has yet to look for a writer. -/
def Op.looks (o : Op ι) : ℕ :=
  match o.pc with
  | .enter (.lastReader _) | .locked (.lastReader _) | .locked (.lastReaderClaim _) => 1
  | _ => 0

/-- The operation has yet to wake additional readers. -/
def Op.wakes (o : Op ι) : ℕ :=
  match o.pc with
  | .schedule _ true _ | .enter (.wake _) | .locked (.wake _) | .locked (.wakeCas _ _)
  | .locked (.wakeClaim _) => 1
  | _ => 0

/-- The operation has yet to settle the writer preference. -/
def Op.settles (o : Op ι) : ℕ :=
  match o.pc with
  | .locked .lockRetry | .locked (.lastReaderClaim _) | .locked (.unlockWriters _)
  | .locked (.unlockReaders _) | .locked (.finishLoad _) | .locked (.finishAnd _)
  | .locked (.finishClaim _ _) | .locked (.finishCas _ _ _) => 1
  | _ => 0

section Totals

variable [Fintype ι]

/-- The number of exclusive owners. -/
def exclusives (s : State ι) : ℕ := total Op.exclusive s.ops

/-- The number of shared owners. -/
def shareds (s : State ι) : ℕ := total Op.shared s.ops

def lookers (s : State ι) : ℕ := total Op.looks s.ops

def wakers (s : State ι) : ℕ := total Op.wakes s.ops

def settlers (s : State ι) : ℕ := total Op.settles s.ops

end Totals

/-! ### The balance -/

/-- What `state_`, the owners and the queues have to do with each other.  The word has the flags
`ww` and `wa` and counts `n` readers; `l` operations look for a writer, `k` wake readers and `g`
settle the writer preference; `queued` says that readers are queued. -/
structure Sound (state : BitVec 64) (ww wa : Bool) (n l k g pending : ℕ) (queued : Prop) :
    Prop where
  word : state = pack ww wa n
  bound : n ≤ maxReaders
  apart : wa = true → n = 0
  waiting : 0 < pending → ww = true
  settled : ww = true → 0 < pending + g
  backed : 0 < pending → wa = true ∨ 0 < n + l
  awaited : queued → ww = true ∨ wa = true ∨ 0 < k

/-- What the holder of `internal_mutex_` knows about `state_` and the queues at its location. -/
def Pc.Knows (p : Pc ι) (ww wa : Bool) (n pending : ℕ) (queued : Prop) : Prop :=
  match p with
  | .locked .sharedPush => ww = true ∨ wa = true
  | .locked .lockRetry => ww = true
  | .locked (.lastReaderClaim _) => ww = true → wa = false ∧ n = 0
  | .locked (.unlockReaders _) => pending = 0
  | .locked (.finishAnd _) => pending = 0 ∧ wa = true
  | .locked (.finishClaim _ _) | .locked (.finishCas (some _) _ _) => pending = 0 ∧ wa = false
  | .locked (.finishCas none _ _) => pending = 0 ∧ wa = false ∧ ¬queued
  | .locked (.wakeClaim _) => ww = false
  | _ => True

/-- **What `state_` says**: the owners are those of the word with the flags `ww` and `wa`. -/
structure Balance [Fintype ι] (s : State ι) (ww wa : Bool) : Prop where
  owners : exclusives s = wa.toNat
  sound : Sound s.state ww wa (shareds s) (lookers s) (wakers s) (settlers s) s.pendingWriters
    (s.readerWaiters ≠ [])
  knows : ∀ j, (s.ops j).pc.Knows ww wa (shareds s) s.pendingWriters (s.readerWaiters ≠ [])

theorem Pc.knows_of_unlocked {p : Pc ι} (h : p.isLocked = false) (ww wa : Bool) (n pending : ℕ)
    (queued : Prop) : p.Knows ww wa n pending queued := by
  cases p with
  | locked c => simp [Pc.isLocked] at h
  | _ => trivial

/-- Between the load and the compare-exchange of `finish_writer_removal_locked`. -/
def Pc.finishing : Pc ι → Bool
  | .locked (.finishClaim _ _) | .locked (.finishCas _ _ _) => true
  | _ => false

theorem Pc.finishing_of_unlocked {p : Pc ι} (h : p.isLocked = false) : p.finishing = false := by
  cases p with
  | locked c => simp [Pc.isLocked] at h
  | _ => rfl

/-- Under `internal_mutex_`, about to count or to queue a reader. -/
def Pc.admitting : Pc ι → Bool
  | .locked .sharedLoad | .locked (.sharedCas _) | .locked (.finishCas (some _) _ _)
  | .locked (.wake _) | .locked (.wakeCas _ _) => true
  | _ => false

/-- **The guarded steps.**  No `try_lock()` succeeds while another operation is between the load and
the compare-exchange of `finish_writer_removal_locked`; and fewer than `2 ^ 62 - 1` shared
acquisitions are outstanding when one more is attempted, which is the documented precondition. -/
def Guard [Fintype ι] (s : State ι) : Label ι → Prop
  | .act i =>
    ((s.ops i).pc = .tryLock → s.state = 0#64 → ∀ j, (s.ops j).pc.finishing = false) ∧
      ((s.ops i).pc.admitting = true → shareds s < maxReaders)
  | _ => True

instance [Fintype ι] [DecidableEq ι] (s : State ι) (l : Label ι) : Decidable (Guard s l) := by
  cases l <;> unfold Guard <;> infer_instance

/-! ### What a step does to the word -/

namespace Sound

variable {st : BitVec 64} {ww wa : Bool} {n l k g p : ℕ} {q : Prop}

theorem activeWord_eq (p : ℕ) : activeWord p = pack (decide (0 < p)) true 0 := by
  unfold activeWord
  by_cases hp : 0 < p
  · simp only [hp, if_true, decide_true]
    exact active_or_waiting_eq_pack
  · simp only [hp, if_false, decide_false]
    exact active_eq_pack

/-- A writer becomes the only owner, with `p` writers left. -/
theorem activate : Sound (activeWord p) (decide (0 < p)) true 0 l k g p q where
  word := activeWord_eq p
  bound := Nat.zero_le _
  apart _ := rfl
  waiting hp := by simpa using hp
  settled hw := by have := of_decide_eq_true hw; omega
  backed _ := .inl rfl
  awaited _ := .inr (.inl rfl)

theorem free (hp : p = 0) (hq : ¬q) : Sound 0#64 false false 0 l k g p q where
  word := zero_eq_pack
  bound := Nat.zero_le _
  apart _ := rfl
  waiting hpos := by omega
  settled hw := by cases hw
  backed hpos := by omega
  awaited hq' := absurd hq' hq

/-- The word passes to a first reader. -/
theorem firstReader (hp : p = 0) (hq : q → 0 < k) : Sound 1#64 false false 1 l k g p q where
  word := one_eq_pack
  bound := by decide
  apart hwa := by cases hwa
  waiting hpos := by omega
  settled hw := by cases hw
  backed hpos := by omega
  awaited hq' := .inr (.inr (hq hq'))

theorem of_zero (h : Sound 0#64 ww wa n l k g p q) : ww = false ∧ wa = false ∧ n = 0 ∧ p = 0 := by
  have hword := h.word
  rw [zero_eq_pack, pack_inj (Nat.zero_le _) h.bound] at hword
  obtain ⟨rfl, rfl, rfl⟩ := hword
  have hwaiting := h.waiting
  refine ⟨rfl, rfl, rfl, ?_⟩
  by_contra hp
  simpa using hwaiting (by omega)

theorem take (h : Sound 0#64 ww wa n l k g p q) :
    Sound writerActive ww true n l k g p q := by
  obtain ⟨rfl, rfl, rfl, rfl⟩ := h.of_zero
  exact { h with
    word := active_eq_pack
    apart := fun _ => rfl
    backed := fun _ => .inl rfl
    awaited := fun _ => .inr (.inl rfl) }

/-- Nobody owns the word of a waiting writer. -/
theorem of_waiting (h : Sound writerWaiting ww wa n l k g p q) :
    ww = true ∧ wa = false ∧ n = 0 := by
  have hword := h.word
  rw [waiting_eq_pack, pack_inj (Nat.zero_le _) h.bound] at hword
  obtain ⟨rfl, rfl, rfl⟩ := hword
  exact ⟨rfl, rfl, rfl⟩

/-- A writer enters the queue of a word that somebody owns. -/
theorem enqueue (h : Sound st true wa n l k g p q) (hst : st ≠ writerWaiting) {g' : ℕ} :
    Sound st true wa n l k g' (p + 1) q :=
  { h with
    waiting := fun _ => rfl
    settled := fun _ => by omega
    backed := fun _ => by
      by_contra hno
      push Not at hno
      obtain ⟨hwa, hn⟩ := hno
      have hword := h.word
      rw [Ne, Bool.not_eq_true] at hwa
      rw [hwa, show n = 0 by omega, ← waiting_eq_pack] at hword
      exact hst hword }

variable (h : Sound st ww wa n l k g p q)

include h

/-- The word and the pending writers stay as they are. -/
theorem quiet {l' k' g' : ℕ} {q' : Prop} (hl : l ≤ l' ∨ p = 0 ∨ wa = true ∨ 0 < n)
    (hk : q' → q ∧ k ≤ k' ∨ ww = true ∨ wa = true ∨ 0 < k') (hg : g ≤ g' ∨ ww = false ∨ 0 < p) :
    Sound st ww wa n l' k' g' p q' where
  word := h.word
  bound := h.bound
  apart := h.apart
  waiting := h.waiting
  settled hw := by
    have hold := h.settled hw
    rcases hg with hg | hg | hg
    · omega
    · simp [hg] at hw
    · omega
  backed hp := by
    have hold := h.backed hp
    rcases hl with hl | hl | hl | hl
    · exact hold.imp_right fun hpos => by omega
    · omega
    · exact .inl hl
    · exact .inr (by omega)
  awaited hq := by
    rcases hk hq with ⟨hold, hle⟩ | hflag
    · exact (h.awaited hold).imp_right fun hrest => hrest.imp_right fun hpos => by omega
    · exact hflag

theorem admits_iff : admits st = true ↔ ww = false ∧ wa = false ∧ n < maxReaders := by
  rw [h.word, admits_pack h.bound]

theorem active_iff : st &&& writerActive = 0#64 ↔ wa = false := by
  rw [h.word, pack_and_active h.bound]

theorem waiting_iff : st &&& writerWaiting = 0#64 ↔ ww = false := by
  rw [h.word, pack_and_waiting h.bound]

theorem enter (hst : admits st = true) : Sound (st + 1#64) ww wa (n + 1) l k g p q := by
  obtain ⟨rfl, rfl, hlt⟩ := h.admits_iff.1 hst
  exact { h with
    word := by rw [h.word, pack_succ]
    bound := hlt
    apart := nofun
    backed := fun _ => .inr (by omega) }

/-- A reader leaves.  The last one that finds the writer preference set looks for a writer. -/
theorem leave (hn : 0 < n) {l' : ℕ} (hl : n = 1 → ww = true → 0 < l') :
    Sound (st - 1#64) ww wa (n - 1) l' k g p q :=
  { h with
    word := by rw [h.word, pack_pred hn]
    bound := by have := h.bound; omega
    apart := fun hwa => by have := h.apart hwa; omega
    backed := fun hp => by
      by_cases hone : n = 1
      · exact .inr (by have := hl hone (h.waiting hp); omega)
      · exact .inr (by omega) }

theorem prefer : Sound (st ||| writerWaiting) true wa n l k (g + 1) p q :=
  { h with
    word := by rw [h.word, pack_or_waiting h.bound]
    waiting := fun _ => rfl
    settled := fun _ => by omega
    awaited := fun _ => .inl rfl }

theorem dequeue {p' g' : ℕ} (hp : p' ≤ p) (hg : 0 < g') : Sound st ww wa n l k g' p' q :=
  { h with
    waiting := fun hpos => h.waiting (by omega)
    settled := fun _ => by omega
    backed := fun hpos => h.backed (by omega) }

theorem clear {l' k' g' : ℕ} {q' : Prop} (hp : p = 0) (hq : q' → wa = true ∨ 0 < k') :
    Sound (st &&& ~~~writerWaiting) false wa n l' k' g' p q' where
  word := by rw [h.word, pack_and_not_waiting h.bound]
  bound := h.bound
  apart := h.apart
  waiting hpos := by omega
  settled hw := by cases hw
  backed hpos := by omega
  awaited hq' := .inr (hq hq')

end Sound

/-! ### The totals after a step -/

section Steps

variable [Fintype ι] [DecidableEq ι] {s s' : State ι} {i : ι} {ww wa : Bool}

/-- The totals after a step that writes to one operation. -/
theorem totals_of_agree (h : ∀ j, j ≠ i → s'.ops j = s.ops j) :
    exclusives s' + (s.ops i).exclusive = exclusives s + (s'.ops i).exclusive ∧
      shareds s' + (s.ops i).shared = shareds s + (s'.ops i).shared ∧
      lookers s' + (s.ops i).looks = lookers s + (s'.ops i).looks ∧
      wakers s' + (s.ops i).wakes = wakers s + (s'.ops i).wakes ∧
      settlers s' + (s.ops i).settles = settlers s + (s'.ops i).settles :=
  ⟨total_of_agree _ fun j hj => by rw [h j hj], total_of_agree _ fun j hj => by rw [h j hj],
    total_of_agree _ fun j hj => by rw [h j hj], total_of_agree _ fun j hj => by rw [h j hj],
    total_of_agree _ fun j hj => by rw [h j hj]⟩

/-- The totals after a step of `i` that also hands the lock to `w`, a suspended waiter. -/
theorem totals_of_handOver {t : State ι} {w : ι} {f : Op ι → Op ι} {p : Pc ι}
    (hs' : s' = (t.modify w f).goto i p) (hwi : w ≠ i) (hops : t.ops = s.ops)
    (hpark : (s.ops w).pc = .parked) (hhanded : (s.ops w).handed = false)
    (hgrant : (s.ops w).call.isShared = false → (s.ops w).grantPending = false)
    (hf : (f (s.ops w)).pc = .parked ∧ (f (s.ops w)).call = (s.ops w).call ∧
      (f (s.ops w)).handed = true ∧ (f (s.ops w)).grantPending = true) :
    exclusives s' + (s.ops i).exclusive =
        exclusives s + (s'.ops i).exclusive + (if (s.ops w).call.isShared then 0 else 1) ∧
      shareds s' + (s.ops i).shared =
        shareds s + (s'.ops i).shared + (if (s.ops w).call.isShared then 1 else 0) ∧
      settlers s' + (s.ops i).settles = settlers s + (s'.ops i).settles ∧
      ∀ j, j ≠ i → (s'.ops j).pc = (s.ops j).pc := by
  have hoff : ∀ j, j ≠ i → j ≠ w → s'.ops j = s.ops j := fun j hji hjw => by
    simp [hs', hji, hjw, hops]
  have hw : s'.ops w = f (s.ops w) := by simp [hs', hwi, hops]
  have tx := total_of_agree_pair Op.exclusive hwi.symm fun j hji hjw =>
    congrArg Op.exclusive (hoff j hji hjw)
  have tn := total_of_agree_pair Op.shared hwi.symm fun j hji hjw =>
    congrArg Op.shared (hoff j hji hjw)
  have tg := total_of_agree_pair Op.settles hwi.symm fun j hji hjw =>
    congrArg Op.settles (hoff j hji hjw)
  have hx : (s'.ops w).exclusive = if (s.ops w).call.isShared then 0 else 1 := by
    rw [hw]
    cases hcall : (s.ops w).call.isShared <;> simp [Op.exclusive, hf, hcall]
  have hn : (s'.ops w).shared = if (s.ops w).call.isShared then 1 else 0 := by
    rw [hw]
    cases hcall : (s.ops w).call.isShared <;> simp [Op.shared, hf, hcall]
  have hold : (s.ops w).exclusive = 0 ∧ (s.ops w).shared = 0 ∧ (s.ops w).settles = 0 ∧
      (s'.ops w).settles = 0 := by
    cases hcall : (s.ops w).call.isShared <;>
      simp_all [Op.exclusive, Op.shared, Op.settles]
  unfold exclusives shareds settlers
  refine ⟨by omega, by omega, by omega, fun j hji => ?_⟩
  rcases eq_or_ne j w with rfl | hjw
  · rw [hw, hf.1, hpark]
  · rw [hoff j hji hjw]

omit [Fintype ι] [DecidableEq ι] in
/-- The others are outside `internal_mutex_` while `i` holds it. -/
theorem Inv.unlocked_of_held (h : Inv s) (hmutex : s.internalMutex = some i) {j : ι}
    (hji : j ≠ i) : (s.ops j).pc.isLocked = false :=
  Bool.eq_false_iff.2 (h.ok_of_held hmutex hji).mutex.2

omit [DecidableEq ι] in
/-- A step of the holder of `internal_mutex_`: the others know nothing that could change. -/
theorem Balance.of_held (h : Inv s) (hmutex : s.internalMutex = some i)
    (hpcs : ∀ j, j ≠ i → (s'.ops j).pc = (s.ops j).pc) (howners : exclusives s' = wa.toNat)
    (hsound : Sound s'.state ww wa (shareds s') (lookers s') (wakers s') (settlers s')
      s'.pendingWriters (s'.readerWaiters ≠ []))
    (hknows : (s'.ops i).pc.Knows ww wa (shareds s') s'.pendingWriters (s'.readerWaiters ≠ [])) :
    Balance s' ww wa where
  owners := howners
  sound := hsound
  knows j := by
    rcases eq_or_ne j i with rfl | hji
    · exact hknows
    · rw [hpcs j hji]
      exact Pc.knows_of_unlocked (h.unlocked_of_held hmutex hji) ..

/-- A step that leaves the word, the queues and the owners alone. -/
structure Steady (i : ι) (ww wa : Bool) (s s' : State ι) : Prop where
  ops : ∀ j, j ≠ i → s'.ops j = s.ops j
  state : s'.state = s.state
  pending : s'.pendingWriters = s.pendingWriters
  queue : s'.readerWaiters = s.readerWaiters
  exclusive : (s'.ops i).exclusive = (s.ops i).exclusive
  shared : (s'.ops i).shared = (s.ops i).shared
  looks : (s.ops i).looks ≤ (s'.ops i).looks ∨ s.pendingWriters = 0 ∨ wa = true ∨ 0 < shareds s
  wakes : (s.ops i).wakes ≤ (s'.ops i).wakes ∨ s.readerWaiters = [] ∨ ww = true ∨ wa = true
  settles : (s.ops i).settles ≤ (s'.ops i).settles ∨ ww = false ∨ 0 < s.pendingWriters
  knows : (s'.ops i).pc.Knows ww wa (shareds s) s.pendingWriters (s.readerWaiters ≠ [])

theorem Balance.quiet (b : Balance s ww wa) (i : ι) (q : Steady i ww wa s s') : Balance s' ww wa := by
  have htotals := totals_of_agree q.ops
  have hx := q.exclusive
  have hn := q.shared
  have hshareds : shareds s' = shareds s := by omega
  refine ⟨by rw [← b.owners]; omega, ?_, fun j => ?_⟩
  · rw [q.state, hshareds, q.pending, q.queue]
    refine b.sound.quiet ?_ (fun hq => ?_) ?_
    · exact q.looks.imp_left fun hle => by omega
    · rcases q.wakes with hle | hnil | hflags
      · exact .inl ⟨hq, by omega⟩
      · exact absurd hnil hq
      · exact .inr (hflags.imp_right .inl)
    · exact q.settles.imp_left fun hle => by omega
  · rw [hshareds, q.pending, q.queue]
    rcases eq_or_ne j i with rfl | hji
    · exact q.knows
    · rw [q.ops j hji]
      exact b.knows j

variable (b : Balance s ww wa) (hops : ∀ j, j ≠ i → s'.ops j = s.ops j)
  (hpending : s'.pendingWriters = s.pendingWriters) (hqueue : s'.readerWaiters = s.readerWaiters)

include b hops hpending hqueue

theorem Balance.enter (hadmits : admits s.state = true) (hst : s'.state = s.state + 1#64)
    (hx : (s'.ops i).exclusive = (s.ops i).exclusive)
    (hn : (s'.ops i).shared = (s.ops i).shared + 1)
    (hk : (s.ops i).wakes ≤ (s'.ops i).wakes) (hg : (s.ops i).settles ≤ (s'.ops i).settles)
    (hknows : (s'.ops i).pc.Knows ww wa (shareds s + 1) s.pendingWriters
      (s.readerWaiters ≠ [])) : Balance s' ww wa := by
  have htotals := totals_of_agree hops
  have hshareds : shareds s' = shareds s + 1 := by omega
  obtain ⟨hww, hwa, -⟩ := b.sound.admits_iff.1 hadmits
  refine ⟨by rw [← b.owners]; omega, ?_, fun j => ?_⟩
  · rw [hst, hshareds, hpending, hqueue]
    exact (b.sound.enter hadmits).quiet (.inr (.inr (.inr (Nat.succ_pos _))))
      (fun hq => .inl ⟨hq, by omega⟩) (.inl (by omega))
  · rw [hshareds, hpending, hqueue]
    rcases eq_or_ne j i with rfl | hji
    · exact hknows
    · -- only a last reader that found the writer preference set relies on the count
      have hj := b.knows j
      unfold Pc.Knows at hj ⊢
      split <;> simp_all

theorem Balance.leave (hst : s'.state = s.state - 1#64)
    (hx : (s'.ops i).exclusive = (s.ops i).exclusive)
    (hn : (s.ops i).shared = (s'.ops i).shared + 1)
    (hl : shareds s = 1 → ww = true → 0 < (s'.ops i).looks)
    (hk : (s.ops i).wakes ≤ (s'.ops i).wakes ∨ s.readerWaiters = [])
    (hg : (s.ops i).settles ≤ (s'.ops i).settles)
    (hknows : (s'.ops i).pc.Knows ww wa (shareds s - 1) s.pendingWriters
      (s.readerWaiters ≠ [])) : Balance s' ww wa := by
  have htotals := totals_of_agree hops
  have hshareds : shareds s' = shareds s - 1 := by omega
  have hpos : 0 < shareds s := by
    omega
  have hlook : (s'.ops i).looks ≤ lookers s' := le_total Op.looks s'.ops i
  refine ⟨by rw [← b.owners]; omega, ?_, fun j => ?_⟩
  · rw [hst, hshareds, hpending, hqueue]
    refine (b.sound.leave hpos fun hone hww => (hl hone hww).trans_le hlook).quiet
      (.inl le_rfl) (fun hq => ?_) (.inl (by omega))
    exact .inl ⟨hq, by have := hk.resolve_right hq; omega⟩
  · rw [hshareds, hpending, hqueue]
    rcases eq_or_ne j i with rfl | hji
    · exact hknows
    · have hj := b.knows j
      unfold Pc.Knows at hj ⊢
      split <;> simp_all

theorem Balance.take (hfree : s.state = 0#64)
    (hfin : ∀ j, j ≠ i → (s.ops j).pc.finishing = false) (hst : s'.state = writerActive)
    (hx : (s'.ops i).exclusive = (s.ops i).exclusive + 1)
    (hn : (s'.ops i).shared = (s.ops i).shared)
    (hknows : (s'.ops i).pc.Knows ww true (shareds s) s.pendingWriters
      (s.readerWaiters ≠ [])) : Balance s' ww true := by
  have htotals := totals_of_agree hops
  have hshareds : shareds s' = shareds s := by omega
  have hsound := b.sound
  rw [hfree] at hsound
  obtain ⟨hww, hwa, -, hp⟩ := hsound.of_zero
  refine ⟨?_, ?_, fun j => ?_⟩
  · have howners := b.owners
    rw [hwa, Bool.toNat_false] at howners
    rw [Bool.toNat_true]
    omega
  · rw [hst, hshareds, hpending]
    exact hsound.take.quiet (.inr (.inl hp)) (fun _ => .inr (.inr (.inl rfl))) (.inr (.inl hww))
  · rw [hshareds, hpending, hqueue]
    rcases eq_or_ne j i with rfl | hji
    · exact hknows
    · -- only `finish_writer_removal_locked` relies on no writer being active
      have hj := b.knows j
      have hjf := hfin j hji
      unfold Pc.Knows at hj ⊢
      unfold Pc.finishing at hjf
      split <;> simp_all

variable (h : Inv s) (hmutex : s.internalMutex = some i)

include h hmutex

/-- A step of the holder of `internal_mutex_` that clears the writer preference. -/
theorem Balance.clear (hnone : s.pendingWriters = 0) (hawaited : s.readerWaiters ≠ [] → wa = true)
    (hst : s'.state = s.state &&& ~~~writerWaiting)
    (hx : (s'.ops i).exclusive = (s.ops i).exclusive) (hn : (s'.ops i).shared = (s.ops i).shared)
    (hunlocked : (s'.ops i).pc.isLocked = false) : Balance s' false wa := by
  obtain ⟨tx, tn, -, -, -⟩ := totals_of_agree hops
  have hshareds : shareds s' = shareds s := by omega
  refine Balance.of_held h hmutex (fun j hji => by rw [hops j hji]) (by rw [← b.owners]; omega) ?_
    (Pc.knows_of_unlocked hunlocked ..)
  rw [hst, hshareds, hpending, hqueue]
  exact b.sound.clear hnone fun hq => .inl (hawaited hq)

omit hqueue in
/-- A step of the holder of `internal_mutex_` that only moves readers in or out of their queue. -/
theorem Balance.requeue (hst : s'.state = s.state)
    (hqueue : s'.readerWaiters ≠ [] →
      s.readerWaiters ≠ [] ∧ (s.ops i).wakes ≤ (s'.ops i).wakes ∨ ww = true ∨ wa = true)
    (hx : (s'.ops i).exclusive = (s.ops i).exclusive) (hn : (s'.ops i).shared = (s.ops i).shared)
    (hl : (s.ops i).looks ≤ (s'.ops i).looks) (hg : (s.ops i).settles ≤ (s'.ops i).settles)
    (hknows : (s'.ops i).pc.Knows ww wa (shareds s) s.pendingWriters (s'.readerWaiters ≠ [])) :
    Balance s' ww wa := by
  have htotals := totals_of_agree hops
  have hshareds : shareds s' = shareds s := by omega
  refine Balance.of_held h hmutex (fun j hji => by rw [hops j hji]) (by rw [← b.owners]; omega) ?_ ?_
  · rw [hst, hshareds, hpending]
    refine b.sound.quiet (.inl (by omega)) (fun hq => ?_) (.inl (by omega))
    rcases hqueue hq with ⟨hold, hle⟩ | hflags
    · exact .inl ⟨hold, by omega⟩
    · exact .inr (hflags.imp_right .inl)
  · rw [hshareds, hpending]
    exact hknows

omit hpending in
/-- A step of the holder of `internal_mutex_` that takes a writer out of the queue, and goes on to
settle the writer preference. -/
theorem Balance.dequeue (hst : s'.state = s.state)
    (hpending : s'.pendingWriters ≤ s.pendingWriters)
    (hx : (s'.ops i).exclusive = (s.ops i).exclusive) (hn : (s'.ops i).shared = (s.ops i).shared)
    (hl : (s.ops i).looks ≤ (s'.ops i).looks) (hk : (s.ops i).wakes ≤ (s'.ops i).wakes)
    (hg : 0 < (s'.ops i).settles)
    (hknows : (s'.ops i).pc.Knows ww wa (shareds s) s'.pendingWriters (s.readerWaiters ≠ [])) :
    Balance s' ww wa := by
  obtain ⟨tx, tn, tl, tk, -⟩ := totals_of_agree hops
  have hshareds : shareds s' = shareds s := by omega
  have hsettle : (s'.ops i).settles ≤ settlers s' := le_total Op.settles s'.ops i
  refine Balance.of_held h hmutex (fun j hji => by rw [hops j hji]) (by rw [← b.owners]; omega) ?_ ?_
  · rw [hst, hshareds, hqueue]
    exact (b.sound.dequeue hpending (hg.trans_le hsettle)).quiet (.inl (by omega))
      (fun hq => .inl ⟨hq, by omega⟩) (.inl le_rfl)
  · rw [hshareds, hqueue]
    exact hknows

end Steps

end Elio.SharedMutex
