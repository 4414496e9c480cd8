/-
**The object cache: exclusive release.**

A release that finds other borrows registers in the waiter slot of its entry, and the operation that
drops the last borrow but one takes it from there and schedules it: `Waits` says that
such a waiter is never lost.  That the released object is nobody else's is another matter.
`borrow::reset` decides from the count that its own `fetch_sub` returned, and calls `take()` later.
In between, `get` may borrow the entry again and a release may register; the late `take()` then
wakes it although two borrows are left (`released_while_borrowed`).  When every `take()` that
finds a waiter finds the count at one, the release is exclusive.

Main definitions:

* `Waits` — what holds of waiting releases, in every reachable state;
* `Guard` — the steps that keep the release exclusive;
* `Sole` — who goes through with a release holds the last borrow.

Main results:

* `waits_of_reachable`, `sole_of_reachable`;
* `exclusive_release` — **a release that moves the object out holds the only borrow, at most one
  release obtains it, and a release that waits is woken**, in every guarded run.
-/

import Elio.ObjectCacheInvariant

set_option autoImplicit false

namespace Elio.ObjectCache

open PartyTotal

variable {κ ι : Type*} [DecidableEq κ] [DecidableEq ι]

/-! ### What a step can do -/

/-- The locations of a waiter, and of those who wake it. -/
def Pc.wakes : Pc ι → Bool
  | .suspended _ | .take _ | .claim _ _ | .schedule _ => true
  | _ => false

/-- The entry an operation is through waiting for. -/
def Pc.sole : Pc ι → Option ι
  | .unregister e | .moveValue e | .decrement e => some e
  | _ => none

/-- Where an operation can be after its coroutine was scheduled. -/
def Pc.woken : Pc ι → Bool
  | .suspended _ | .unregister _ | .moveValue _ | .decrement _ | .done => true
  | _ => false

/-- What a step of `i` does when it does not deal with a waiter. -/
structure Effect (i : ι) (s s' : State κ ι) : Prop where
  ops : ∀ j, j ≠ i → s'.ops j = s.ops j
  scheduled : (s'.ops i).scheduled = (s.ops i).scheduled
  woken : (s.ops i).pc.woken = true → (s'.ops i).pc.woken = true
  slots : ∀ e, (s'.entries e).releaseWaiter = (s.entries e).releaseWaiter ∨
    (s'.entries e).releaseWaiter = (s.entries e).releaseWaiter.remove i ∨
    e = i ∧ (s.ops i).pc.early = true ∧ (s'.entries e).releaseWaiter = .empty
  before : (s.ops i).pc.wakes = false
  after : (s'.ops i).pc.wakes = true → ∃ e, (s'.ops i).pc = .take e
  enters : ∀ e, (s'.ops i).pc.borrowed = some e → (s.ops i).pc.borrowed = some e ∨
    (∃ k, s.index k = some e) ∨ (s.ops i).pc.building = some e
  leaves : ∀ e, (s.ops i).pc.borrowed = some e → (s'.ops i).pc.borrowed = some e ∨
    (s.ops i).pc = .decrement e ∨
    (s.ops i).pc = .drop e ∧ ((s.entries e).refcount = 2 → (s'.ops i).pc = .take e)
  sole : ∀ e, (s'.ops i).pc.sole = some e →
    (s.ops i).pc.sole = some e ∨ (s.ops i).pc.borrowed = some e ∧ (s.entries e).refcount ≤ 1

variable {cfg : Config κ ι} {s s' : State κ ι} {i e : ι}

attribute [local grind] Pc.borrowed Pc.early Pc.building Pc.wakes Pc.sole Pc.woken

attribute [local grind] create borrow lookup readState recheck addRef publish signal failState
  failSignal failErase markEvict evictIndex request unindex checkCount awaitReady unregister
  moveValue decrement drop forceCheck enqueue

theorem lookup_effect (hpc : (s.ops i).pc = .lookup) : Effect i s (lookup cfg s i) := by
  unfold lookup
  split
  next => constructor <;> grind [Entry.fresh]
  next e hindex =>
    split
    next =>
      split
      next => constructor <;> grind [Entry.fresh]
      next => constructor <;> grind
    next => constructor <;> grind [Entry.fresh]
    next => constructor <;> grind

theorem act_effect (hact : act cfg s i = some s') (hpc : (s.ops i).pc.wakes = false)
    (hregister : ∀ e, (s.ops i).pc ≠ .register e) : Effect i s s' := by
  unfold act at hact
  split at hact <;> try cases hact
  case h_5 hpc => exact lookup_effect hpc
  all_goals constructor <;> grind

omit [DecidableEq κ] in
/-- The steps of a caller between its steps inside the cache. -/
theorem goto_effect {p p' : Pc ι} (hpc : (s.ops i).pc = p)
    (hp : (p.wakes, p.woken, p'.wakes, p'.sole) = (false, false, false, none))
    (hborrowed : p'.borrowed = p.borrowed) : Effect i s (s.goto i p') := by
  simp only [Prod.mk.injEq] at hp
  constructor <;> grind

variable [Fintype ι] {j : ι}

/-! ### Waiting releases -/

section

omit [DecidableEq κ]

/-- **What holds of waiting releases.** -/
structure Waits (s : State κ ι) : Prop where
  waiter : ∀ e w, (s.entries e).releaseWaiter.waiter = some w →
    (s.ops w).pc = .suspended e ∧ (s.ops w).scheduled = false
  selected : ∀ e, (s.entries e).releaseWaiter.selected = true →
    (∃ w, (s.entries e).releaseWaiter.waiter = some w ∧
      (s.entries e).releaseWaiter.selectedHandle = some w) ∧
    ∃ j, (s.ops j).pc = .claim e (some (s.entries e).releaseWaiter.generation)
  suspended : ∀ w e, (s.ops w).pc = .suspended e →
    (s.entries e).releaseWaiter.waiter = some w ∨ (s.ops w).scheduled = true ∨
      ∃ j, (s.ops j).pc = .schedule w
  scheduler : ∀ j w, (s.ops j).pc = .schedule w → (s.ops w).scheduled = false ∧
    ∃ e, (s.ops w).pc = .suspended e ∧ (s.entries e).releaseWaiter.waiter ≠ some w
  unique : ∀ j l w, (s.ops j).pc = .schedule w → (s.ops l).pc = .schedule w → j = l
  scheduled : ∀ w, (s.ops w).scheduled = true → (s.ops w).pc.woken = true
  last : ∀ e w, (s.entries e).releaseWaiter.waiter = some w →
    (s.entries e).releaseWaiter.selected = false → (s.entries e).refcount = 1 →
    ∃ j, (s.ops j).pc = .take e

/-- **Who goes through with a release holds the last borrow**, and so does a waiter that is being
woken. -/
structure Sole (s : State κ ι) : Prop where
  sole : ∀ i e, (s.ops i).pc.sole = some e → (s.entries e).refcount = 1
  selected : ∀ e, (s.entries e).releaseWaiter.selected = true → (s.entries e).refcount = 1
  claimed : ∀ i e, (s.ops i).pc = .suspended e → (s.entries e).releaseWaiter.waiter ≠ some i →
    (s.entries e).refcount = 1

theorem Inv.two_le_refcount (h : Inv cfg s) (hji : j ≠ i)
    (hi : (s.ops i).pc.borrowed = some e) (hj : (s.ops j).pc.borrowed = some e) :
    2 ≤ (s.entries e).refcount := by
  have hle : (s.ops i).borrows e + (s.ops j).borrows e ≤ borrowers s e :=
    add_le_total _ _ hji.symm
  simp only [Op.borrows, hi, hj, if_true] at hle
  rw [h.count]
  omega

theorem Inv.one_le_refcount (h : Inv cfg s) (hi : (s.ops i).pc.borrowed = some e) :
    1 ≤ (s.entries e).refcount := by
  have hle : (s.ops i).borrows e ≤ borrowers s e := le_total (Op.borrows e) s.ops i
  simp only [Op.borrows, hi, if_true] at hle
  rw [h.count]
  omega

/-- The count changes with the borrow of the operation that takes the step. -/
theorem refcount_of_agree (h : Inv cfg s) (h' : Inv cfg s')
    (hops : ∀ j, j ≠ i → s'.ops j = s.ops j) (e : ι) :
    (s'.entries e).refcount + (s.ops i).borrows e =
      (s.entries e).refcount + (s'.ops i).borrows e := by
  have htot := borrowers_of_agree hops e
  rw [h.count, h'.count]
  omega

omit [DecidableEq ι] [Fintype ι] in
theorem Pc.borrowed_of_unindexed {p : Pc ι} (h : p.unindexed = some e) :
    p.borrowed = some e ∧ p ≠ .publish e ∧ p.releasing = some e := by
  cases p <;> simp_all [Pc.unindexed, Pc.borrowed, Pc.releasing]

theorem Inv.releaser_unique (h : Inv cfg s) (hi : (s.ops i).pc.releasing = some e)
    (hj : (s.ops j).pc.releasing = some e) : i = j := by
  have hby := (h.op i).releasing e hi
  rw [(h.op j).releasing e hj] at hby
  exact (Option.some.inj hby).symm

omit [Fintype ι] in
theorem Effect.ne_of_wakes (f : Effect i s s') (hj : (s.ops j).pc.wakes = true) : j ≠ i :=
  fun hji => by rw [hji, f.before] at hj; cases hj

omit [Fintype ι] in
/-- Operations that deal with a waiter are not affected. -/
theorem Effect.ops_of_wakes (f : Effect i s s') (hj : (s.ops j).pc.wakes = true) :
    s'.ops j = s.ops j :=
  f.ops j (f.ne_of_wakes hj)

omit [Fintype ι] in
/-- No operation begins to wait or to schedule. -/
theorem Effect.ops_of_after (f : Effect i s s')
    (hj : (∃ v, (s'.ops j).pc = .schedule v) ∨ ∃ e, (s'.ops j).pc = .suspended e) :
    s'.ops j = s.ops j := by
  refine f.ops j ?_
  rintro rfl
  obtain ⟨v, hv⟩ | ⟨e, he⟩ := hj
  · obtain ⟨e', htake⟩ := f.after (by rw [hv]; rfl)
    rw [hv] at htake
    cases htake
  · obtain ⟨e', htake⟩ := f.after (by rw [he]; rfl)
    rw [he] at htake
    cases htake

omit [DecidableEq ι] [Fintype ι] in
theorem Pc.unindexed_of_sole {p : Pc ι} (h : p.sole = some e) : p.unindexed = some e := by
  cases p <;> simp_all [Pc.sole, Pc.unindexed]

section

variable (f : Effect i s s') (h : Inv cfg s)

include f h

/-- An entry that was taken out of the index for its release is not borrowed again. -/
theorem Effect.not_enters {w : ι} (hw : (s.ops w).pc.unindexed = some e)
    (hi : (s'.ops i).pc.borrowed = some e) : (s.ops i).pc.borrowed = some e := by
  obtain ⟨hborrowed, hpublish, -⟩ := Pc.borrowed_of_unindexed hw
  rcases f.enters e hi with hold | ⟨k, hk⟩ | hbuilding
  · exact hold
  · exact absurd hk ((h.op w).unindexed e k hw)
  · have hready := ((h.op w).borrowed e hborrowed).resolve_left hpublish
    rw [(h.op i).building e hbuilding] at hready
    cases hready

/-- The last borrow of such an entry stays the last one while its holder does not move. -/
theorem Effect.refcount_eq_one (h' : Inv cfg s') {w : ι} (hwi : w ≠ i)
    (hw : (s.ops w).pc.unindexed = some e) (hone : (s.entries e).refcount = 1) :
    (s'.entries e).refcount = 1 := by
  have hcnt := refcount_of_agree h h' f.ops e
  have hborrowed := (Pc.borrowed_of_unindexed hw).1
  have hi : (s.ops i).pc.borrowed ≠ some e := fun hi => by
    have htwo := h.two_le_refcount hwi hi hborrowed
    omega
  have hi' : (s'.ops i).pc.borrowed ≠ some e := fun hi' => hi (f.not_enters h hw hi')
  simp only [Op.borrows, hi, hi', if_false] at hcnt
  omega

/-- The slots stay as they are, but for a new entry. -/
theorem Effect.slot (w : Waits s) (e : ι) :
    (s'.entries e).releaseWaiter = (s.entries e).releaseWaiter ∨
      (s'.entries e).releaseWaiter = .empty ∧ (s.entries e).releaseWaiter.waiter = none := by
  rcases f.slots e with hsame | hremove | ⟨rfl, hearly, hemp⟩
  · exact .inl hsame
  · -- a waiter that is not suspended is not registered
    refine .inl (hremove.trans (CompletionSlot.remove_of_ne fun hwaiter => ?_))
    exact f.ne_of_wakes (j := i) (by rw [(w.waiter e i hwaiter).1]; rfl) rfl
  · refine .inr ⟨hemp, ?_⟩
    by_contra hwaiter
    obtain ⟨v, hv⟩ := Option.ne_none_iff_exists'.1 hwaiter
    rw [h.known v e (by rw [(w.waiter e v hv).1]; rfl)] at hearly
    cases hearly

theorem Effect.slot_of_waiter (w : Waits s) {v : ι}
    (hv : (s'.entries e).releaseWaiter.waiter = some v) :
    (s'.entries e).releaseWaiter = (s.entries e).releaseWaiter := by
  rcases f.slot h w e with hsame | ⟨hemp, -⟩
  · exact hsame
  · rw [hemp] at hv
    cases hv

/-- Who drops the last borrow but one goes on to look for the waiter. -/
theorem Effect.last (h' : Inv cfg s') (w : Waits s) {v : ι}
    (hv : (s.entries e).releaseWaiter.waiter = some v)
    (hs : (s.entries e).releaseWaiter.selected = false) (hone : (s'.entries e).refcount = 1) :
    ∃ j, (s'.ops j).pc = .take e := by
  obtain ⟨hsusp, -⟩ := w.waiter e v hv
  by_cases hold : (s.entries e).refcount = 1
  · obtain ⟨j, hj⟩ := w.last e v hv hs hold
    exact ⟨j, by rw [f.ops_of_wakes (by rw [hj]; rfl), hj]⟩
  · have hcnt := refcount_of_agree h h' f.ops e
    have hpos := h.one_le_refcount (i := v) (e := e) (by rw [hsusp]; rfl)
    have hi : (s.ops i).pc.borrowed = some e := by
      by_contra hi
      simp only [Op.borrows, hi, if_false] at hcnt
      omega
    have hi' : (s'.ops i).pc.borrowed ≠ some e := fun hi' => by
      simp only [Op.borrows, hi, hi', if_true] at hcnt
      omega
    simp only [Op.borrows, hi, hi', if_true, if_false] at hcnt
    rcases f.leaves e hi with hkeep | hdecrement | ⟨-, htake⟩
    · exact absurd hkeep hi'
    · have hvi := h.releaser_unique (i := v) (e := e) (by rw [hsusp]; rfl)
        (by rw [hdecrement]; rfl)
      rw [hvi, hdecrement] at hsusp
      cases hsusp
    · exact ⟨i, htake (by omega)⟩

/-- Steps that do not deal with a waiter keep what holds of waiting releases. -/
theorem Effect.waits (h' : Inv cfg s') (w : Waits s) : Waits s' where
  waiter e v hv := by
    rw [f.slot_of_waiter h w hv] at hv
    have hold := w.waiter e v hv
    rw [f.ops_of_wakes (by rw [hold.1]; rfl)]
    exact hold
  selected e hs := by
    rcases f.slot h w e with hsame | ⟨hemp, -⟩
    · rw [hsame] at hs ⊢
      obtain ⟨hhandle, j, hj⟩ := w.selected e hs
      exact ⟨hhandle, j, by rw [f.ops_of_wakes (by rw [hj]; rfl), hj]⟩
    · rw [hemp] at hs
      cases hs
  suspended v e hv := by
    have hops := f.ops_of_after (.inr ⟨e, hv⟩)
    rw [hops] at hv ⊢
    rcases w.suspended v e hv with hwait | hsched | ⟨j, hj⟩
    · rcases f.slot h w e with hsame | ⟨-, hnone⟩
      · exact .inl (by rw [hsame, hwait])
      · rw [hnone] at hwait
        cases hwait
    · exact .inr (.inl hsched)
    · exact .inr (.inr ⟨j, by rw [f.ops_of_wakes (by rw [hj]; rfl), hj]⟩)
  scheduler j v hj := by
    rw [f.ops_of_after (.inl ⟨v, hj⟩)] at hj
    obtain ⟨hsched, e, hv, hne⟩ := w.scheduler j v hj
    rw [f.ops_of_wakes (j := v) (by rw [hv]; rfl)]
    refine ⟨hsched, e, hv, fun hwait => hne ?_⟩
    rw [← f.slot_of_waiter h w hwait, hwait]
  unique j l v hj hl := by
    rw [f.ops_of_after (.inl ⟨v, hj⟩)] at hj
    rw [f.ops_of_after (.inl ⟨v, hl⟩)] at hl
    exact w.unique j l v hj hl
  scheduled v hv := by
    rcases eq_or_ne v i with rfl | hvi
    · rw [f.scheduled] at hv
      exact f.woken (w.scheduled v hv)
    · rw [f.ops v hvi] at hv ⊢
      exact w.scheduled v hv
  last e v hv hs hone := by
    have hsame := f.slot_of_waiter h w hv
    rw [hsame] at hv hs
    exact f.last h h' w hv hs hone

/-- Steps that do not deal with a waiter keep the last borrow the last one. -/
theorem Effect.keeps_sole (h' : Inv cfg s') (w : Waits s) (o : Sole s) : Sole s' where
  sole j e hj := by
    rcases eq_or_ne j i with rfl | hji
    · have hone : (s.ops j).pc.borrowed = some e ∧ (s.entries e).refcount = 1 := by
        rcases f.sole e hj with hold | ⟨hborrowed, hle⟩
        · exact ⟨(Pc.borrowed_of_unindexed (Pc.unindexed_of_sole hold)).1, o.sole j e hold⟩
        · exact ⟨hborrowed, le_antisymm hle (h.one_le_refcount hborrowed)⟩
      have hcnt := refcount_of_agree h h' f.ops e
      have hborrowed' := (Pc.borrowed_of_unindexed (Pc.unindexed_of_sole hj)).1
      simp only [Op.borrows, hone.1, hborrowed', if_true] at hcnt
      omega
    · rw [f.ops j hji] at hj
      exact f.refcount_eq_one h h' hji (Pc.unindexed_of_sole hj) (o.sole j e hj)
  selected e hs := by
    rcases f.slot h w e with hsame | ⟨hemp, -⟩
    · rw [hsame] at hs
      obtain ⟨⟨v, hv, -⟩, -⟩ := w.selected e hs
      obtain ⟨hsusp, -⟩ := w.waiter e v hv
      exact f.refcount_eq_one h h' (f.ne_of_wakes (j := v) (by rw [hsusp]; rfl))
        (by rw [hsusp]; rfl) (o.selected e hs)
    · rw [hemp] at hs
      cases hs
  claimed j e hj hne := by
    have hops := f.ops_of_after (.inr ⟨e, hj⟩)
    rw [hops] at hj
    have hne' : (s.entries e).releaseWaiter.waiter ≠ some j := by
      rcases f.slot h w e with hsame | ⟨-, hnone⟩
      · rwa [← hsame]
      · simp [hnone]
    exact f.refcount_eq_one h h' (f.ne_of_wakes (j := j) (by rw [hj]; rfl)) (by rw [hj]; rfl)
      (o.claimed j e hj hne')

end

omit [DecidableEq ι] [Fintype ι] in
theorem Quiet.sole (q : Quiet s s') (o : Sole s) : Sole s' := by
  have hslot := fun e => (q.entries e).releaseWaiter
  have hcnt := fun e => (q.entries e).refcount
  constructor <;> simp only [q.ops, hslot, hcnt]
  exacts [o.sole, o.selected, o.claimed]

omit [DecidableEq ι] [Fintype ι] in
theorem Quiet.waits (q : Quiet s s') (w : Waits s) : Waits s' := by
  have hslot := fun e => (q.entries e).releaseWaiter
  have hcnt := fun e => (q.entries e).refcount
  constructor <;> simp only [q.ops, hslot, hcnt]
  exacts [w.waiter, w.selected, w.suspended, w.scheduler, w.unique, w.scheduled, w.last]

/-! ### The steps that deal with a waiter -/

theorem Waits.slot_empty (w : Waits s) (h : Inv cfg s) (hi : (s.ops i).pc.releasing = some e)
    (hpc : (s.ops i).pc ≠ .suspended e) : (s.entries e).releaseWaiter.waiter = none := by
  by_contra hwaiter
  obtain ⟨v, hv⟩ := Option.ne_none_iff_exists'.1 hwaiter
  obtain ⟨hsusp, -⟩ := w.waiter e v hv
  have hvi := h.releaser_unique (i := v) (e := e) (by rw [hsusp]; rfl) hi
  exact hpc (hvi ▸ hsusp)

omit [DecidableEq ι] [Fintype ι] in
theorem Waits.not_selected (w : Waits s) (hnone : (s.entries e).releaseWaiter.waiter = none) :
    (s.entries e).releaseWaiter.selected = false := by
  by_contra hs
  obtain ⟨⟨v, hv, -⟩, -⟩ := w.selected e (by simpa using hs)
  rw [hnone] at hv
  cases hv

theorem register_waits (h : Inv cfg s) (h' : Inv cfg (register s i e)) (w : Waits s)
    (hpc : (s.ops i).pc = .register e) :
    Waits (register s i e) ∧ (Sole s → Sole (register s i e)) := by
  have hnone := w.slot_empty h (by rw [hpc]; rfl) (by simp [hpc])
  by_cases hone : (s.entries e).refcount = 1
  · have hstay : (s.entries e).releaseWaiter.registerWaiter i
        (decide ((s.entries e).refcount = 1)) = ((s.entries e).releaseWaiter, false) := by
      simp [CompletionSlot.registerWaiter, hone]
    have f : Effect i s (register s i e) := by
      constructor <;> grind [register]
    exact ⟨f.waits h h' w, f.keeps_sole h h' w⟩
  · have hidle := w.not_selected hnone
    have hasleep : (s.ops i).scheduled = false := Bool.eq_false_iff.2 fun hs => by
      have hwoken := w.scheduled i hs
      rw [hpc] at hwoken
      cases hwoken
    generalize hs' : register s i e = s'
    have hops : ∀ j, s'.ops j = if j = i then ⟨.suspended e, false, (s.ops i).obtained⟩
        else s.ops j := fun j => by
      simp [← hs', register, CompletionSlot.registerWaiter, hone, hnone, hasleep]
    have hslots : ∀ e', (s'.entries e').releaseWaiter = if e' = e then
        ⟨some i, (s.entries e).releaseWaiter.selectedHandle, (s.entries e).releaseWaiter.generation⟩
        else (s.entries e').releaseWaiter := fun e' => by
      by_cases he : e' = e <;>
        simp [← hs', register, CompletionSlot.registerWaiter, hone, hnone, he]
    have hrefcount : ∀ e', (s'.entries e').refcount = (s.entries e').refcount := fun e' => by
      by_cases he : e' = e <;> simp [← hs', register, he]
    have hidle' : (s'.entries e).releaseWaiter.selected = false := by
      rw [hslots, if_pos rfl]
      exact hidle
    clear hs' h h'
    refine ⟨?_, fun o => ?_⟩
    · cases w
      constructor <;> grind
    · cases o
      constructor <;> grind

omit [Fintype ι] in
theorem takeWaiter_waits (w : Waits s) (hpc : (s.ops i).pc = .take e) :
    Waits (takeWaiter s i e) ∧
      (Sole s → ((s.entries e).releaseWaiter.waiter ≠ none → (s.entries e).refcount = 1) →
        Sole (takeWaiter s i e)) := by
  generalize hs' : takeWaiter s i e = s'
  have hrefcount : ∀ e', (s'.entries e').refcount = (s.entries e').refcount := fun e' => by
    by_cases he : e' = e <;> simp [← hs', takeWaiter, he]
  by_cases hidle : (s.entries e).releaseWaiter.waiter = none ∨
      (s.entries e).releaseWaiter.selected = true
  · have htake := CompletionSlot.take_of_idle hidle
    have hops : ∀ j, s'.ops j = if j = i then ⟨.claim e none, (s.ops i).scheduled,
        (s.ops i).obtained⟩ else s.ops j := fun j => by
      simp [← hs', takeWaiter, htake]
    have hslots : ∀ e', (s'.entries e').releaseWaiter = (s.entries e').releaseWaiter := fun e' => by
      by_cases he : e' = e <;> simp [← hs', takeWaiter, htake, he]
    clear hs'
    refine ⟨?_, fun o hguard => ?_⟩
    · cases w
      constructor <;> grind
    · cases o
      constructor <;> grind
  · obtain ⟨hsome, hfree⟩ := not_or.1 hidle
    obtain ⟨v, hv⟩ := Option.ne_none_iff_exists'.1 hsome
    have hfree : (s.entries e).releaseWaiter.selected = false := by simpa using hfree
    have htake := CompletionSlot.take_of_waiting hv hfree
    have hops : ∀ j, s'.ops j = if j = i then
        ⟨.claim e (some ((s.entries e).releaseWaiter.generation + 1)), (s.ops i).scheduled,
          (s.ops i).obtained⟩ else s.ops j := fun j => by
      simp [← hs', takeWaiter, htake]
    have hslots : ∀ e', (s'.entries e').releaseWaiter = if e' = e then
        ⟨some v, some v, (s.entries e).releaseWaiter.generation + 1⟩
        else (s.entries e').releaseWaiter := fun e' => by
      by_cases he : e' = e <;> simp [← hs', takeWaiter, htake, he]
    have hsel : (s'.entries e).releaseWaiter.selected = true := by
      rw [hslots, if_pos rfl, CompletionSlot.selected_succ, hfree]
      rfl
    clear hs'
    refine ⟨?_, fun o hguard => ?_⟩
    · cases w
      constructor <;> grind
    · cases o
      constructor <;> grind

omit [Fintype ι] in
theorem claimWaiter_waits (w : Waits s) {lease : Option ℕ} (hpc : (s.ops i).pc = .claim e lease) :
    Waits (claimWaiter s i e lease) ∧ (Sole s → Sole (claimWaiter s i e lease)) := by
  generalize hs' : claimWaiter s i e lease = s'
  have hrefcount : ∀ e', (s'.entries e').refcount = (s.entries e').refcount := fun e' => by
    by_cases he : e' = e <;> cases lease <;> simp [← hs', claimWaiter, he]
  by_cases hgo : (s.entries e).releaseWaiter.selected = true ∧
      lease = some (s.entries e).releaseWaiter.generation
  · obtain ⟨hsel, rfl⟩ := hgo
    have hclaim := CompletionSlot.claim_of_selected hsel
    obtain ⟨⟨v, hv, hhandle⟩, -⟩ := w.selected e hsel
    rw [hhandle] at hclaim
    have hops : ∀ j, s'.ops j = if j = i then ⟨.schedule v, (s.ops i).scheduled,
        (s.ops i).obtained⟩ else s.ops j := fun j => by
      simp [← hs', claimWaiter, hclaim, Pc.afterClaim]
    have hslots : ∀ e', (s'.entries e').releaseWaiter = if e' = e then
        ⟨none, none, (s.entries e).releaseWaiter.generation + 1⟩
        else (s.entries e').releaseWaiter := fun e' => by
      by_cases he : e' = e <;> simp [← hs', claimWaiter, hclaim, he]
    have hfree : (s'.entries e).releaseWaiter.selected = false := by
      rw [hslots, if_pos rfl, CompletionSlot.selected_succ, hsel]
      rfl
    clear hs'
    refine ⟨?_, fun o => ?_⟩
    · cases w
      constructor <;> grind
    · cases o
      constructor <;> grind
  · -- an empty or a stale lease
    have hstale : ∀ g, lease = some g → (s.entries e).releaseWaiter.claim g =
        ((s.entries e).releaseWaiter, none) := fun g hg => by
      refine CompletionSlot.claim_of_stale ?_
      grind
    have hops : ∀ j, s'.ops j = if j = i then ⟨.done, (s.ops i).scheduled, (s.ops i).obtained⟩
        else s.ops j := fun j => by
      cases lease with
      | none => simp [← hs', claimWaiter]
      | some g => simp [← hs', claimWaiter, hstale g rfl, Pc.afterClaim]
    have hslots : ∀ e', (s'.entries e').releaseWaiter = (s.entries e').releaseWaiter := fun e' => by
      cases lease with
      | none => simp [← hs', claimWaiter]
      | some g => by_cases he : e' = e <;> simp [← hs', claimWaiter, hstale g rfl, he]
    clear hs' hstale
    refine ⟨?_, fun o => ?_⟩
    · cases w
      constructor <;> grind
    · cases o
      constructor <;> grind

omit [Fintype ι] in
theorem scheduleHandle_waits (w : Waits s) {v : ι} (hpc : (s.ops i).pc = .schedule v) :
    Waits (scheduleHandle s i v) ∧ (Sole s → Sole (scheduleHandle s i v)) := by
  generalize hs' : scheduleHandle s i v = s'
  have hvi : v ≠ i := by
    rintro rfl
    obtain ⟨-, e, hv, -⟩ := w.scheduler v v hpc
    rw [hpc] at hv
    cases hv
  have hents : ∀ e', s'.entries e' = s.entries e' := fun e' => by rw [← hs']; rfl
  have hops : ∀ j, s'.ops j = if j = i then ⟨.done, (s.ops i).scheduled, (s.ops i).obtained⟩
      else if j = v then ⟨(s.ops v).pc, true, (s.ops v).obtained⟩ else s.ops j := fun j => by
    by_cases hj : j = i <;> simp [← hs', scheduleHandle, hj, hvi.symm]
  clear hs'
  refine ⟨?_, fun o => ?_⟩
  · cases w
    constructor <;> grind
  · cases o
    constructor <;> grind

omit [Fintype ι] in
theorem resume_waits (w : Waits s) (hpc : (s.ops i).pc = .suspended e)
    (hsched : (s.ops i).scheduled = true) :
    Waits (s.goto i (.unregister e)) ∧ (Sole s → Sole (s.goto i (.unregister e))) := by
  generalize hs' : s.goto i (.unregister e) = s'
  have hents : ∀ e', s'.entries e' = s.entries e' := fun e' => by rw [← hs']; rfl
  have hops : ∀ j, s'.ops j = if j = i then ⟨.unregister e, true, (s.ops i).obtained⟩
      else s.ops j := fun j => by
    simp [← hs', hsched]
  have hleft : (s.entries e).releaseWaiter.waiter ≠ some i := fun hwaiter => by
    have hasleep := (w.waiter e i hwaiter).2
    rw [hsched] at hasleep
    cases hasleep
  clear hs'
  refine ⟨?_, fun o => ?_⟩
  · cases w
    constructor <;> grind
  · cases o
    constructor <;> grind

end

/-! ### Every reachable state, and every guarded run -/

/-- **The guarded steps.**  A drop that takes the waiter of a release finds the count at one. -/
def Guard (s : State κ ι) : Label κ ι → Prop
  | .act i => ∀ e, (s.ops i).pc = .take e → (s.entries e).releaseWaiter.waiter ≠ none →
      (s.entries e).refcount = 1
  | _ => True

instance (s : State κ ι) (l : Label κ ι) : Decidable (Guard s l) := by
  cases l <;> unfold Guard <;> infer_instance

theorem act_waits (h : Inv cfg s) (w : Waits s) (hact : act cfg s i = some s') :
    Waits s' ∧ (Sole s → Guard (κ := κ) s (.act i) → Sole s') := by
  have h' := act_inv h hact
  by_cases hwakes : (s.ops i).pc.wakes = false ∧ ∀ e, (s.ops i).pc ≠ .register e
  · have f := act_effect hact hwakes.1 hwakes.2
    exact ⟨f.waits h h' w, fun o _ => f.keeps_sole h h' w o⟩
  · unfold act at hact
    split at hact <;> try cases hact
    case h_21 e hpc =>
      obtain ⟨hw, ho⟩ := register_waits h h' w hpc
      exact ⟨hw, fun o _ => ho o⟩
    case h_22 e hpc =>
      split at hact <;> cases hact
      obtain ⟨hw, ho⟩ := resume_waits w hpc ‹_›
      exact ⟨hw, fun o _ => ho o⟩
    case h_27 e hpc =>
      obtain ⟨hw, ho⟩ := takeWaiter_waits w hpc
      exact ⟨hw, fun o hguard => ho o (hguard e hpc)⟩
    case h_28 e lease hpc =>
      obtain ⟨hw, ho⟩ := claimWaiter_waits w hpc
      exact ⟨hw, fun o _ => ho o⟩
    case h_29 v hpc =>
      obtain ⟨hw, ho⟩ := scheduleHandle_waits w hpc
      exact ⟨hw, fun o _ => ho o⟩
    all_goals
      next hpc => simp [hpc, Pc.wakes] at hwakes

omit [DecidableEq κ] [Fintype ι] in
theorem leaveHolding_effect {next : ι → Pc ι}
    (hnext : next = .drop ∨ next = .request ∨ next = .markEvict)
    (hl : leaveHolding s i next = some s') : Effect i s s' := by
  unfold leaveHolding at hl
  split at hl <;> cases hl
  next e hpc =>
    rcases hnext with rfl | rfl | rfl <;> exact goto_effect hpc rfl rfl

omit [DecidableEq κ] [Fintype ι] in
theorem endConstruct_effect {ok : Bool} (hl : endConstruct s i ok = some s') : Effect i s s' := by
  unfold endConstruct at hl
  split at hl <;> cases hl
  next e hpc =>
    cases ok <;> exact goto_effect hpc rfl rfl

/-- Every step keeps what holds of waiting releases, and a guarded one keeps the last borrow the
last one. -/
theorem step_waits (h : Inv cfg s) (w : Waits s) {l : Label κ ι} (hl : step cfg s l = some s') :
    Waits s' ∧ (Sole s → Guard s l → Sole s') := by
  have h' := step_inv h hl
  have hquiet : Quiet s s' → Waits s' ∧ (Sole s → Guard s l → Sole s') := fun q =>
    ⟨q.waits w, fun o _ => q.sole o⟩
  have heffect : ∀ i, Effect i s s' → Waits s' ∧ (Sole s → Guard s l → Sole s') := fun i f =>
    ⟨f.waits h h' w, fun o _ => f.keeps_sole h h' w o⟩
  cases l with
  | get i =>
    rw [step] at hl
    split_ifs at hl with hpc
    cases hl
    exact heffect i (goto_effect hpc rfl rfl)
  | act i => exact act_waits h w hl
  | constructed i ok => exact heffect i (endConstruct_effect hl)
  | dropBorrow i => exact heffect i (leaveHolding_effect (.inl rfl) hl)
  | release i => exact heffect i (leaveHolding_effect (.inr (.inl rfl)) hl)
  | markEvict i => exact heffect i (leaveHolding_effect (.inr (.inr rfl)) hl)
  | evict k => exact hquiet (Option.some.inj hl ▸ evict_quiet s k)
  | sweepReclaim shard now | sweepTtl shard now =>
    rw [step] at hl
    split_ifs at hl
    cases hl
    first
    | exact hquiet (sweepReclaim_quiet s shard now)
    | exact hquiet (sweepTtl_quiet s shard now)
  | tick d => exact hquiet (Option.some.inj hl ▸ ⟨rfl, fun _ => .refl _, fun _ _ hk => hk⟩)

omit [DecidableEq κ] [DecidableEq ι] [Fintype ι] in
theorem initial_waits : Waits (State.initial : State κ ι) := by
  constructor <;> simp [State.initial, Entry.fresh, Op.fresh, CompletionSlot.empty,
    CompletionSlot.selected]

omit [DecidableEq κ] [DecidableEq ι] [Fintype ι] in
theorem initial_sole : Sole (State.initial : State κ ι) := by
  constructor <;> simp [State.initial, Entry.fresh, Op.fresh, CompletionSlot.empty,
    CompletionSlot.selected, Pc.sole]

/-- **A waiting release is never lost**, in any reachable state. -/
theorem waits_of_reachable (h : (system cfg).Reachable s) : Waits s := by
  have hboth : Inv cfg s ∧ Waits s := by
    refine h.invariant (I := fun s => Inv cfg s ∧ Waits s)
      (fun _ hs => hs ▸ ⟨initial_inv, initial_waits⟩) ?_
    rintro s l s' ⟨hinv, w⟩ - hl
    exact ⟨step_inv hinv hl, (step_waits hinv w hl).1⟩
  exact hboth.2

/-- **The releasing operation holds the last borrow**, in every guarded run. -/
theorem sole_of_reachable (h : (system cfg).ReachableVia Guard s) : Sole s := by
  have hall : Inv cfg s ∧ Waits s ∧ Sole s := by
    refine h.invariant (I := fun s => Inv cfg s ∧ Waits s ∧ Sole s)
      (fun _ hs => hs ▸ ⟨initial_inv, initial_waits, initial_sole⟩) ?_
    rintro s l s' ⟨hinv, w, o⟩ hguard hl
    exact ⟨step_inv hinv hl, (step_waits hinv w hl).1, (step_waits hinv w hl).2 o hguard⟩
  exact hall.2.2

/-! ### The main result -/

/-- The steps of one operation, and nothing else, schedule the waiter. -/
def WokenBy (cfg : Config κ ι) (s : State κ ι) (i j : ι) (n : ℕ) : Prop :=
  ∃ s', (system cfg).run s (List.replicate n (.act j)) = some s' ∧ (s'.ops i).scheduled = true

section

omit [Fintype ι]

theorem WokenBy.step {n : ℕ} (hact : act cfg s j = some s') (h : WokenBy cfg s' i j n) :
    WokenBy cfg s i j (n + 1) := by
  obtain ⟨t, hrun, hsched⟩ := h
  exact ⟨t, TransitionSystem.run_cons.2 ⟨s', hact, hrun⟩, hsched⟩

theorem wokenBy_of_schedule (hij : i ≠ j) (hj : (s.ops j).pc = .schedule i) :
    WokenBy cfg s i j 1 :=
  .step (by simp [act, hj]) ⟨scheduleHandle s j i, rfl, by simp [scheduleHandle, hij]⟩

theorem wokenBy_of_claim (hij : i ≠ j)
    (hsel : (s.entries e).releaseWaiter.selected = true)
    (hhandle : (s.entries e).releaseWaiter.selectedHandle = some i)
    (hj : (s.ops j).pc = .claim e (some (s.entries e).releaseWaiter.generation)) :
    WokenBy cfg s i j 2 := by
  have hclaim := CompletionSlot.claim_of_selected hsel
  refine .step (by simp only [act, hj]; rfl) (wokenBy_of_schedule hij ?_)
  simp [claimWaiter, hclaim, hhandle, Pc.afterClaim]

theorem wokenBy_of_take (hij : i ≠ j)
    (hwaiter : (s.entries e).releaseWaiter.waiter = some i)
    (hfree : (s.entries e).releaseWaiter.selected = false) (hj : (s.ops j).pc = .take e) :
    WokenBy cfg s i j 3 := by
  have htake := CompletionSlot.take_of_waiting hwaiter hfree
  have hslot : ((takeWaiter s j e).entries e).releaseWaiter =
      ⟨some i, some i, (s.entries e).releaseWaiter.generation + 1⟩ := by
    simp [takeWaiter, htake]
  refine .step (by simp only [act, hj]; rfl) (wokenBy_of_claim (e := e) hij ?_ ?_ ?_)
  · rw [hslot, CompletionSlot.selected_succ, hfree]
    rfl
  · rw [hslot]
  · rw [hslot]
    simp [takeWaiter, htake]

end

/-- **A waiting release that has become the last borrow is woken**: some operation is on its way to
schedule it, and does so with at most three steps of its own. -/
theorem woken_of_last (h : (system cfg).Reachable s) (hi : (s.ops i).pc = .suspended e)
    (hlast : (s.entries e).refcount = 1) : ∃ j n, n ≤ 3 ∧ WokenBy cfg s i j n := by
  have w := waits_of_reachable h
  have hne : ∀ {j}, (s.ops j).pc ≠ .suspended e → i ≠ j := fun hj hij => hj (hij ▸ hi)
  rcases w.suspended i e hi with hwaiter | hsched | ⟨j, hj⟩
  · cases hsel : (s.entries e).releaseWaiter.selected with
    | true =>
      obtain ⟨⟨v, hv, hhandle⟩, j, hj⟩ := w.selected e hsel
      rw [hwaiter] at hv
      obtain rfl := Option.some.inj hv
      exact ⟨j, 2, by omega, wokenBy_of_claim (hne (by simp [hj])) hsel hhandle hj⟩
    | false =>
      obtain ⟨j, hj⟩ := w.last e i hwaiter hsel hlast
      exact ⟨j, 3, le_rfl, wokenBy_of_take (hne (by simp [hj])) hwaiter hsel hj⟩
  · exact ⟨i, 0, by omega, s, rfl, hsched⟩
  · exact ⟨j, 1, by omega, wokenBy_of_schedule (hne (by simp [hj])) hj⟩

omit [DecidableEq κ] in
theorem Inv.refcount_eq_one_iff (h : Inv cfg s) (hi : (s.ops i).pc.borrowed = some e) :
    (s.entries e).refcount = 1 ↔ ∀ j, j ≠ i → (s.ops j).pc.borrowed ≠ some e := by
  constructor
  · intro hone j hji hj
    have htwo := h.two_le_refcount hji hi hj
    omega
  · intro hothers
    have hsum : borrowers s e = 1 := by
      rw [borrowers, total, Finset.sum_eq_single i]
      · simp [Op.borrows, hi]
      · exact fun j _ hji => if_neg (hothers j hji)
      · exact fun hmem => absurd (Finset.mem_univ i) hmem
    rw [h.count, hsum]
    rfl

/-- **The exclusive release.**  In every state of a guarded run: a release that is about to move the
object out holds the only borrow of the entry, and the object is there; no two releases have
obtained the object of one entry; and a release that waits is woken once all other borrows have been
dropped. -/
theorem exclusive_release (h : (system cfg).ReachableVia Guard s) :
    (∀ i e, (s.ops i).pc = .moveValue e →
      (s.entries e).refcount = 1 ∧ (∀ j, j ≠ i → (s.ops j).pc.borrowed ≠ some e) ∧
        (s.entries e).value = true) ∧
      (∀ i j e, (s.ops i).obtained = some e → (s.ops j).obtained = some e → i = j) ∧
      (∀ i e, (s.ops i).pc = .suspended e → (∀ j, j ≠ i → (s.ops j).pc.borrowed ≠ some e) →
        ∃ j n, n ≤ 3 ∧ WokenBy cfg s i j n) := by
  have hinv := inv_of_reachable h.reachable
  have hsole := sole_of_reachable h
  refine ⟨fun i e hpc => ?_, fun i j e hi hj => ?_, fun i e hpc hothers => ?_⟩
  · have hone := hsole.sole i e (by rw [hpc]; rfl)
    exact ⟨hone, (hinv.refcount_eq_one_iff (by rw [hpc]; rfl)).1 hone,
      (hinv.op i).taking e (by rw [hpc]; rfl)⟩
  · have hby := (hinv.op i).obtained e hi
    rw [(hinv.op j).obtained e hj] at hby
    exact (Option.some.inj hby).symm
  · exact woken_of_last h.reachable hpc
      ((hinv.refcount_eq_one_iff (by rw [hpc]; rfl)).2 hothers)

/-- One key, and no time to live. -/
def oneKey (n : ℕ) : Config Unit (Fin n) where
  shardFor := fun _ => 0
  reclaimDelay := 0
  defaultTtl := 0
  key := fun _ => ()
  ttl := fun _ => 0

/-- Operation 0 constructs the object, operation 1 borrows it too, operation 0 releases it and
waits, operation 1 drops its borrow and wakes operation 0. -/
def waitingReleaseRun : List (Label Unit (Fin 2)) :=
  [.get 0, .act 0, .constructed 0 true, .act 0, .act 0, .act 0, .get 1, .act 1,
    .release 0, .act 0, .act 0, .act 0, .act 0, .act 0,
    .dropBorrow 1, .act 1, .act 1, .act 1, .act 1, .act 0, .act 0]

theorem exclusive_release_waitingRelease :
    ∃ s, (system (oneKey 2)).runVia Guard .initial waitingReleaseRun = some s ∧
      (s.ops 0).pc = .moveValue 0 ∧ (s.entries 0).refcount = 1 ∧
      ∀ j, j ≠ 0 → (s.ops j).pc.borrowed ≠ some 0 := by
  have hrun : ((system (oneKey 2)).runVia Guard .initial waitingReleaseRun).isSome := rfl
  have hsome := (Option.some_get hrun).symm
  obtain ⟨hone, hothers, -⟩ := (exclusive_release (.of_runVia (.init rfl) hsome)).1 0 0 rfl
  exact ⟨_, hsome, rfl, hone, hothers⟩

/-- Operation 1 drops its borrow, the last but one, and is delayed before it looks for a waiter.
Operation 2 borrows the object, operation 0 requests the release and registers because there are two
borrows, and now operation 1 takes it. -/
def lateTakeRun : List (Label Unit (Fin 3)) :=
  [.get 0, .act 0, .constructed 0 true, .act 0, .act 0, .act 0,
    .get 1, .act 1, .dropBorrow 1, .act 1, .get 2, .act 2,
    .release 0, .act 0, .act 0, .act 0, .act 0, .act 0,
    .act 1, .act 1, .act 1, .act 0, .act 0]

/-- **An object is moved out while it is borrowed**: the count is two, operation 2 holds a borrow,
and the next step of operation 0 moves the object out. -/
theorem released_while_borrowed :
    ∃ s s', (system (oneKey 3)).Reachable s ∧ (s.ops 0).pc = .moveValue 0 ∧
      (s.entries 0).refcount = 2 ∧ (s.ops 2).pc = .holding 0 ∧
      (system (oneKey 3)).step s (.act 0) = some s' ∧ (s'.ops 0).obtained = some 0 ∧
      (s'.entries 0).value = false := by
  have hrun : ((system (oneKey 3)).run .initial lateTakeRun).isSome := rfl
  have hsome := (Option.some_get hrun).symm
  exact ⟨_, _, TransitionSystem.reachable_of_run rfl hsome, rfl, rfl, rfl, rfl, rfl, rfl⟩

end Elio.ObjectCache
