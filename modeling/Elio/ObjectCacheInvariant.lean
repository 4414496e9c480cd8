/-
**The object cache: entries, borrows and releases.**

The reference count of an entry is the number of operations that hold a borrow of it.  An entry is
borrowed only once it is ready, and by others only while it is in the index; its release is
requested once, by the operation that then goes through with it, and from the moment that operation
has taken the entry out of the index the count can only fall.  All this holds in every reachable
state.

Main definitions:

* `Pc.borrowed`, `borrowers` — who holds a borrow.

Main results:

* `Quiet.inv` — steps that only take entries out of the index keep it;
* `step_inv` — every step keeps it.
-/

import Elio.ObjectCache

set_option autoImplicit false

namespace Elio.ObjectCache

open PartyTotal

variable {κ ι : Type*}

/-! ### Kinds of locations -/

/-- The entry an operation works on. -/
def Pc.entry : Pc ι → Option ι
  | .waitReady e | .readState e | .recheck e | .construct e | .addRef e | .publish e | .signal e
  | .failState e | .failSignal e | .failErase e | .holding e | .markEvict e | .evictIndex e
  | .request e | .unindex e | .checkCount e | .awaitReady e | .register e | .suspended e
  | .unregister e | .moveValue e | .decrement e | .drop e | .take e | .claim e _ | .forceCheck e
  | .enqueue e => some e
  | .idle | .lookup | .schedule _ | .done => none

/-- The entry an operation holds a borrow of. -/
def Pc.borrowed : Pc ι → Option ι
  | .publish e | .signal e | .holding e | .markEvict e | .evictIndex e | .request e | .unindex e
  | .checkCount e | .awaitReady e | .register e | .suspended e | .unregister e | .moveValue e
  | .decrement e | .drop e => some e
  | _ => none

/-- Before an operation has an entry of its own. -/
def Pc.early : Pc ι → Bool
  | .idle | .lookup | .waitReady _ | .readState _ | .recheck _ => true
  | _ => false

/-- The entry an operation is constructing, or has just constructed. -/
def Pc.constructs : Pc ι → Option ι
  | .construct e | .addRef e | .publish e | .signal e | .failState e | .failSignal e
  | .failErase e => some e
  | _ => none

/-- The entry an operation is constructing. -/
def Pc.building : Pc ι → Option ι
  | .construct e | .addRef e | .publish e | .failState e => some e
  | _ => none

/-- The entry whose release an operation goes through with. -/
def Pc.releasing : Pc ι → Option ι
  | .unindex e | .checkCount e | .awaitReady e | .register e | .suspended e | .unregister e
  | .moveValue e | .decrement e => some e
  | _ => none

/-- The entry an operation has taken out of the index for its release. -/
def Pc.unindexed : Pc ι → Option ι
  | .checkCount e | .awaitReady e | .register e | .suspended e | .unregister e | .moveValue e
  | .decrement e => some e
  | _ => none

/-- The entry whose object an operation is about to move out. -/
def Pc.taking : Pc ι → Option ι
  | .unindex e | .checkCount e | .awaitReady e | .register e | .suspended e | .unregister e
  | .moveValue e => some e
  | _ => none

/-! ### The invariant -/

variable [DecidableEq ι]

/-- Whether the operation holds a borrow of the entry. -/
def Op.borrows (e : ι) (o : Op ι) : ℕ := if o.pc.borrowed = some e then 1 else 0

/-- The number of borrows of an entry. -/
def borrowers [Fintype ι] (s : State κ ι) (e : ι) : ℕ := total (Op.borrows e) s.ops

/-- What the invariant says about one operation. -/
structure State.OpOk (s : State κ ι) (j : ι) : Prop where
  own : ∀ e, (s.ops j).pc.constructs = some e → e = j
  building : ∀ e, (s.ops j).pc.building = some e → (s.entries e).status = .constructing
  borrowed : ∀ e, (s.ops j).pc.borrowed = some e →
    (s.ops j).pc = .publish e ∨ (s.entries e).status = .ready
  recheck : ∀ e, (s.ops j).pc = .recheck e → (s.entries e).status = .ready
  releasing : ∀ e, (s.ops j).pc.releasing = some e → (s.entries e).releasedBy = some j
  obtained : ∀ e, (s.ops j).obtained = some e → (s.entries e).releasedBy = some j
  unindexed : ∀ e k, (s.ops j).pc.unindexed = some e → s.index k ≠ some e
  taking : ∀ e, (s.ops j).pc.taking = some e → (s.entries e).value = true
  publish : ∀ e, (s.ops j).pc = .publish e → (s.entries e).value = true

/-- What the invariant says about one entry. -/
structure Entry.Ok (E : Entry ι) : Prop where
  requested : E.releaseRequested = true ↔ E.releasedBy ≠ none
  value : E.status = .ready → E.releasedBy = none → E.value = true

/-- **The invariant.** -/
structure Inv [Fintype ι] (cfg : Config κ ι) (s : State κ ι) : Prop where
  count : ∀ e, (s.entries e).refcount = borrowers s e
  indexKey : ∀ k e, s.index k = some e → cfg.key e = k
  indexKnown : ∀ k e, s.index k = some e → (s.ops e).pc.early = false
  known : ∀ j e, (s.ops j).pc.entry = some e → (s.ops e).pc.early = false
  blank : ∀ e, (s.ops e).pc.early = true → (s.entries e).releasedBy = none
  op : ∀ j, s.OpOk j
  entry : ∀ e, (s.entries e).Ok

/-! ### The record of an operation or an entry after a step -/

section Fields

variable (s : State κ ι) (k : κ) (i j e e' : ι) (f : Op ι → Op ι) (g : Entry ι → Entry ι) (p : Pc ι)

@[simp, grind =] theorem State.modify_ops :
    (s.modify i f).ops j = if j = i then f (s.ops i) else s.ops j := by
  simp [State.modify, Function.update_apply]

attribute [grind =] State.modify_entries State.modify_index State.modifyEntry_ops
  State.modifyEntry_index reclaimUnlink_ops reclaimUnlink_entries eraseIfIndexed_ops
  eraseIfIndexed_entries

@[simp, grind =] theorem State.goto_eq :
    s.goto i p = s.modify i fun o => { o with pc := p } := rfl

@[simp, grind =] theorem State.modifyEntry_entries :
    (s.modifyEntry e g).entries e' = if e' = e then g (s.entries e) else s.entries e' := by
  simp [State.modifyEntry, Function.update_apply]

variable (cfg : Config κ ι)

@[simp, grind =] theorem removeFromIndex_ops [DecidableEq κ] :
    (removeFromIndex cfg s e).ops j = s.ops j := rfl

@[simp, grind =] theorem removeFromIndex_entries [DecidableEq κ] :
    (removeFromIndex cfg s e).entries e' = s.entries e' := rfl

@[simp, grind =] theorem evictEntry_ops [DecidableEq κ] :
    (evictEntry cfg s e).ops j = s.ops j := rfl

@[simp, grind =] theorem evictEntry_releaseWaiter [DecidableEq κ] :
    ((evictEntry cfg s e).entries e').releaseWaiter = (s.entries e').releaseWaiter := by
  by_cases he : e' = e <;> simp [evictEntry, he]

@[simp, grind =] theorem enqueueForReclaim_ops :
    (enqueueForReclaim cfg s e).ops j = s.ops j := by
  simp only [enqueueForReclaim, reclaimPushBack]
  repeat' split
  all_goals rfl

@[simp, grind =] theorem enqueueForReclaim_releaseWaiter :
    ((enqueueForReclaim cfg s e).entries e').releaseWaiter = (s.entries e').releaseWaiter := by
  by_cases he : e' = e <;> simp only [enqueueForReclaim, reclaimPushBack] <;> repeat' split
  all_goals simp [he]

end Fields

/-! ### Steps that only take entries out of the index -/

variable {cfg : Config κ ι} {s s' : State κ ι} {i e : ι}

section

omit [DecidableEq ι]

/-- What the invariants know of an entry. -/
structure SameEntry (E E' : Entry ι) : Prop where
  status : E'.status = E.status
  refcount : E'.refcount = E.refcount
  value : E'.value = E.value
  releaseRequested : E'.releaseRequested = E.releaseRequested
  releaseWaiter : E'.releaseWaiter = E.releaseWaiter
  releasedBy : E'.releasedBy = E.releasedBy

/-- A step that leaves the operations alone and at most takes entries out of the index. -/
structure Quiet (s s' : State κ ι) : Prop where
  ops : s'.ops = s.ops
  entries : ∀ e, SameEntry (s.entries e) (s'.entries e)
  index : ∀ k e, s'.index k = some e → s.index k = some e

theorem SameEntry.refl (E : Entry ι) : SameEntry E E := ⟨rfl, rfl, rfl, rfl, rfl, rfl⟩

theorem Quiet.refl (s : State κ ι) : Quiet s s := ⟨rfl, fun _ => .refl _, fun _ _ h => h⟩

theorem Quiet.trans {t : State κ ι} (h : Quiet s s') (h' : Quiet s' t) : Quiet s t where
  ops := h'.ops.trans h.ops
  entries e :=
    { status := (h'.entries e).status.trans (h.entries e).status
      refcount := (h'.entries e).refcount.trans (h.entries e).refcount
      value := (h'.entries e).value.trans (h.entries e).value
      releaseRequested := (h'.entries e).releaseRequested.trans (h.entries e).releaseRequested
      releaseWaiter := (h'.entries e).releaseWaiter.trans (h.entries e).releaseWaiter
      releasedBy := (h'.entries e).releasedBy.trans (h.entries e).releasedBy }
  index k e hk := h.index k e (h'.index k e hk)

theorem Pc.entry_of {p : Pc ι} (h : p.borrowed = some e ∨ p.constructs = some e ∨
    p.building = some e ∨ p.releasing = some e ∨ p.unindexed = some e ∨ p.taking = some e) :
    p.entry = some e := by
  cases p <;> simp_all [Pc.entry, Pc.borrowed, Pc.constructs, Pc.building, Pc.releasing,
    Pc.unindexed, Pc.taking]

/-- What an operation knows is still true when its entry is not touched in a way that matters. -/
theorem State.OpOk.transfer {j : ι} (h : s.OpOk j) (hops : s'.ops j = s.ops j)
    (hstat : ∀ e, (s.ops j).pc.entry = some e →
      (s.entries e).status = .ready ∨ (s.ops j).pc.building = some e →
      (s'.entries e).status = (s.entries e).status)
    (hreleased : ∀ e, (s.entries e).releasedBy = some j → (s'.entries e).releasedBy = some j)
    (hval : ∀ e, (s.ops j).pc.entry = some e → (s.entries e).value = true →
      (s.entries e).releasedBy = some j ∨ (s.ops j).pc = .publish e → (s'.entries e).value = true)
    (hindex : ∀ e k, (s.ops j).pc.entry = some e → s'.index k = some e → s.index k = some e) :
    s'.OpOk j := by
  constructor <;> rw [hops]
  · exact h.own
  · intro e hb
    rw [hstat e (Pc.entry_of (by simp [hb])) (.inr hb)]
    exact h.building e hb
  · intro e hb
    rcases h.borrowed e hb with hpub | hready
    · exact .inl hpub
    · exact .inr (by rw [hstat e (Pc.entry_of (.inl hb)) (.inl hready), hready])
  · intro e hr
    have hready := h.recheck e hr
    rw [hstat e (by rw [hr]; rfl) (.inl hready), hready]
  · exact fun e hr => hreleased e (h.releasing e hr)
  · exact fun e ho => hreleased e (h.obtained e ho)
  · exact fun e k hu hk => h.unindexed e k hu (hindex e k (Pc.entry_of (by simp [hu])) hk)
  · intro e ht
    have hrel : (s.ops j).pc.releasing = some e := by
      cases hpc : (s.ops j).pc <;> simp_all [Pc.taking, Pc.releasing]
    exact hval e (Pc.entry_of (by simp [ht])) (h.taking e ht) (.inl (h.releasing e hrel))
  · exact fun e hp => hval e (by rw [hp]; rfl) (h.publish e hp) (.inr hp)

theorem Quiet.opOk (q : Quiet s s') {j : ι} (h : s.OpOk j) : s'.OpOk j :=
  h.transfer (congrFun q.ops j) (fun e _ _ => (q.entries e).status)
    (fun e hby => (q.entries e).releasedBy.trans hby)
    (fun e _ hval _ => (q.entries e).value.trans hval) fun e k _ => q.index k e

theorem SameEntry.ok {E E' : Entry ι} (h : SameEntry E E') (hE : E.Ok) : E'.Ok where
  requested := by
    rw [h.releaseRequested, h.releasedBy]
    exact hE.requested
  value := by
    rw [h.status, h.releasedBy, h.value]
    exact hE.value

end

theorem Quiet.inv [Fintype ι] (q : Quiet s s') (h : Inv cfg s) : Inv cfg s' where
  count e := by
    rw [(q.entries e).refcount, h.count e, borrowers, borrowers, q.ops]
  indexKey k e hk := h.indexKey k e (q.index k e hk)
  indexKnown k e hk := by
    rw [q.ops]
    exact h.indexKnown k e (q.index k e hk)
  known := by
    rw [q.ops]
    exact h.known
  blank e he := by
    rw [q.ops] at he
    rw [(q.entries e).releasedBy]
    exact h.blank e he
  op j := q.opOk (h.op j)
  entry e := (q.entries e).ok (h.entry e)

section

variable (s)

theorem reclaimUnlink_quiet (e : ι) : Quiet s (reclaimUnlink cfg s e) :=
  ⟨rfl, fun _ => .refl _, fun _ _ h => h⟩

omit [DecidableEq ι] in
theorem reclaimPushBack_quiet (e : ι) : Quiet s (reclaimPushBack cfg s e) :=
  ⟨rfl, fun _ => .refl _, fun _ _ h => h⟩

/-- Writing a field the invariants do not mention. -/
theorem modifyEntry_quiet (e : ι) {f : Entry ι → Entry ι}
    (hf : SameEntry (s.entries e) (f (s.entries e))) : Quiet s (s.modifyEntry e f) where
  ops := rfl
  entries e' := by
    rcases eq_or_ne e' e with rfl | hne
    · simpa using hf
    · simpa [hne] using SameEntry.refl _
  index _ _ h := h

theorem enqueueForReclaim_quiet (e : ι) : Quiet s (enqueueForReclaim cfg s e) := by
  unfold enqueueForReclaim
  split
  · exact .refl s
  split
  · exact .refl s
  split
  · exact .refl s
  split
  · exact .refl s
  · exact (modifyEntry_quiet s e ⟨rfl, rfl, rfl, rfl, rfl, rfl⟩).trans (reclaimPushBack_quiet _ e)

variable [DecidableEq κ]

theorem eraseIfIndexed_quiet (e : ι) : Quiet s (eraseIfIndexed cfg s e) where
  ops := rfl
  entries _ := .refl _
  index k e' hk := by
    simp only [eraseIfIndexed] at hk
    split at hk
    · cases hk
    · exact hk

theorem removeFromIndex_quiet (e : ι) : Quiet s (removeFromIndex cfg s e) :=
  (reclaimUnlink_quiet s e).trans (eraseIfIndexed_quiet _ e)

theorem evictEntry_quiet (e : ι) : Quiet s (evictEntry cfg s e) :=
  (modifyEntry_quiet s e ⟨rfl, rfl, rfl, rfl, rfl, rfl⟩).trans (removeFromIndex_quiet _ e)

theorem evict_quiet (k : κ) : Quiet s (evict cfg s k) := by
  unfold evict
  split
  · exact .refl s
  · exact evictEntry_quiet s _

theorem sweepEntry_quiet (now : ℤ) (cur : ι) : Quiet s (sweepEntry cfg now s cur) := by
  unfold sweepEntry
  split
  · exact reclaimUnlink_quiet s cur
  split
  · exact (eraseIfIndexed_quiet s cur).trans (reclaimUnlink_quiet _ cur)
  · exact .refl s

/-- The loop of `sweep_expired` over the reclaim list. -/
theorem sweepReclaim_quiet (shard : ℕ) (now : ℤ) : Quiet s (sweepReclaim cfg s shard now) := by
  unfold sweepReclaim
  generalize s.reclaim shard = l
  induction l generalizing s with
  | nil => exact .refl s
  | cons cur l ih => exact (sweepEntry_quiet s now cur).trans (ih _)

theorem sweepTtl_quiet (shard : ℕ) (now : ℤ) : Quiet s (sweepTtl cfg s shard now) where
  ops := rfl
  entries e := by
    simp only [sweepTtl]
    split
    · exact ⟨rfl, rfl, rfl, rfl, rfl, rfl⟩
    · exact .refl _
  index k e hk := by
    simp only [sweepTtl] at hk
    split at hk
    · cases hk
    next e' he' =>
      split at hk
      · cases hk
      · rw [he', hk]

end

/-! ### Steps of an operation -/

variable [Fintype ι]

/-- The borrows after a step that writes to one operation. -/
theorem borrowers_of_agree (hops : ∀ j, j ≠ i → s'.ops j = s.ops j) (e : ι) :
    borrowers s' e + (s.ops i).borrows e = borrowers s e + (s'.ops i).borrows e :=
  total_of_agree _ fun j hj => by rw [hops j hj]

omit [Fintype ι] in
/-- What a step of `i` that works on the entry `e` may do to them, and what it leaves alone. -/
structure Change (i e : ι) (s s' : State κ ι) : Prop where
  ops : ∀ j, j ≠ i → s'.ops j = s.ops j
  entries : ∀ e', e' ≠ e → SameEntry (s.entries e') (s'.entries e')
  index : ∀ k e', s'.index k = some e' → s.index k = some e'
  early : (s'.ops i).pc.early = true → (s.ops i).pc.early = true
  entry : ∀ e', (s'.ops i).pc.entry = some e' → (s.ops e').pc.early = false
  borrows : ∀ e', e' ≠ e → (s'.ops i).borrows e' = (s.ops i).borrows e'
  refcount : (s'.entries e).refcount + (s.ops i).borrows e =
    (s.entries e).refcount + (s'.ops i).borrows e
  status : (s'.entries e).status = (s.entries e).status ∨ (s.ops i).pc.building = some e
  releasedBy : (s'.entries e).releasedBy = (s.entries e).releasedBy ∨
    (s.entries e).releasedBy = none ∧ (s.ops e).pc.early = false
  value : (s'.entries e).value = (s.entries e).value ∨ (s'.entries e).value = true ∨
    (s.ops i).pc.releasing = some e ∧ (s.ops i).pc.borrowed = some e ∧ (s.ops i).pc ≠ .publish e

omit [DecidableEq ι] in
theorem Inv.builder_unique [DecidableEq ι] (h : Inv cfg s) {j : ι}
    (hi : (s.ops i).pc.building = some e) (hj : (s.ops j).pc.building = some e) : j = i := by
  have hown : ∀ l, (s.ops l).pc.building = some e → (s.ops l).pc.constructs = some e := by
    intro l hl
    cases hpc : (s.ops l).pc <;> simp_all [Pc.building, Pc.constructs]
  rw [← (h.op j).own e (hown j hj), (h.op i).own e (hown i hi)]

/-- What the others rely on is not changed by a step of `i`. -/
theorem Change.opOk_of_ne (c : Change i e s s') (h : Inv cfg s) {j : ι} (hji : j ≠ i) :
    s'.OpOk j := by
  have hj := h.op j
  -- a status that changes belongs to an entry that only its constructor works on
  have hstat : ∀ e', (s.entries e').status = .ready ∨ (s.ops j).pc.building = some e' →
      (s'.entries e').status = (s.entries e').status := by
    intro e' hcase
    rcases eq_or_ne e' e with rfl | hne
    · rcases c.status with hsame | hbuilding
      · exact hsame
      · have hcons := (h.op i).building e' hbuilding
        rcases hcase with hready | hbuildingj
        · rw [hready] at hcons
          cases hcons
        · exact absurd (h.builder_unique hbuilding hbuildingj) hji
    · exact (c.entries e' hne).status
  have hrel : ∀ e', (s.entries e').releasedBy = some j →
      (s'.entries e').releasedBy = some j := by
    intro e' hby
    rcases eq_or_ne e' e with rfl | hne
    · rcases c.releasedBy with hsame | ⟨hnone, -⟩
      · rw [hsame, hby]
      · rw [hby] at hnone
        cases hnone
    · rw [(c.entries e' hne).releasedBy, hby]
  have hvalue : ∀ e', (s.entries e').value = true →
      (s.entries e').releasedBy = some j ∨ (s.ops j).pc = .publish e' →
      (s'.entries e').value = true := by
    intro e' hval hcase
    rcases eq_or_ne e' e with rfl | hne
    · rcases c.value with hsame | htrue | ⟨hreleasing, hborrowed, hnot⟩
      · rw [hsame, hval]
      · exact htrue
      · rcases hcase with hby | hpub
        · rw [(h.op i).releasing e' hreleasing] at hby
          exact absurd (Option.some.inj hby).symm hji
        · have hcons := hj.building e' (by rw [hpub]; rfl)
          rw [((h.op i).borrowed e' hborrowed).resolve_left hnot] at hcons
          cases hcons
    · rw [(c.entries e' hne).value, hval]
  exact hj.transfer (c.ops j hji) (fun e' _ => hstat e') hrel (fun e' _ => hvalue e')
    fun e' k _ => c.index k e'

/-- **A step of an operation keeps the invariant** when it accounts for the operation and for the
entry it works on. -/
theorem Inv.change (h : Inv cfg s) (i e : ι) (c : Change i e s s') (hop : s'.OpOk i)
    (hent : (s'.entries e).Ok) : Inv cfg s' where
  count e' := by
    have hcnt := h.count e'
    have htot := borrowers_of_agree c.ops e'
    rcases eq_or_ne e' e with rfl | hne
    · have hrefcount := c.refcount
      omega
    · rw [(c.entries e' hne).refcount, hcnt]
      rw [c.borrows e' hne] at htot
      omega
  indexKey k e' hk := h.indexKey k e' (c.index k e' hk)
  indexKnown k e' hk := by
    have hknown := h.indexKnown k e' (c.index k e' hk)
    rcases eq_or_ne e' i with rfl | hne
    · exact Bool.eq_false_iff.2 fun hearly => by simp [c.early hearly] at hknown
    · rw [c.ops e' hne, hknown]
  known j e' hj := by
    have hknown : (s.ops e').pc.early = false := by
      rcases eq_or_ne j i with rfl | hji
      · exact c.entry e' hj
      · exact h.known j e' (c.ops j hji ▸ hj)
    rcases eq_or_ne e' i with rfl | hne
    · exact Bool.eq_false_iff.2 fun hearly => by simp [c.early hearly] at hknown
    · rw [c.ops e' hne, hknown]
  blank e' he := by
    have hearly : (s.ops e').pc.early = true := by
      rcases eq_or_ne e' i with rfl | hne
      · exact c.early he
      · rw [← c.ops e' hne, he]
    rcases eq_or_ne e' e with rfl | hne
    · rcases c.releasedBy with hsame | ⟨-, hknown⟩
      · rw [hsame, h.blank e' hearly]
      · rw [hknown] at hearly
        cases hearly
    · rw [(c.entries e' hne).releasedBy, h.blank e' hearly]
  op j := by
    rcases eq_or_ne j i with rfl | hji
    · exact hop
    · exact c.opOk_of_ne h hji
  entry e' := by
    rcases eq_or_ne e' e with rfl | hne
    · exact hent
    · exact (c.entries e' hne).ok (h.entry e')

attribute [local grind] Pc.entry Pc.borrowed Pc.early Pc.constructs Pc.building Pc.releasing
  Pc.unindexed Pc.taking Op.borrows

attribute [local grind] borrow readState recheck addRef publish signal failState failSignal failErase
  markEvict evictIndex request unindex checkCount awaitReady register unregister moveValue decrement
  drop takeWaiter claimWaiter scheduleHandle forceCheck enqueue

attribute [local grind .] SameEntry.refl

theorem initial_inv : Inv cfg (State.initial : State κ ι) where
  count e := by
    have hzero : borrowers (State.initial : State κ ι) e = 0 := total_const_zero rfl
    rw [hzero]
    rfl
  indexKey _ _ hk := by cases hk
  indexKnown _ _ hk := by cases hk
  known _ _ hj := by cases hj
  blank _ _ := rfl
  op j := by constructor <;> simp [State.initial, Op.fresh, Pc.constructs, Pc.building, Pc.borrowed,
    Pc.releasing, Pc.unindexed, Pc.taking]
  entry e := by constructor <;> simp [State.initial, Entry.fresh]

omit [DecidableEq ι] [Fintype ι] in
theorem Pc.afterClaim_cases (w : Option ι) :
    (Pc.afterClaim w : Pc ι) = .done ∨ ∃ v, w = some v ∧ Pc.afterClaim w = .schedule v := by
  cases w with
  | none => exact .inl rfl
  | some v => exact .inr ⟨v, rfl, rfl⟩

omit [DecidableEq ι] [Fintype ι] in
/-- Before it has an entry of its own an operation holds and constructs nothing. -/
theorem Pc.of_early {p : Pc ι} (h : p.early = true) :
    p.borrowed = none ∧ p.constructs = none ∧ p.building = none ∧ p.releasing = none := by
  cases p <;> simp_all [Pc.early, Pc.borrowed, Pc.constructs, Pc.building, Pc.releasing]

section

variable (h : Inv cfg s)

include h

/-- What is known of an operation and the entry it works on. -/
theorem Inv.atEntry {p : Pc ι} (hpc : (s.ops i).pc = p) (hent : p.entry = some e) :
    s.OpOk i ∧ (s.entries e).Ok ∧ (s.ops e).pc.early = false :=
  ⟨h.op i, h.entry e, h.known i e (hpc ▸ hent)⟩

/-- A step that only moves an operation on, at the same entry. -/
theorem goto_inv {p p' : Pc ι} (hpc : (s.ops i).pc = p) (hent : p.entry = some e)
    (hentry' : p'.entry = some e ∨ p'.entry = none) (hborrowed : p'.borrowed = p.borrowed)
    (hearly : (!p'.early || p.early) = true) (hok : (s.goto i p').OpOk i) :
    Inv cfg (s.goto i p') := by
  subst hpc
  have hknown := h.known i e hent
  refine h.change i e ?_ hok (h.entry e)
  constructor <;> grind

/-- The steps that end a construction, or drop a reference. -/
theorem construction_inv [DecidableEq κ] (hact : act cfg s i = some s')
    (hpc : (s.ops i).pc = .addRef e ∨ (s.ops i).pc = .publish e ∨ (s.ops i).pc = .signal e ∨
      (s.ops i).pc = .failState e ∨ (s.ops i).pc = .failSignal e ∨ (s.ops i).pc = .decrement e ∨
      (s.ops i).pc = .drop e ∨ (s.ops i).pc = .take e) : Inv cfg s' := by
  rcases hpc with hpc | hpc | hpc | hpc | hpc | hpc | hpc | hpc
  all_goals
    have hat := h.atEntry hpc rfl
    rw [act, hpc] at hact
    refine Option.some.inj hact ▸ h.change i e ?_ ?_ ?_
    · constructor <;> grind -linarith
    · constructor <;> grind -linarith [State.OpOk]
    · constructor <;> grind -linarith [State.OpOk, Entry.Ok]

/-- The steps of a release that waits for the other holders. -/
theorem waiting_inv [DecidableEq κ] (hact : act cfg s i = some s')
    (hpc : (s.ops i).pc = .markEvict e ∨ (s.ops i).pc = .request e ∨ (s.ops i).pc = .register e ∨
      (s.ops i).pc = .unregister e ∨ (s.ops i).pc = .moveValue e ∨ (s.ops i).pc = .checkCount e ∨
      (s.ops i).pc = .awaitReady e ∨ (s.ops i).pc = .forceCheck e) : Inv cfg s' := by
  rcases hpc with hpc | hpc | hpc | hpc | hpc | hpc | hpc | hpc
  all_goals
    have hat := h.atEntry hpc rfl
    rw [act, hpc] at hact
    refine Option.some.inj hact ▸ h.change i e ?_ ?_ ?_
    · constructor <;> grind -linarith [Entry.Ok]
    · constructor <;> grind -linarith [State.OpOk, Entry.Ok]
    · constructor <;> grind -linarith [State.OpOk, Entry.Ok]

theorem claimWaiter_inv {lease : Option ℕ} (hpc : (s.ops i).pc = .claim e lease) :
    Inv cfg (claimWaiter s i e lease) := by
  obtain ⟨hi, he, hknown⟩ := h.atEntry hpc rfl
  cases lease with
  | none =>
    refine h.change i e ?_ ?_ he
    · constructor <;> grind
    · constructor <;> grind [State.OpOk]
  | some g =>
    have hnext := Pc.afterClaim_cases ((s.entries e).releaseWaiter.claim g).2
    refine h.change i e ?_ ?_ ?_
    · constructor <;> grind
    · constructor <;> grind [State.OpOk]
    · constructor <;> grind [Entry.Ok]

theorem readState_inv (hpc : (s.ops i).pc = .readState e) : Inv cfg (readState s i e) := by
  have hi := h.op i
  unfold readState
  split
  · refine goto_inv h hpc rfl (.inl rfl) rfl rfl ?_
    constructor <;> grind [State.OpOk]
  · refine goto_inv h hpc rfl (.inr rfl) rfl rfl ?_
    constructor <;> grind [State.OpOk]

theorem borrow_inv (hearly : (s.ops i).pc.early = true) {k : κ} (hindex : s.index k = some e)
    (hready : (s.entries e).status = .ready) : Inv cfg (borrow cfg s i e) := by
  have hi := h.op i
  have he := h.entry e
  have hknown := h.indexKnown k e hindex
  have hopen := Pc.of_early hearly
  -- the reclaim list does not matter
  have hmid : Inv cfg ((s.modifyEntry e fun E => { E with refcount := E.refcount + 1 }).goto i
      (.holding e)) := by
    refine h.change i e ?_ ?_ ?_
    · constructor <;> grind
    · constructor <;> grind [State.OpOk]
    · constructor <;> grind [Entry.Ok]
  exact (reclaimUnlink_quiet _ e).inv hmid

theorem recheck_inv (hpc : (s.ops i).pc = .recheck e) : Inv cfg (recheck cfg s i e) := by
  have hi := h.op i
  unfold recheck
  split
  next hindex => exact borrow_inv h (by rw [hpc]; rfl) hindex (hi.recheck e hpc)
  next =>
    refine goto_inv h hpc rfl (.inr rfl) rfl rfl ?_
    constructor <;> grind [State.OpOk]

theorem removeFromIndex_index [DecidableEq κ] (k : κ) :
    (removeFromIndex cfg s e).index k ≠ some e := by
  intro hk
  have hkey := h.indexKey k e ((removeFromIndex_quiet s e).index k e hk)
  subst hkey
  simp [removeFromIndex, eraseIfIndexed, reclaimUnlink] at hk

/-- The steps that take the entry out of the index. -/
theorem removeFromIndex_inv [DecidableEq κ] {p : Pc ι}
    (hpc : (s.ops i).pc = .unindex e ∧ p = .checkCount e ∨
      (s.ops i).pc = .evictIndex e ∧ p = .holding e) :
    Inv cfg ((removeFromIndex cfg s e).goto i p) := by
  have hgone := removeFromIndex_index (e := e) h
  have hquiet : Quiet s (removeFromIndex cfg s e) := removeFromIndex_quiet s e
  have hmid := hquiet.inv h
  have hi := hmid.op i
  rw [← hquiet.ops] at hpc
  rcases hpc with ⟨hpc, rfl⟩ | ⟨hpc, rfl⟩
  all_goals
    refine goto_inv hmid hpc rfl (.inl rfl) rfl rfl ?_
    constructor <;> grind [State.OpOk]

theorem done_inv (hquiet : Quiet s s') {p : Pc ι} (hpc : (s.ops i).pc = p)
    (hent : p.entry = some e) (hborrowed : p.borrowed = none) : Inv cfg (s'.goto i .done) := by
  have hmid := hquiet.inv h
  have hi := hmid.op i
  rw [← hquiet.ops] at hpc
  refine goto_inv hmid hpc hent (.inr rfl) (by rw [hborrowed]; rfl) rfl ?_
  constructor <;> grind [State.OpOk]

/-- Nobody works on the entry of an operation that has none yet. -/
theorem Inv.ne_of_entry (hearly : (s.ops i).pc.early = true) {j : ι}
    (hj : (s.ops j).pc.entry = some e) : e ≠ i := by
  rintro rfl
  rw [h.known j e hj] at hearly
  cases hearly

theorem Inv.ne_of_releasedBy (hearly : (s.ops i).pc.early = true) {j : ι}
    (hby : (s.entries e).releasedBy = some j) : e ≠ i := by
  rintro rfl
  rw [h.blank e hearly] at hby
  cases hby

/-- An operation of which the entry `i` is not known is not affected when that is replaced. -/
theorem Inv.opOk_of_entries (hearly : (s.ops i).pc.early = true)
    (hents : ∀ e', e' ≠ i → s'.entries e' = s.entries e')
    (hindex : ∀ k e', e' ≠ i → s'.index k = some e' → s.index k = some e') {j : ι}
    (hops : s'.ops j = s.ops j) : s'.OpOk j := by
  have hsame : ∀ e', (s.ops j).pc.entry = some e' → s'.entries e' = s.entries e' := fun e' he' =>
    hents e' (h.ne_of_entry hearly he')
  refine (h.op j).transfer hops (fun e' he' _ => by rw [hsame e' he']) (fun e' hby => ?_)
    (fun e' he' hval _ => by rw [hsame e' he', hval])
    fun e' k he' => hindex k e' (h.ne_of_entry hearly he')
  rw [hents e' (h.ne_of_releasedBy hearly hby), hby]

theorem create_inv [DecidableEq κ] (hpc : (s.ops i).pc = .lookup) : Inv cfg (create cfg s i) := by
  have hearly : (s.ops i).pc.early = true := by rw [hpc]; rfl
  have hops : ∀ j, j ≠ i → (create cfg s i).ops j = s.ops j := fun j hji => by
    simp [create, hji]
  have hopi : ((create cfg s i).ops i).pc = .construct i ∧
      ((create cfg s i).ops i).obtained = (s.ops i).obtained := by
    simp [create]
  have hents : ∀ e', e' ≠ i → (create cfg s i).entries e' = s.entries e' := fun e' he' => by
    simp [create, he']
  have hent : (create cfg s i).entries i = .fresh s.clock := by simp [create]
  have hindex : ∀ k, (create cfg s i).index k = if k = cfg.key i then some i else s.index k :=
    fun k => rfl
  have hborrowers : ∀ e', borrowers (create cfg s i) e' = borrowers s e' := fun e' => by
    have htot := borrowers_of_agree hops e'
    simpa [Op.borrows, hopi, hpc, Pc.borrowed] using htot
  have hzero : borrowers s i = 0 := Finset.sum_eq_zero fun j _ => if_neg fun hj =>
    h.ne_of_entry hearly (Pc.entry_of (.inl hj)) rfl
  have hshrink : ∀ k e', e' ≠ i → (create cfg s i).index k = some e' → s.index k = some e' := by
    intro k e' hne hk
    rw [hindex] at hk
    split at hk
    · exact absurd (Option.some.inj hk).symm hne
    · exact hk
  have hother : ∀ {e'}, (s.ops e').pc.early = false →
      ((create cfg s i).ops e').pc.early = false := by
    intro e' he'
    rcases eq_or_ne e' i with rfl | hne
    · simp [hopi, Pc.early]
    · rw [hops e' hne, he']
  constructor
  · intro e'
    rw [hborrowers]
    rcases eq_or_ne e' i with rfl | hne
    · rw [hent, hzero]
      rfl
    · rw [hents e' hne, h.count]
  · intro k e' hk
    rcases eq_or_ne e' i with rfl | hne
    · rw [hindex] at hk
      split at hk
      next heq => exact heq.symm
      next => exact h.indexKey k e' hk
    · exact h.indexKey k e' (hshrink k e' hne hk)
  · intro k e' hk
    rcases eq_or_ne e' i with rfl | hne
    · simp [hopi, Pc.early]
    · exact hother (h.indexKnown k e' (hshrink k e' hne hk))
  · intro j e' hj
    rcases eq_or_ne j i with rfl | hji
    · rw [hopi.1] at hj
      cases hj
      simp [hopi, Pc.early]
    · exact hother (h.known j e' (hops j hji ▸ hj))
  · intro e' he'
    rcases eq_or_ne e' i with rfl | hne
    · rw [hent]
      rfl
    · rw [hents e' hne]
      exact h.blank e' (hops e' hne ▸ he')
  · intro j
    rcases eq_or_ne j i with rfl | hji
    · have hobtained : ∀ e', (s.ops j).obtained = some e' →
          ((create cfg s j).entries e').releasedBy = some j := fun e' ho => by
        have hby := (h.op j).obtained e' ho
        rw [hents e' (h.ne_of_releasedBy hearly hby), hby]
      constructor <;> grind [Entry.fresh]
    · exact h.opOk_of_entries hearly hents hshrink (hops j hji)
  · intro e'
    rcases eq_or_ne e' i with rfl | hne
    · rw [hent]
      constructor <;> simp [Entry.fresh]
    · rw [hents e' hne]
      exact h.entry e'

theorem lookup_inv [DecidableEq κ] (hpc : (s.ops i).pc = .lookup) : Inv cfg (lookup cfg s i) := by
  have hi := h.op i
  unfold lookup
  split
  next => exact create_inv h hpc
  next e hindex =>
    split
    next hready =>
      split
      next =>
        have hquiet : Quiet s (evictEntry cfg s e) := evictEntry_quiet s e
        exact create_inv (hquiet.inv h) (by rw [hquiet.ops, hpc])
      next => exact borrow_inv h (by rw [hpc]; rfl) hindex hready
    next =>
      have hquiet : Quiet s (eraseIfIndexed cfg s e) := eraseIfIndexed_quiet s e
      exact create_inv (hquiet.inv h) (by rw [hquiet.ops, hpc])
    next =>
      have hknown := h.indexKnown _ e hindex
      refine h.change i e ?_ ?_ (h.entry e)
      · constructor <;> grind
      · constructor <;> grind [State.OpOk]

/-- Scheduling the waiter changes nothing the invariant mentions. -/
theorem scheduleHandle_inv {w : ι} (hpc : (s.ops i).pc = .schedule w) :
    Inv cfg (scheduleHandle s i w) := by
  have hi := h.op i
  have hw := h.op w
  have hmid : Inv cfg (s.modify w fun o => { o with scheduled := true }) := by
    refine h.change w w ?_ ?_ (h.entry w)
    · constructor <;> grind [h.known w]
    · constructor <;> grind [State.OpOk]
  refine hmid.change i i ?_ ?_ (hmid.entry i)
  · constructor <;> grind
  · constructor <;> grind [State.OpOk]

/-! ### Every reachable state -/

theorem act_inv [DecidableEq κ] (hact : act cfg s i = some s') : Inv cfg s' := by
  have hi := h.op i
  have hsame := hact
  unfold act at hact
  split at hact <;> try cases hact
  case h_5 hpc => exact lookup_inv h hpc
  case h_7 e hpc => exact readState_inv h hpc
  case h_8 e hpc => exact recheck_inv h hpc
  case h_14 e hpc =>
    exact done_inv h (eraseIfIndexed_quiet s e) hpc rfl rfl
  case h_16 e hpc => exact removeFromIndex_inv h (.inr ⟨hpc, rfl⟩)
  case h_18 e hpc => exact removeFromIndex_inv h (.inl ⟨hpc, rfl⟩)
  case h_6 e hpc | h_22 e hpc =>
    split at hact <;> cases hact
    refine goto_inv h hpc rfl (.inl rfl) rfl rfl ?_
    constructor <;> grind [State.OpOk]
  case h_28 e lease hpc => exact claimWaiter_inv h hpc
  case h_29 w hpc => exact scheduleHandle_inv h hpc
  case h_31 e hpc =>
    exact done_inv h (enqueueForReclaim_quiet s e) hpc rfl rfl
  case h_9 e hpc | h_10 e hpc | h_11 e hpc | h_12 e hpc | h_13 e hpc | h_25 e hpc | h_26 e hpc |
      h_27 e hpc =>
    exact construction_inv (e := e) h hsame (by simp [hpc])
  case h_15 e hpc | h_17 e hpc | h_21 e hpc | h_23 e hpc | h_24 e hpc | h_19 e hpc | h_20 e hpc |
      h_30 e hpc =>
    exact waiting_inv (e := e) h hsame (by simp [hpc])

theorem leaveHolding_inv {next : ι → Pc ι}
    (hnext : next = .drop ∨ next = .request ∨ next = .markEvict)
    (hl : leaveHolding s i next = some s') : Inv cfg s' := by
  have hi := h.op i
  unfold leaveHolding at hl
  split at hl <;> cases hl
  next e hpc =>
    rcases hnext with rfl | rfl | rfl
    all_goals
      refine goto_inv h hpc rfl (.inl rfl) rfl rfl ?_
      constructor <;> grind [State.OpOk]

theorem endConstruct_inv {ok : Bool} (hl : endConstruct s i ok = some s') : Inv cfg s' := by
  have hi := h.op i
  unfold endConstruct at hl
  split at hl <;> cases hl
  next e hpc =>
    cases ok
    all_goals
      refine goto_inv h hpc rfl (.inl rfl) rfl rfl ?_
      constructor <;> grind [State.OpOk]

theorem get_inv (hpc : (s.ops i).pc = .idle) : Inv cfg (s.goto i .lookup) := by
  have hi := h.op i
  refine h.change i i ?_ ?_ (h.entry i)
  · constructor <;> grind
  · constructor <;> grind [State.OpOk]

theorem step_inv [DecidableEq κ] {l : Label κ ι} (hl : step cfg s l = some s') : Inv cfg s' := by
  cases l with
  | get i =>
    rw [step] at hl
    split_ifs at hl with hpc
    cases hl
    exact get_inv h hpc
  | act i => exact act_inv h hl
  | constructed i ok => exact endConstruct_inv h hl
  | dropBorrow i => exact leaveHolding_inv h (.inl rfl) hl
  | release i => exact leaveHolding_inv h (.inr (.inl rfl)) hl
  | markEvict i => exact leaveHolding_inv h (.inr (.inr rfl)) hl
  | evict k => exact Option.some.inj hl ▸ (evict_quiet s k).inv h
  | sweepReclaim shard now | sweepTtl shard now =>
    rw [step] at hl
    split_ifs at hl
    cases hl
    first
    | exact (sweepReclaim_quiet s shard now).inv h
    | exact (sweepTtl_quiet s shard now).inv h
  | tick d =>
    have hquiet : Quiet s { s with clock := s.clock + d } :=
      ⟨rfl, fun _ => .refl _, fun _ _ hk => hk⟩
    exact Option.some.inj hl ▸ hquiet.inv h

end

/-- **The invariant holds in every reachable state.** -/
theorem inv_of_reachable [DecidableEq κ] (h : (system cfg).Reachable s) : Inv cfg s :=
  h.invariant (fun _ hs => hs ▸ initial_inv) fun _ _ _ hi _ hl => step_inv hi hl

end Elio.ObjectCache
