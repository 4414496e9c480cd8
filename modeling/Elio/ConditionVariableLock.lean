/-
**`elio::sync::condition_variable`: the lock of a wait.**

A wait is made with its lock held.  The lock stays with the caller until the waiter is in the list,
so a notification that is sent under the lock finds the waiter there.  A wait that has released its
lock takes it again before it returns, however it ends.

The mutexes of `Elio.Mutex` are part of the state here, and each of them takes the steps of its own
system and no others: what is known of that mutex holds of them.

Main definitions:

* `LockOk` — what is known of a wait and of its lock;
* `Holds` — the lock is with the caller of a wait.

Main results:

* `lock_of_reachable`, `mutex_reachable` — the invariant, and that the mutexes are mutexes;
* `notifications_reach_waiters` — **a notification wakes the waiters it is for, and a wait returns
  with its lock**.
-/

import Elio.ConditionVariableInvariant
import Elio.MutexInvariant

set_option autoImplicit false

namespace Elio.ConditionVariable

open Function (update update_self update_of_ne update_apply)

variable {ι κ μ : Type*}

/-! ### The invariant -/

/-- Locations before the waiter is in the list. -/
def Pc.isEntry : Pc ι → Bool
  | .idle | .ready | .enter .check | .locked .check | .enter .publish | .locked .publish => true
  | _ => false

/-- What is known of a wait and of its lock. -/
structure LockOk (call : Call κ μ) (i : ι) (o : Op ι) (mutexes : κ → Mutex.State μ)
    (locks : κ → Option (Option ι)) : Prop where
  entry : o.pc.isEntry = true → o.published = false
  unpublished : o.published = false → o.lockReleased = false ∧ o.pc ≠ .unlock
  unlock : o.pc = .unlock → o.lockReleased = false
  mutex : ∀ k held again c, call = .wait (.mutex k held again) c → o.active = true →
    o.pc ≠ .unlock → o.lockReleased = false → ((mutexes k).ops held).pc = .holding
  synchronous : ∀ k c, call = .wait (.synchronous k) c → o.active = true →
    o.lockReleased = false → locks k = some (some i)

variable {calls : ι → Call κ μ} {call : Call κ μ} {i j : ι} {o o' : Op ι} {s s' : State ι κ μ}
  {mutexes mutexes' : κ → Mutex.State μ} {locks locks' : κ → Option (Option ι)}

/-- The operation takes a step of its own that touches no lock. -/
structure Quiet (o o' : Op ι) : Prop where
  active : o.active = true
  unlock : o.pc ≠ .unlock
  released : o'.lockReleased = o.lockReleased
  entry : o'.pc.isEntry = true → o.pc.isEntry = true ∧ o'.published = o.published
  published : o'.published = false → o.published = false ∧ o'.pc ≠ .unlock
  leaves : o'.pc = .unlock → o.pc.isEntry = true

/-- The operation is where it was, as far as its lock is concerned. -/
structure Same (o o' : Op ι) : Prop where
  pc : o'.pc = o.pc
  released : o'.lockReleased = o.lockReleased
  published : o'.published = o.published

theorem Same.refl (o : Op ι) : Same o o := ⟨rfl, rfl, rfl⟩

@[local grind =] theorem Pc.isEntry_locked (c : Cs) :
    (Pc.locked c : Pc ι).isEntry = (Pc.enter c : Pc ι).isEntry := by
  cases c <;> rfl

attribute [local grind] Pc.isEntry Op.active
attribute [local grind .] Same.refl
attribute [local grind →] Same.pc Same.released Same.published

theorem LockOk.quiet (h : LockOk call i o mutexes locks) (hquiet : Quiet o o') :
    LockOk call i o' mutexes locks := by
  cases h
  cases hquiet
  constructor <;> grind

/-- The locks change, and those of an operation that is where it was do not. -/
theorem LockOk.frame (h : LockOk call i o mutexes locks) (hsame : Same o o')
    (hmut : ∀ k held again c, call = .wait (.mutex k held again) c → o.active = true →
      o.pc ≠ .unlock → o.lockReleased = false → ((mutexes k).ops held).pc = .holding →
      ((mutexes' k).ops held).pc = .holding)
    (hlocks : ∀ k c, call = .wait (.synchronous k) c → o.active = true → o.lockReleased = false →
      locks k = some (some i) → locks' k = some (some i)) :
    LockOk call i o' mutexes' locks' := by
  cases h
  constructor <;> grind

/-! ### What a step of an operation does -/

/-- What a step does to the other operations, and to the locks when it touches none. -/
structure Frame (i : ι) (s s' : State ι κ μ) : Prop where
  other : ∀ j, j ≠ i → Same (s.ops j) (s'.ops j)
  mutexes : s'.mutexes = s.mutexes
  locks : s'.locks = s.locks

/-- The step of an operation that touches no lock. -/
structure Silent (i : ι) (s s' : State ι κ μ) : Prop extends Frame i s s' where
  own : Quiet (s.ops i) (s'.ops i)

variable [DecidableEq ι]

attribute [local grind =] State.modify_ops State.release_ops
attribute [local grind] State.goto

@[local grind =] theorem State.modify_locks (f : Op ι → Op ι) :
    (s.modify i f).locks = s.locks := rfl

@[local grind =] theorem State.modify_mutexes (f : Op ι → Op ι) :
    (s.modify i f).mutexes = s.mutexes := rfl

omit [DecidableEq ι] in
@[local grind =] theorem State.release_locks : s.release.locks = s.locks := rfl

omit [DecidableEq ι] in
@[local grind =] theorem State.release_mutexes : s.release.mutexes = s.mutexes := rfl

theorem same_update {o : Op ι} (hops : s'.ops = update s.ops i o) (j : ι) (hj : j ≠ i) :
    Same (s.ops j) (s'.ops j) := by
  rw [hops, update_of_ne hj]
  exact .refl _

theorem notify_silent [DecidableEq κ] [DecidableEq μ] (hpc : (s.ops i).pc = .locked .notify) :
    Silent i s (notify calls s i) := by
  have hsel : ∀ w rest, Silent i s (select calls s i w rest) := by
    intro w rest
    unfold select
    refine ⟨⟨fun j hj => ⟨?_, ?_, ?_⟩, ?_, ?_⟩, ⟨?_, ?_, ?_, ?_, ?_, ?_⟩⟩ <;> grind
  have hend : ∀ t, Silent i s t → Silent i s (endNotify t i) := by
    rintro t ⟨⟨hother, hmutexes, hlocks⟩, ⟨g1, g2, g3, g4, g5, g6⟩⟩
    unfold endNotify
    refine ⟨⟨fun j hj => ⟨?_, ?_, ?_⟩, ?_, ?_⟩, ⟨?_, ?_, ?_, ?_, ?_, ?_⟩⟩ <;> grind
  have hstay : ∀ waiters, Silent i s { s with waiters := waiters } := by
    intro waiters
    refine ⟨⟨fun j hj => .refl _, rfl, rfl⟩, ⟨?_, ?_, ?_, ?_, ?_, ?_⟩⟩ <;> grind
  unfold notify
  split
  · exact hend s (hstay s.waiters)
  · split_ifs
    · exact hstay _
    · exact hend _ (hsel _ _)
    · exact hsel _ _

variable [DecidableEq κ] [DecidableEq μ]

/-- **A step of an operation that neither releases nor takes the lock of a user.** -/
theorem act_silent (hstep : act calls s i = some s') (hunlock : (s.ops i).pc ≠ .unlock)
    (hrelock : ∀ r, (s.ops i).pc ≠ .relock r) : Silent i s s' := by
  by_cases hnotify : (s.ops i).pc = .locked .notify
  · rw [act, hnotify] at hstep
    cases hstep
    exact notify_silent hnotify
  unfold act actLocked ready check unlink finish publish pushBack unblock resume relocking
    schedule at hstep
  refine ⟨⟨fun j hj => ⟨?_, ?_, ?_⟩, ?_, ?_⟩, ⟨?_, ?_, ?_, ?_, ?_, ?_⟩⟩
  all_goals grind

/-! ### Every step keeps the invariant -/

/-- The invariant of a state. -/
def State.LocksOk (calls : ι → Call κ μ) (s : State ι κ μ) : Prop :=
  ∀ i, LockOk (calls i) i (s.ops i) s.mutexes s.locks

omit [DecidableEq ι] [DecidableEq κ] [DecidableEq μ] in
/-- Only the operation `i` takes a step. -/
theorem LocksOk.of_own (h : s.LocksOk calls) (hother : ∀ j, j ≠ i → Same (s.ops j) (s'.ops j))
    (hown : LockOk (calls i) i (s'.ops i) s'.mutexes s'.locks)
    (hmut : ∀ k m, ((s.mutexes k).ops m).pc = .holding → ((s'.mutexes k).ops m).pc = .holding)
    (hlocks : ∀ k j, j ≠ i → (s.ops j).active = true → s.locks k = some (some j) →
      s'.locks k = some (some j)) : s'.LocksOk calls := by
  intro j
  rcases eq_or_ne j i with rfl | hj
  · exact hown
  · exact (h j).frame (hother j hj) (fun k held _ _ _ _ _ _ => hmut k held)
      fun k _ _ hactive _ => hlocks k j hj hactive

omit [DecidableEq ι] [DecidableEq κ] [DecidableEq μ] in
theorem Silent.locksOk (hsilent : Silent i s s') (h : s.LocksOk calls) : s'.LocksOk calls := by
  refine LocksOk.of_own h hsilent.other ?_ ?_ ?_
  · rw [hsilent.mutexes, hsilent.locks]
    exact (h i).quiet hsilent.own
  · rw [hsilent.mutexes]
    exact fun _ _ => id
  · rw [hsilent.locks]
    exact fun _ _ _ _ => id

omit [DecidableEq κ] in
/-- An operation that holds a mutex gives it up by a step of its own. -/
theorem holding_update [DecidableEq κ] {k : κ} {m : Mutex.State μ} {l : Mutex.Label μ}
    (hstep : Mutex.step (mutexes k) l = some m) {k' : κ} {held : μ}
    (hne : k' = k → l ≠ .act held) (hheld : ((mutexes k').ops held).pc = .holding) :
    ((update mutexes k m k').ops held).pc = .holding := by
  by_cases hk : k' = k
  · subst hk
    rw [update_self]
    exact Mutex.holding_of_step hstep (hne rfl) hheld
  · rw [update_of_ne hk]
    exact hheld

theorem unlock_frame (hstep : unlock s i (calls i) = some s') : s'.mutexes = s.mutexes ∧
    s'.ops = update s.ops i { s.ops i with lockReleased := true, pc := .unblock } ∧
      ∀ k, s'.locks k = s.locks k ∨ ∃ c, calls i = .wait (.synchronous k) c := by
  unfold unlock at hstep
  split at hstep
  next k held again c hc =>
    split_ifs at hstep
    cases hstep
    exact ⟨rfl, rfl, fun _ => .inl rfl⟩
  next k c hc =>
    cases hstep
    refine ⟨rfl, rfl, fun k' => ?_⟩
    rcases eq_or_ne k' k with rfl | hk
    · exact .inr ⟨c, hc⟩
    · exact .inl (update_of_ne hk _ _)
  next => cases hstep

theorem unlock_locksOk (h : s.LocksOk calls) (hpc : (s.ops i).pc = .unlock)
    (hstep : unlock s i (calls i) = some s') : s'.LocksOk calls := by
  obtain ⟨hmutexes, hops, hlocks⟩ := unlock_frame hstep
  cases h i
  refine LocksOk.of_own h (same_update hops) ?_ (hmutexes ▸ fun _ _ => id) ?_
  · rw [hops]
    constructor <;> grind
  · intro k j hj hactive hheld
    rcases hlocks k with hsame | ⟨c, hc⟩
    · rw [hsame, hheld]
    · grind

variable {r : CancelResult}

theorem relock_frame (hstep : relock s i r (calls i) = some s') :
    (∃ k held again c m, calls i = .wait (.mutex k held again) c ∧ (s.ops i).lockReleased = true ∧
        Mutex.step (s.mutexes k) (.start again .lock) = some m ∧
        s' = { s with mutexes := update s.mutexes k m }.goto i (.relocking r)) ∨
      (∃ k c, calls i = .wait (.synchronous k) c ∧ (s.ops i).lockReleased = true ∧
        s.locks k = none ∧
        s' = { s with locks := update s.locks k (some (some i)) }.goto i (.done r)) ∨
      ((s.ops i).lockReleased = false ∨ ∀ lock c, calls i = .wait lock c → lock = .unlocked) ∧
        s' = s.goto i (.done r) := by
  unfold relock at hstep
  split at hstep
  next k held again c hc =>
    split_ifs at hstep with hrel
    · obtain ⟨m, hm, rfl⟩ := Option.map_eq_some_iff.1 hstep
      exact .inl ⟨k, held, again, c, m, hc, hrel, hm, rfl⟩
    · cases hstep
      exact .inr (.inr ⟨.inl (by simpa using hrel), rfl⟩)
  next k c hc =>
    split_ifs at hstep with hrel hfree <;> cases hstep
    · exact .inr (.inl ⟨k, c, hc, hrel, hfree, rfl⟩)
    · exact .inr (.inr ⟨.inl (by simpa using hrel), rfl⟩)
  next hmut hsync =>
    cases hstep
    refine .inr (.inr ⟨.inr fun lock c hc => ?_, rfl⟩)
    cases lock <;> grind

theorem relock_locksOk (h : s.LocksOk calls)
    (hstep : relock s i r (calls i) = some s') : s'.LocksOk calls := by
  cases h i
  rcases relock_frame hstep with ⟨k, held, again, c, m, hc, hrel, hm, rfl⟩ |
    ⟨k, c, hc, hrel, hfree, rfl⟩ | ⟨-, rfl⟩
  · refine LocksOk.of_own h (same_update rfl) ?_ ?_ fun _ _ _ _ => id
    · constructor <;> grind
    · exact fun k' m' hheld => holding_update hm nofun hheld
  · refine LocksOk.of_own h (same_update rfl) ?_ (fun _ _ => id) ?_
    · constructor <;> grind
    · intro k' j _ _ hheld
      have hk : k' ≠ k := by grind
      exact (update_of_ne hk _ _).trans hheld
  · refine LocksOk.of_own h (same_update rfl) ?_ (fun _ _ => id) fun _ _ _ _ => id
    constructor <;> grind

theorem start_locks (hstep : start calls s i = some s') :
    (∀ k held again c, calls i = .wait (.mutex k held again) c →
        ((s.mutexes k).ops held).pc = .holding) ∧
      (∀ k c, calls i = .wait (.synchronous k) c → s'.locks k = some (some i)) ∧
      ∀ k j, j ≠ i → (s.ops j).active = true → s.locks k = some (some j) →
        s'.locks k = some (some j) := by
  unfold start at hstep
  split at hstep
  next lock c hc =>
    dsimp only at hstep
    split at hstep
    next k held again =>
      refine ⟨?_, ?_, ?_⟩ <;> grind
    next k =>
      obtain ⟨hfree, hlocks⟩ : (∀ j, s.locks k = some (some j) → (s.ops j).active = false) ∧
          s'.locks = update s.locks k (some (some i)) := by
        grind
      have hlocks : ∀ k', s'.locks k' = if k' = k then some (some i) else s.locks k' := by
        intro k'
        rw [hlocks, update_apply]
      refine ⟨?_, ?_, ?_⟩ <;> grind
    next => refine ⟨?_, ?_, ?_⟩ <;> grind
  next hc => grind

theorem start_locksOk (h : s.LocksOk calls) (hpc : (s.ops i).pc = .idle)
    (hstep : start calls s i = some s') : s'.LocksOk calls := by
  obtain ⟨hmutexes, -, -, pc, hpcs, hops⟩ := start_frame hstep
  obtain ⟨hmut, hsync, hlocks⟩ := start_locks hstep
  cases h i
  refine LocksOk.of_own h (same_update hops) ?_ (hmutexes ▸ fun _ _ => id) hlocks
  rw [hops]
  constructor <;> grind

variable [Fintype ι] {l : Label ι κ μ}

/-- **Every step keeps the invariant.** -/
theorem step_locksOk (h : s.LocksOk calls) (hstep : step calls s l = some s') :
    s'.LocksOk calls := by
  unfold step at hstep
  split at hstep
  case h_1 i =>
    split_ifs at hstep with hpc
    exact start_locksOk h hpc hstep
  case h_2 i =>
    by_cases hunlock : (s.ops i).pc = .unlock
    · rw [act, hunlock] at hstep
      exact unlock_locksOk h hunlock hstep
    by_cases hrelock : ∃ r, (s.ops i).pc = .relock r
    · obtain ⟨r, hr⟩ := hrelock
      rw [act, hr] at hstep
      exact relock_locksOk h hstep
    · exact (act_silent hstep hunlock (fun r hr => hrelock ⟨r, hr⟩)).locksOk h
  case h_3 i | h_4 i =>
    split_ifs at hstep
    cases hstep
    refine LocksOk.of_own h (same_update rfl) ?_ (fun _ _ => id) fun _ _ _ _ => id
    rw [State.modify_ops, if_pos rfl]
    exact (h i).frame ⟨rfl, rfl, rfl⟩ (fun _ _ _ _ _ _ _ _ => id) fun _ _ _ _ _ => id
  case h_5 k l =>
    split_ifs at hstep with hallowed
    obtain ⟨m, hm, rfl⟩ := Option.map_eq_some_iff.1 hstep
    intro j
    refine (h j).frame (.refl _) ?_ fun _ _ _ _ _ => id
    intro k' held again c hcall hactive hpc hrel hheld
    refine holding_update hm ?_ hheld
    -- the holder does not unlock while it is in the wait
    rintro rfl rfl
    have hkeeps : keepsLock calls s k' held j = false := by
      simp only [allowed, hheld, ne_eq, not_true_eq_false, decide_false, Bool.false_or,
        decide_eq_true_eq] at hallowed
      exact hallowed j
    simp [keepsLock, hcall, hactive, hpc, hrel] at hkeeps
  case h_6 k =>
    split_ifs at hstep with hfree
    cases hstep
    intro j
    refine (h j).frame (.refl _) (fun _ _ _ _ _ _ _ _ => id) ?_
    grind
  case h_7 k =>
    -- nobody who is in a wait holds the lock
    have hcase : (∀ j, s.locks k = some (some j) → (s.ops j).active = false) ∧
        s' = { s with locks := update s.locks k none } := by
      grind
    obtain ⟨hlock, rfl⟩ := hcase
    intro j
    refine (h j).frame (.refl _) (fun _ _ _ _ _ _ _ _ => id) ?_
    grind

/-- **The invariant of the locks holds in every reachable state.** -/
theorem lock_of_reachable (h : (system calls).Reachable s) (i : ι) :
    LockOk (calls i) i (s.ops i) s.mutexes s.locks := by
  refine h.invariant ?_ (fun _ _ _ hok _ hl => step_locksOk hok hl) i
  rintro s rfl i
  exact ⟨fun _ => rfl, fun _ => ⟨rfl, nofun⟩, nofun, nofun, nofun⟩

/-! ### The mutexes -/

omit [DecidableEq ι] [DecidableEq μ] [Fintype ι] in
theorem mutex_update {mutexes : κ → Mutex.State μ} [DecidableEq μ] {k' : κ} {l : Mutex.Label μ}
    {m : Mutex.State μ} (hm : Mutex.step (mutexes k') l = some m) (k : κ) :
    update mutexes k' m k = mutexes k ∨
      ∃ l, Mutex.step (mutexes k) l = some (update mutexes k' m k) := by
  rcases eq_or_ne k k' with rfl | hk
  · rw [update_self]
    exact .inr ⟨l, hm⟩
  · exact .inl (update_of_ne hk _ _)

/-- **A step of the system is a step of each mutex, or leaves it as it is.** -/
theorem mutex_step (hstep : step calls s l = some s') (k : κ) :
    s'.mutexes k = s.mutexes k ∨ ∃ l', Mutex.step (s.mutexes k) l' = some (s'.mutexes k) := by
  unfold step at hstep
  split at hstep
  case h_1 i =>
    split_ifs at hstep
    exact .inl (congrFun (start_frame hstep).1 k)
  case h_2 i =>
    by_cases hunlock : (s.ops i).pc = .unlock
    · rw [act, hunlock] at hstep
      exact .inl (congrFun (unlock_frame hstep).1 k)
    by_cases hrelock : ∃ r, (s.ops i).pc = .relock r
    · obtain ⟨r, hr⟩ := hrelock
      rw [act, hr] at hstep
      rcases relock_frame hstep with ⟨k', held, again, c, m, -, -, hm, rfl⟩ |
        ⟨k', c, -, -, -, rfl⟩ | ⟨-, rfl⟩
      · exact mutex_update hm k
      · exact .inl rfl
      · exact .inl rfl
    · exact .inl (congrFun (act_silent hstep hunlock fun r hr => hrelock ⟨r, hr⟩).mutexes k)
  case h_5 k' l =>
    split_ifs at hstep
    obtain ⟨m, hm, rfl⟩ := Option.map_eq_some_iff.1 hstep
    exact mutex_update hm k
  all_goals left; grind

/-- **The mutexes are mutexes**: each is in a state that it can reach by itself. -/
theorem mutex_reachable (h : (system calls).Reachable s) (k : κ) :
    (Mutex.system μ).Reachable (s.mutexes k) := by
  refine h.invariant (I := fun s => ∀ k, (Mutex.system μ).Reachable (s.mutexes k)) ?_ ?_ k
  · rintro s rfl k
    exact .init rfl
  · intro s l s' hs _ hl k
    rcases mutex_step hl k with hsame | ⟨l', hl'⟩
    · rw [hsame]
      exact hs k
    · exact (hs k).next hl'

/-! ### The return of a wait -/

/-- The lock of a wait is with its caller. -/
def Holds (s : State ι κ μ) (i : ι) : Call κ μ → Prop
  | .wait (.mutex k held again) _ =>
    ((s.mutexes k).ops (if (s.ops i).lockReleased then again else held)).pc = .holding
  | .wait (.synchronous k) _ => s.locks k = some (some i)
  | _ => True

omit [Fintype ι] in
/-- A wait ends after it has taken its lock, or found that it had not released it. -/
theorem act_done (h : s.Ok calls) (hwait : (calls i).isWait = true)
    (hstep : act calls s i = some s') (hdone : (s'.ops i).pc = .done r) :
    (∃ r', (s.ops i).pc = .relock r') ∨ ∃ r', (s.ops i).pc = .relocking r' := by
  have hstage := (h.wait i hwait).stage
  unfold act actLocked ready check unlink finish publish pushBack unlock unblock resume at hstep
  split at hstep
  case h_10 r' hpc => exact .inl ⟨r', hpc⟩
  case h_11 r' hpc => exact .inr ⟨r', hpc⟩
  all_goals grind [Pc.allows]

omit [Fintype ι] in
theorem act_other (hstep : act calls s i = some s') (hne : j ≠ i) : Same (s.ops j) (s'.ops j) := by
  by_cases hunlock : (s.ops i).pc = .unlock
  · rw [act, hunlock] at hstep
    exact same_update (unlock_frame hstep).2.1 j hne
  by_cases hrelock : ∃ r, (s.ops i).pc = .relock r
  · obtain ⟨r, hr⟩ := hrelock
    rw [act, hr] at hstep
    rw [(relock_cases hstep).2.1 j hne]
    exact .refl _
  · exact (act_silent hstep hunlock fun r hr => hrelock ⟨r, hr⟩).other j hne

theorem done_of_step (hstep : step calls s l = some s')
    (hdone : (s'.ops i).pc = .done r) (hpre : ∀ r, (s.ops i).pc ≠ .done r) : l = .act i := by
  unfold step at hstep
  split at hstep
  case h_1 j =>
    split_ifs at hstep
    obtain ⟨-, -, -, pc, hpc, hops⟩ := start_frame hstep
    rw [hops] at hdone
    grind
  case h_2 j =>
    by_contra hnot
    have hsame := act_other hstep (j := i) (by grind)
    exact hpre r (hsame.pc ▸ hdone)
  case h_5 k l =>
    split_ifs at hstep
    obtain ⟨m, -, rfl⟩ := Option.map_eq_some_iff.1 hstep
    exact absurd hdone (hpre r)
  all_goals grind

/-- **A wait returns with its lock.** -/
theorem holds_of_return (h : (system calls).Reachable s) (hwait : (calls i).isWait = true)
    (hstep : step calls s l = some s')
    (hdone : (s'.ops i).pc = .done r) (hpre : ∀ r, (s.ops i).pc ≠ .done r) :
    Holds s' i (calls i) := by
  obtain ⟨-, -, -, hmut, hsync⟩ := lock_of_reachable h i
  obtain rfl := done_of_step hstep hdone hpre
  rw [step] at hstep
  rcases act_done (inv_of_reachable h) hwait hstep hdone with ⟨r', hpc⟩ | ⟨r', hpc⟩ <;>
    rw [act, hpc] at hstep <;> dsimp only at hstep
  · rcases relock_frame hstep with ⟨k, held, again, c, m, -, -, -, rfl⟩ |
      ⟨k, c, hc, -, -, rfl⟩ | ⟨hfree, rfl⟩
    · grind
    · rw [hc]
      exact update_self k _ _
    · unfold Holds
      grind
  · unfold relocking at hstep
    unfold Holds
    grind

/-! ### Notifications -/

/-- A wait that is not in the list, was not selected and is not cancelled has its lock. -/
theorem lock_of_unpublished (h : (system calls).Reachable s) (hwait : (calls i).isWait = true)
    (hactive : (s.ops i).active = true) : i ∈ s.waiters ∨ (∃ n, i ∈ (s.ops n).selected) ∨
      (s.ops i).wake.wasCancelled = true ∨
      (s.ops i).lockReleased = false ∧ Holds s i (calls i) := by
  have hold := (inv_of_reachable h).wait i hwait
  have hlock := lock_of_reachable h i
  have hstage := hold.stage
  cases hwake : (s.ops i).wake with
  | idle =>
    have hent : (s.ops i).pc.isEntry = true := by
      cases hpc : (s.ops i).pc with
      | enter x | locked x | relock x | relocking x | done x =>
        cases x <;> simp_all [Pc.allows, Pc.isEntry]
      | _ => simp_all [Pc.allows, Pc.isEntry]
    obtain ⟨hrel, hpc⟩ := hlock.unpublished (hlock.entry hent)
    refine .inr (.inr (.inr ⟨hrel, ?_⟩))
    match hc : calls i with
    | .wait (.mutex k held again) c =>
      rw [Holds, hrel]
      exact hlock.mutex k held again c hc hactive hpc hrel
    | .wait (.synchronous k) c => exact hlock.synchronous k c hc hactive hrel
    | .wait .unlocked c | .notifyOne | .notifyAll => trivial
  | blocked | waiting =>
    rcases hold.live (by simp [hwake]) with ⟨hlink, -⟩ | ⟨-, -, hchosen, -⟩
    · exact .inl hlink
    · exact .inr (.inl hchosen)
  | notifiedInline | notificationClaimed | notificationScheduling =>
    exact .inr (.inl (hold.notified (by rw [hwake]; rfl)).2)
  | cancelledInline | cancellationClaimed | cancellationScheduling => exact .inr (.inr (.inl rfl))
  | abandoned =>
    rw [hwake, Pc.allows_abandoned] at hstage
    cases hstage

/-- A wait that was selected is on its way when the notification has returned. -/
theorem woken_of_selected (h : (system calls).Reachable s) {n w : ι}
    (hsel : w ∈ (s.ops n).selected) :
    (calls w).isWait = true ∧ w ∉ s.waiters ∧ (s.ops w).wake.wasCancelled = false ∧
      (∀ r, (s.ops w).pc = .done r → r = .completed) ∧
      ((s.ops n).pc = .done .completed →
        (s.ops w).wake = .notifiedInline ∨ (s.ops w).wake = .notificationScheduling) := by
  have hinv := inv_of_reachable h
  have hwait := hinv.chosen n w hsel
  have hold := hinv.wait w hwait
  have hchosen : Chosen s.ops w := ⟨n, hsel⟩
  have hnot : (s.ops w).wake.wasCancelled = false := by
    by_contra hcan
    exact (hold.cancelled (by simpa using hcan)).2 hchosen
  -- nobody else has selected it, so nobody else has to schedule it
  have hdue : (s.ops n).pc = .done .completed → ¬ Due s.ops w := by
    rintro hdone ⟨n', hn'⟩
    have hcall : (calls n').isWait = false := by
      by_contra hcall
      rw [pending_of_allows (hinv.wait n' (by simpa using hcall)).stage] at hn'
      cases hn'
    have hsame := hinv.disjoint n n' w hsel ((hinv.notify n' hcall).pending_subset hn')
    rw [← hsame, Op.pending, hdone] at hn'
    cases hn'
  have hstage := hold.stage
  refine ⟨hwait, ?_, hnot, ?_, ?_⟩
  · intro hlink
    rcases hinv.linked_cases hlink with ⟨-, hfree⟩ | hcan
    · exact hfree hchosen
    · rw [hcan] at hnot
      cases hnot
  · intro r hdone
    cases r with
    | completed => rfl
    | cancelled =>
      rw [hdone] at hstage
      cases hwake : (s.ops w).wake <;> rw [hwake] at hstage hnot <;>
        first | (cases hstage; done) | cases hnot
  · intro hdone
    cases hwake : (s.ops w).wake with
    | idle => exact absurd hchosen (hold.unset hwake).2
    | blocked | waiting =>
      rcases hold.live (by simp [hwake]) with ⟨-, hfree⟩ | ⟨-, -, -, hdue'⟩
      · exact absurd hchosen hfree
      · exact absurd hdue' (hdue hdone)
    | notifiedInline => exact .inl rfl
    | notificationScheduling => exact .inr rfl
    | notificationClaimed => exact absurd (hold.claimed hwake) (hdue hdone)
    | cancelledInline | cancellationClaimed | cancellationScheduling =>
      rw [hwake] at hnot
      cases hnot
    | abandoned =>
      rw [hwake, Pc.allows_abandoned] at hstage
      cases hstage

/-- **Notifications are neither lost nor wasted.**  What a notification has selected is a wait that
is not cancelled and does not end cancelled, was selected by no other notification, and is on its
way when the notification has returned.  A `notify_one` selects exactly one wait, unless the
cancellation of every waiter that it found enqueued has won; a `notify_all` selects every waiter
that it found enqueued and whose cancellation has not won.  A wait has its lock until it is in the
list, and returns with its lock, whose other users do not have it. -/
theorem notifications_reach_waiters [Fintype μ] (h : (system calls).Reachable s) :
    (∀ n w, w ∈ (s.ops n).selected →
      (calls w).isWait = true ∧ w ∉ s.waiters ∧ (s.ops w).wake.wasCancelled = false ∧
        (∀ r, (s.ops w).pc = .done r → r = .completed) ∧
        ((s.ops n).pc = .done .completed →
          (s.ops w).wake = .notifiedInline ∨ (s.ops w).wake = .notificationScheduling)) ∧
      (∀ n n' w, w ∈ (s.ops n).selected → w ∈ (s.ops n').selected → n = n') ∧
      (∀ n, calls n = .notifyOne → (s.ops n).pc = .done .completed →
        (∃ w, (s.ops n).selected = [w]) ∨
          (s.ops n).selected = [] ∧ ∀ w ∈ (s.ops n).found, (s.ops w).wake.wasCancelled = true) ∧
      (∀ n, calls n = .notifyAll → (s.ops n).pc = .done .completed →
        (s.ops n).selected.Nodup ∧
          ∀ w ∈ (s.ops n).found, w ∈ (s.ops n).selected ∨ (s.ops w).wake.wasCancelled = true) ∧
      (∀ i, (calls i).isWait = true → (s.ops i).active = true →
        i ∈ s.waiters ∨ (∃ n, i ∈ (s.ops n).selected) ∨ (s.ops i).wake.wasCancelled = true ∨
          (s.ops i).lockReleased = false ∧ Holds s i (calls i)) ∧
      (∀ i l s' r, (calls i).isWait = true → (system calls).step s l = some s' →
        (s'.ops i).pc = .done r → (∀ r', (s.ops i).pc ≠ .done r') → Holds s' i (calls i)) ∧
      ∀ k, Mutex.owners (s.mutexes k) ≤ 1 := by
  have hinv := inv_of_reachable h
  refine ⟨fun n w => woken_of_selected h, hinv.disjoint, ?_, ?_, fun i => lock_of_unpublished h,
    fun i l s' r hwait hstep => holds_of_return h hwait hstep, ?_⟩
  · intro n hcall hdone
    have hold := hinv.notify n (by rw [hcall]; rfl)
    have hone : (calls n).isOne = true := by rw [hcall]; rfl
    have hsingle := hold.single hone
    match hselected : (s.ops n).selected with
    | [] =>
      refine .inr ⟨rfl, fun w hw => ?_⟩
      rcases hold.cover w hw with ⟨hpc, -⟩ | hmem | hcancelled | ⟨-, hsome⟩
      · rw [hdone] at hpc
        cases hpc
      · rw [hselected] at hmem
        cases hmem
      · exact hcancelled
      · exact absurd hselected hsome
    | [w] => exact .inl ⟨w, rfl⟩
    | w :: w' :: ws =>
      rw [hselected] at hsingle
      simp at hsingle
  · intro n hcall hdone
    have hold := hinv.notify n (by rw [hcall]; rfl)
    refine ⟨hinv.distinct n, fun w hw => ?_⟩
    rcases hold.cover w hw with ⟨hpc, -⟩ | hmem | hcancelled | ⟨hone, -⟩
    · rw [hdone] at hpc
      cases hpc
    · exact .inl hmem
    · exact .inr hcancelled
    · rw [hcall] at hone
      cases hone
  · intro k
    have howners := (Mutex.inv_of_reachable (mutex_reachable h k)).owners
    rw [howners]
    split <;> omega

/-- A wait with a token on the mutex that operation `0` holds, a wait without a lock, and a
`notify_one`. -/
def exampleCalls : Fin 3 → Call Unit (Fin 2)
  | 0 => .wait (.mutex () 0 1) true
  | 1 => .wait .unlocked false
  | 2 => .notifyOne

/-- The first wait enters the list and releases its mutex. -/
def waitRun : List (Label (Fin 3) Unit (Fin 2)) :=
  [.mutex () (.start 0 .lock), .mutex () (.act 0), .start 0, .act 0, .act 0, .act 0, .act 0,
    .mutex () (.act 0), .mutex () (.act 0), .mutex () (.act 0), .act 0, .act 0]

/-- The second wait enters the list too, the first is cancelled, `notify_one` is called, and the
first wait takes its mutex again. -/
def skipRun : List (Label (Fin 3) Unit (Fin 2)) :=
  waitRun ++ [.start 1, .act 1, .act 1, .cancel 0, .start 2, .act 2, .act 2, .act 2, .act 2,
    .scheduleCancel 0, .act 0, .act 0, .act 0, .act 0, .act 0, .mutex () (.act 1)]

theorem isSome_skipRun : ((system exampleCalls).run .initial skipRun).isSome := rfl

/-- The notification passes over the wait that was cancelled, and the mutex is taken again. -/
theorem notifications_reach_waiters_skipRun :
    ∃ t, (system exampleCalls).run .initial skipRun = some t ∧ (t.ops 2).selected = [1] ∧
      (t.ops 2).found = [0, 1] ∧ (t.ops 0).pc = .relocking .cancelled ∧
      ((t.ops 1).wake = .notifiedInline ∨ (t.ops 1).wake = .notificationScheduling) :=
  have hsome := (Option.some_get isSome_skipRun).symm
  have h := notifications_reach_waiters (TransitionSystem.reachable_of_run rfl hsome)
  ⟨_, hsome, rfl, rfl, rfl, (h.1 2 1 List.mem_cons_self).2.2.2.2 rfl⟩

/-- `notify_one` is called and enters `internal_mutex_`. -/
def issuedRun : List (Label (Fin 3) Unit (Fin 2)) := waitRun ++ [.start 2, .act 2]

theorem isSome_issuedRun : ((system exampleCalls).run .initial issuedRun).isSome := rfl

theorem isSome_lateCancel : ((system exampleCalls).run
    (((system exampleCalls).run .initial issuedRun).get isSome_issuedRun)
    [.cancel 0, .act 2, .act 2]).isSome := rfl

/-- The one waiter that `notify_one` finds is live, and its cancellation wins before it is selected:
the notification wakes nobody. -/
theorem notifyOne_wakes_nobody :
    ∃ s t, (system exampleCalls).run .initial issuedRun = some s ∧ s.waiters = [0] ∧
      (s.ops 0).wake = .waiting ∧ (s.ops 2).pc = .locked .notify ∧ (s.ops 2).found = [0] ∧
      (system exampleCalls).run s [.cancel 0, .act 2, .act 2] = some t ∧
      (t.ops 2).pc = .done .completed ∧ (t.ops 2).selected = [] :=
  ⟨_, _, (Option.some_get isSome_issuedRun).symm, rfl, rfl, rfl, rfl,
    (Option.some_get isSome_lateCancel).symm, rfl, rfl⟩

end Elio.ConditionVariable
