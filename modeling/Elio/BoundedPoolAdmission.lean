/-
**`elio::http::detail::bounded_pool`: admission is in order and does not stall.**

A waiter may be granted a slot while its cancellation or its deadline is on the way; `~departure`
takes the grant back.  `clear(true)` empties the queue for good, and the waiters it finds there end
with the shutdown result, unless their wait has ended otherwise.

Main definitions:

* `OpOk` — what is known of an operation and of its permits;
* `Orderly` — the invariant of the operations.

Main results:

* `fifo_admission` — **admission is in order and does not stall**;
* `cancelled_after_close` — a waiter that was queued when the pool was closed, and ends with another
  result.
-/

import Elio.BoundedPoolQueue
import Mathlib.Data.List.Count

set_option autoImplicit false

namespace Elio.BoundedPool

open Function (update update_self update_of_ne)
open List

variable {κ ι : Type*}

/-! ### The invariant -/

/-- The result that the wait for `ready` leads to. -/
def Ends (o : Op) (r : Result) : Prop :=
  match o.outcome with
  | none => o.error = none
  | some .completed => r = match o.error with
    | some e => .failed e
    | none => .granted
  | some .cancelled => r = .failed .cancelled
  | some .timedOut => r = .failed .timedOut
  | some .abandoned => r = .abandoned

/-- The operation is about to leave without a grant. -/
def Pc.leaves (pc : Pc) : Prop := ∃ r, pc = .leave r ∧ r ≠ .granted

/-- What is known of an operation: whether it is queued, has arrived and was granted a slot, and how
many permits are in its waiter, in its `departure` and with its caller. -/
structure OpOk (o : Op) (queued arrived granted : Prop) (sel back out : ℕ) : Prop where
  early : o.pc = .idle ∨ o.pc = .loop →
    ¬ arrived ∧ o.error = none ∧ o.notified = false ∧ o.outcome = none
  linked : queued → o.error = none ∧ o.notified = false ∧ sel = 0 ∧
    (o.pc = .waiting ∨ o.pc.leaves ∧ o.outcome ≠ none)
  selected : sel ≠ 0 → sel = 1 ∧ o.error = none ∧
    (o.pc = .waiting ∨ o.pc = .collect ∨ o.pc.leaves ∧ o.outcome ≠ none)
  waits : o.pc = .waiting ∨ o.pc = .collect → queued ∨ sel = 1 ∨ o.error = some .shutdown
  ready : o.ready = true → o.notified = true
  waiting : o.pc = .waiting → o.outcome = none
  collect : o.pc = .collect → o.outcome = some .completed ∧ o.notified = true
  recovered : back ≠ 0 → back = 1 ∧ ∃ r, o.pc = .recover r ∧ r ≠ .granted
  leased : out ≠ 0 → o.pc = .leave .granted ∨ o.pc = .done .granted
  given : sel ≠ 0 ∨ back ≠ 0 ∨ out ≠ 0 → granted
  error : ∀ e, o.error = some e → e = .shutdown ∧ o.notified = true
  result : ∀ r, o.pc = .leave r ∨ o.pc = .recover r ∨ o.pc = .done r → Ends o r

variable [DecidableEq ι]

/-- The operations that are queued. -/
def State.queue (s : State κ ι) : List ι := s.pool.waiters.map (·.op)

/-- **The invariant of the operations.** -/
structure Orderly (s : State κ ι) : Prop where
  nodup : s.arrived.Nodup
  order : (s.granted ++ s.queue).Sublist s.arrived
  ops : ∀ i, OpOk (s.ops i) (i ∈ s.queue) (i ∈ s.arrived) (i ∈ s.granted)
    (s.pool.placed (.selected i)) (s.pool.placed (.recovered i)) (s.pool.placed (.leased i))
  shut : ∀ i, (s.ops i).error ≠ none → s.pool.closing = true

variable {s s' : State κ ι} {i : ι}

theorem Orderly.nodup_queue (h : Orderly s) : s.queue.Nodup :=
  (h.nodup.sublist h.order).of_append_right

/-! ### A critical section -/

variable {granted' : Prop} {out' : ℕ}

/-- An operation that takes no step, and is served or not. -/
theorem OpOk.serve {o : Op} {queued arrived granted : Prop} {sel back out : ℕ}
    (h : OpOk o queued arrived granted sel back out) (hlink : queued) (hgrant : granted')
    (hleased : out' ≤ out) :
    OpOk { o with notified := true } False arrived granted' 1 back out' := by
  obtain ⟨herr, -, -, hpc⟩ := h.linked hlink
  refine ⟨?_, False.elim, fun _ => ⟨rfl, herr, ?_⟩, fun _ => .inr (.inl rfl), fun _ => rfl,
    h.waiting, fun hc => ⟨(h.collect hc).1, rfl⟩, h.recovered, ?_, fun _ => hgrant,
    fun e he => ⟨(h.error e he).1, rfl⟩, h.result⟩
  · rcases hpc with hpc | ⟨⟨r, hpc, -⟩, -⟩ <;> simp only [hpc] <;> nofun
  · exact hpc.imp_right .inr
  · exact fun hne => h.leased (by omega)

theorem OpOk.keep {o : Op} {queued arrived granted : Prop} {sel back out : ℕ}
    (h : OpOk o queued arrived granted sel back out) (hgrant : granted → granted')
    (hleased : out' ≤ out) : OpOk o queued arrived granted' sel back out' :=
  { h with
    leased := fun hne => h.leased (by omega)
    given := fun hne => hgrant (h.given (by omega)) }

theorem count_selected (served : List ι) (i : ι) :
    (served.map Place.selected).count (.selected i) = served.count i :=
  count_map_of_injective _ _ (fun _ _ h => by injection h) _

theorem count_selected_of_ne {place : Place ι} (served : List ι) (h : ∀ j, place ≠ .selected j) :
    (served.map Place.selected).count place = 0 := by
  refine count_eq_zero_of_not_mem fun hmem => ?_
  obtain ⟨j, -, hj⟩ := mem_map.1 hmem
  exact h j hj.symm

variable {q : Pool κ ι} {served : List ι}

/-- **A critical section serves operations from the front of the queue.**  The callers may lose
permits in it. -/
theorem Orderly.settle (h : Orderly s)
    (hq : s.queue = served ++ q.waiters.map (·.op)) (hclosing : q.closing = s.pool.closing)
    (hsel : ∀ j, q.placed (.selected j) = s.pool.placed (.selected j) + served.count j)
    (hrecovered : ∀ j, q.placed (.recovered j) = s.pool.placed (.recovered j))
    (hleased : ∀ j, q.placed (.leased j) ≤ s.pool.placed (.leased j)) :
    Orderly (s.settle (q, served)) := by
  have hnd := h.nodup_queue
  rw [hq] at hnd
  refine ⟨h.nodup, ?_, fun j => ?_, fun j hj => ?_⟩
  · have horder := h.order
    rw [hq, ← append_assoc] at horder
    exact horder
  · have hold := h.ops j
    change OpOk (if j ∈ served then { s.ops j with notified := true } else s.ops j)
      (j ∈ q.waiters.map (·.op)) (j ∈ s.arrived) (j ∈ s.granted ++ served) (q.placed _) (q.placed _)
      (q.placed _)
    rw [hsel j, hrecovered j]
    by_cases hj : j ∈ served
    · have hcnt : served.count j = 1 := count_eq_one_of_mem hnd.of_append_left hj
      have hlink : j ∈ s.queue := by
        rw [hq]
        exact mem_append_left _ hj
      have hrest : j ∉ q.waiters.map (·.op) := fun hmem =>
        (nodup_append.1 hnd).2.2 j hj j hmem rfl
      rw [if_pos hj, hcnt, (hold.linked hlink).2.2.1]
      simp only [hrest]
      exact hold.serve hlink (mem_append_right _ hj) (hleased j)
    · have hcnt : served.count j = 0 := count_eq_zero_of_not_mem hj
      have hiff : j ∈ q.waiters.map (·.op) ↔ j ∈ s.queue := by
        rw [hq, mem_append]
        exact ⟨.inr, fun hmem => hmem.resolve_left hj⟩
      rw [if_neg hj, hcnt, hiff]
      exact hold.keep (mem_append_left _) (hleased j)
  · change q.closing = true
    rw [hclosing]
    refine h.shut j ?_
    change (if j ∈ served then { s.ops j with notified := true } else s.ops j).error ≠ none at hj
    split_ifs at hj <;> exact hj

/-- A critical section in which nobody loses a permit. -/
theorem Orderly.serves (h : Orderly s)
    (hserves : Serves s.pool q served) : Orderly (s.settle (q, served)) := by
  refine h.settle hserves.queue hserves.closing (fun j => ?_) (fun j => ?_) fun j => ?_
  · rw [hserves.placed (.selected j) nofun, count_selected]
  · rw [hserves.placed (.recovered j) nofun, count_selected_of_ne _ nofun, Nat.add_zero]
  · rw [hserves.placed (.leased j) nofun, count_selected_of_ne _ nofun, Nat.add_zero]

/-- A critical section in which the caller of `j` may lose a permit. -/
theorem Orderly.uses (h : Orderly s) {j : ι}
    (huses : Uses (.leased j) s.pool q served) : Orderly (s.settle (q, served)) := by
  refine h.settle huses.queue huses.closing (fun k => ?_) (fun k => ?_) fun k => ?_
  · rw [huses.other (.selected k) nofun nofun, count_selected]
  · rw [huses.other (.recovered k) nofun nofun, count_selected_of_ne _ nofun, Nat.add_zero]
  · by_cases hk : k = j
    · rw [hk]
      have hown := huses.own
      rw [count_selected_of_ne _ nofun] at hown
      exact hown
    · rw [huses.other (.leased k) nofun (by simp [hk]), count_selected_of_ne _ nofun, Nat.add_zero]

theorem settle_nil (q : Pool κ ι) : s.settle (q, []) = { s with pool := q } := by
  rw [State.settle]
  simp only [not_mem_nil, if_false, append_nil]

/-- **One operation takes a step of its own.** -/
theorem Orderly.own (h : Orderly s) (hops : ∀ j, j ≠ i → s'.ops j = s.ops j)
    (hq : ∀ j, j ≠ i → (j ∈ s'.queue ↔ j ∈ s.queue))
    (hplaced : ∀ j, j ≠ i → s'.pool.placed (.selected j) = s.pool.placed (.selected j) ∧
      s'.pool.placed (.recovered j) = s.pool.placed (.recovered j) ∧
      s'.pool.placed (.leased j) = s.pool.placed (.leased j))
    (harrived : ∀ j, j ≠ i → (j ∈ s'.arrived ↔ j ∈ s.arrived))
    (hgrant : ∀ j, j ∈ s.granted → j ∈ s'.granted) (hnd : s'.arrived.Nodup)
    (horder : (s'.granted ++ s'.queue).Sublist s'.arrived)
    (hclosing : s.pool.closing = true → s'.pool.closing = true)
    (herr : (s'.ops i).error = (s.ops i).error)
    (hself : OpOk (s'.ops i) (i ∈ s'.queue) (i ∈ s'.arrived) (i ∈ s'.granted)
      (s'.pool.placed (.selected i)) (s'.pool.placed (.recovered i))
      (s'.pool.placed (.leased i))) : Orderly s' := by
  refine ⟨hnd, horder, fun j => ?_, fun j hj => ?_⟩
  · by_cases hji : j = i
    · rw [hji]
      exact hself
    · obtain ⟨hsel, hrecovered, hleased⟩ := hplaced j hji
      rw [hops j hji, hq j hji, harrived j hji, hsel, hrecovered, hleased]
      exact (h.ops j).keep (hgrant j) le_rfl
  · refine hclosing (h.shut j ?_)
    by_cases hji : j = i
    · rw [hji] at hj ⊢
      exact herr ▸ hj
    · rw [hops j hji] at hj
      exact hj

/-- An operation goes on without touching the pool. -/
theorem Orderly.modify (h : Orderly s) {f : Op → Op} (herr : (f (s.ops i)).error = (s.ops i).error)
    (hself : OpOk (f (s.ops i)) (i ∈ s.queue) (i ∈ s.arrived) (i ∈ s.granted)
      (s.pool.placed (.selected i)) (s.pool.placed (.recovered i))
      (s.pool.placed (.leased i))) : Orderly (s.modify i f) := by
  refine h.own (fun j hj => update_of_ne hj _ _) (fun _ _ => Iff.rfl)
    (fun _ _ => ⟨rfl, rfl, rfl⟩) (fun _ _ => Iff.rfl) (fun _ => id) h.nodup h.order id ?_ ?_
  · change (update s.ops i _ i).error = _
    rw [update_self]
    exact herr
  · change OpOk (update s.ops i _ i) _ _ _ _ _ _
    rw [update_self]
    exact hself

/-! ### The steps of an operation -/

section Op

variable {o : Op} {queued arrived granted : Prop} {sel back out : ℕ}

omit [DecidableEq ι]

section

variable (h : OpOk o queued arrived granted sel back out)

include h

theorem OpOk.not_linked (hpc : ¬ (o.pc = .waiting ∨ o.pc = .collect ∨ o.pc.leaves)) :
    ¬ queued ∧ sel = 0 := by
  refine ⟨fun hq => hpc ((h.linked hq).2.2.2.imp_right fun hl => .inr hl.1), ?_⟩
  by_contra hne
  exact hpc ((h.selected hne).2.2.imp_right (.imp_right And.left))

theorem OpOk.not_recovered (hpc : ∀ r, o.pc = .recover r → r = .granted) : back = 0 := by
  by_contra hne
  obtain ⟨-, r, hr, hgrant⟩ := h.recovered hne
  exact hgrant (hpc r hr)

theorem OpOk.not_leased (hpc : o.pc ≠ .leave .granted ∧ o.pc ≠ .done .granted) : out = 0 := by
  by_contra hne
  exact (h.leased hne).elim hpc.1 hpc.2

/-- Before its first turn an operation has nothing to do with the pool. -/
theorem OpOk.untouched (hpc : o.pc = .idle ∨ o.pc = .loop) :
    ¬ queued ∧ sel = 0 ∧ back = 0 ∧ out = 0 := by
  have hother : ¬ (o.pc = .waiting ∨ o.pc = .collect ∨ o.pc.leaves) ∧
      (∀ r, o.pc = .recover r → r = .granted) ∧ o.pc ≠ .leave .granted ∧ o.pc ≠ .done .granted := by
    rcases hpc with hpc | hpc <;> simp only [hpc] <;> exact ⟨nofun, nofun, nofun, nofun⟩
  obtain ⟨hqueued, hsel⟩ := h.not_linked hother.1
  exact ⟨hqueued, hsel, h.not_recovered hother.2.1, h.not_leased hother.2.2⟩

/-- An operation that was not queued goes on to `pc`, with a lease or without one. -/
theorem OpOk.direct {arrived' : Prop} {pc : Pc} (hpre : o.pc = .idle ∨ o.pc = .loop)
    (hpc : pc = .loop ∧ ¬ arrived' ∨ ∃ r, pc = .leave r ∨ pc = .done r)
    (hout : out' ≠ 0 → pc = .leave .granted ∧ granted') :
    OpOk { o with pc := pc } False arrived' granted' 0 0 out' := by
  obtain ⟨-, herr, hnotified, houtcome⟩ := h.early hpre
  refine ⟨?_, False.elim, nofun, ?_, h.ready, fun _ => houtcome, ?_, nofun,
    fun hne => .inl (hout hne).1, ?_, h.error, ?_⟩
  · rcases hpc with ⟨-, harrived⟩ | ⟨r, rfl | rfl⟩
    · exact fun _ => ⟨harrived, herr, hnotified, houtcome⟩
    all_goals nofun
  · rcases hpc with ⟨rfl, -⟩ | ⟨r, rfl | rfl⟩ <;> nofun
  · rcases hpc with ⟨rfl, -⟩ | ⟨r, rfl | rfl⟩ <;> nofun
  · rintro (hne | hne | hne)
    · exact absurd rfl hne
    · exact absurd rfl hne
    · exact (hout hne).2
  · intro r _
    rw [houtcome]
    exact herr

theorem OpOk.enqueue (hpre : o.pc = .idle ∨ o.pc = .loop) :
    OpOk { o with pc := .waiting } True True granted' 0 0 0 := by
  obtain ⟨-, herr, hnotified, hout⟩ := h.early hpre
  exact {
    early := nofun
    linked := fun _ => ⟨herr, hnotified, rfl, .inl rfl⟩
    selected := nofun
    waits := fun _ => .inl trivial
    ready := h.ready
    waiting := fun _ => hout
    collect := nofun
    recovered := nofun
    leased := nofun
    given := nofun
    error := h.error
    result := fun r hr => by rcases hr with hr | hr | hr <;> cases hr }

/-- An operation that waits has no permit outside its waiter. -/
theorem OpOk.inside (hpc : o.pc = .waiting ∨ o.pc = .collect ∨ o.pc.leaves) :
    back = 0 ∧ out = 0 := by
  have hother : (∀ r, o.pc = .recover r → r = .granted) ∧ o.pc ≠ .leave .granted ∧
      o.pc ≠ .done .granted := by
    rcases hpc with hpc | hpc | ⟨r, hpc, hne⟩ <;> simp only [hpc]
    · exact ⟨nofun, nofun, nofun⟩
    · exact ⟨nofun, nofun, nofun⟩
    · exact ⟨nofun, fun hr => hne (by injection hr), nofun⟩
  exact ⟨h.not_recovered hother.1, h.not_leased hother.2⟩

theorem OpOk.wake (hpc : o.pc = .waiting) (outcome : Outcome)
    (hready : outcome = .completed → o.ready = true) :
    OpOk { o with outcome := some outcome, pc := outcome.next } queued arrived granted sel back
      out := by
  obtain ⟨hback, hout⟩ := h.inside (.inl hpc)
  have hwaits := h.waits (.inl hpc)
  by_cases hcompleted : outcome = .completed
  · subst hcompleted
    have hnotified := h.ready (hready rfl)
    exact {
      early := nofun
      linked := fun hq => by
        rw [(h.linked hq).2.1] at hnotified
        cases hnotified
      selected := fun hne => ⟨(h.selected hne).1, (h.selected hne).2.1, .inr (.inl rfl)⟩
      waits := fun _ => hwaits
      ready := h.ready
      waiting := nofun
      collect := fun _ => ⟨rfl, hnotified⟩
      recovered := fun hne => absurd hback hne
      leased := fun hne => absurd hout hne
      given := h.given
      error := h.error
      result := fun r hr => by rcases hr with hr | hr | hr <;> cases hr }
  · -- the three other ways lead to `~departure` with a result of their own
    obtain ⟨r, hnext, hne, hends⟩ : ∃ r, outcome.next = .leave r ∧ r ≠ .granted ∧
        Ends { o with outcome := some outcome, pc := outcome.next } r := by
      cases outcome with
      | completed => exact absurd rfl hcompleted
      | cancelled | timedOut | abandoned => exact ⟨_, rfl, nofun, rfl⟩
    rw [hnext] at hends ⊢
    exact {
      early := nofun
      linked := fun hq => ⟨(h.linked hq).1, (h.linked hq).2.1, (h.linked hq).2.2.1,
        .inr ⟨⟨r, rfl, hne⟩, nofun⟩⟩
      selected := fun hsel => ⟨(h.selected hsel).1, (h.selected hsel).2.1,
        .inr (.inr ⟨⟨r, rfl, hne⟩, nofun⟩)⟩
      waits := nofun
      ready := h.ready
      waiting := nofun
      collect := nofun
      recovered := fun hne => absurd hback hne
      leased := fun hne => absurd hout hne
      given := h.given
      error := h.error
      result := fun r' hr' => by
        rcases hr' with hr' | hr' | hr' <;> cases hr'
        exact hends }

/-- The wait has completed, and the waiter was shut down. -/
theorem OpOk.refuse (hpc : o.pc = .collect) {e : Error} (herr : o.error = some e) :
    OpOk { o with pc := .leave (.failed e) } queued arrived granted sel back out := by
  obtain ⟨hback, hout⟩ := h.inside (.inr (.inl hpc))
  obtain ⟨houtcome, hnotified⟩ := h.collect hpc
  have hnone : ∀ {P : Prop}, o.error = none → P := by
    intro P hnone
    rw [herr] at hnone
    cases hnone
  exact {
    early := nofun
    linked := fun hq => hnone (h.linked hq).1
    selected := fun hne => hnone (h.selected hne).2.1
    waits := nofun
    ready := h.ready
    waiting := nofun
    collect := nofun
    recovered := fun hne => absurd hback hne
    leased := fun hne => absurd hout hne
    given := h.given
    error := h.error
    result := fun r hr => by
      rcases hr with hr | hr | hr <;> cases hr
      rw [Ends]
      rw [houtcome, herr] }

theorem OpOk.shutdown (hlink : queued) :
    OpOk { o with error := some .shutdown, notified := true } False arrived granted sel back
      out := by
  obtain ⟨herr, -, hsel, hpc⟩ := h.linked hlink
  have hother : ¬ (o.pc = .idle ∨ o.pc = .loop) ∧ o.pc ≠ .collect := by
    rcases hpc with hpc | ⟨⟨r, hpc, -⟩, -⟩ <;> rw [hpc] <;> exact ⟨nofun, nofun⟩
  exact {
    early := fun hearly => absurd hearly hother.1
    linked := False.elim
    selected := fun hne => absurd hsel hne
    waits := fun _ => .inr (.inr rfl)
    ready := fun _ => rfl
    waiting := h.waiting
    collect := fun hw => absurd hw hother.2
    recovered := h.recovered
    leased := h.leased
    given := h.given
    error := fun e he => by
      cases he
      exact ⟨rfl, rfl⟩
    result := fun r hr => by
      have hends := h.result r hr
      rw [Ends] at hends ⊢
      rcases hpc with hpc | ⟨⟨r', hpc, hne⟩, hout⟩
      · rcases hr with hr | hr | hr <;> rw [hpc] at hr <;> cases hr
      · -- a wait that has completed leads to a grant, and the operation leaves without one
        have hr' : r = r' := by
          rcases hr with hr | hr | hr <;> rw [hpc] at hr <;> cases hr
          rfl
        subst hr'
        cases hwait : o.outcome with
        | none => exact absurd hwait hout
        | some outcome =>
          rw [hwait, herr] at hends
          cases outcome with
          | completed => exact absurd hends hne
          | cancelled | timedOut => exact hends
          | abandoned => exact hends }

/-- An operation is over, or its `departure` has its grant. -/
theorem OpOk.leave {back' : ℕ} {pc : Pc} {r : Result} (hpc : o.pc = .leave r ∨ o.pc = .recover r)
    (hpc' : pc = .done r ∧ back' = 0 ∨ pc = .recover r ∧ r ≠ .granted ∧ back' = 1 ∧ granted) :
    OpOk { o with pc := pc } False arrived granted 0 back' out := by
  have hends : Ends o r := h.result r (hpc.imp_right .inl)
  have hother : ¬ (pc = .idle ∨ pc = .loop) ∧ ¬ (pc = .waiting ∨ pc = .collect) := by
    rcases hpc' with ⟨rfl, -⟩ | ⟨rfl, -⟩ <;> exact ⟨nofun, nofun⟩
  have hgrant : out ≠ 0 → r = .granted := by
    intro hne
    rcases h.leased hne with hr | hr <;> rcases hpc with hpc | hpc <;> rw [hpc] at hr <;>
      cases hr
    rfl
  exact {
    early := fun hearly => absurd hearly hother.1
    linked := False.elim
    selected := nofun
    waits := fun hw => absurd hw hother.2
    ready := h.ready
    waiting := fun hw => absurd (.inl hw) hother.2
    collect := fun hw => absurd (.inr hw) hother.2
    recovered := fun hne => by
      rcases hpc' with ⟨-, hback⟩ | ⟨hpc', hr, hback, -⟩
      · exact absurd hback hne
      · exact ⟨hback, r, hpc', hr⟩
    leased := fun hne => by
      have hr := hgrant hne
      rcases hpc' with ⟨hpc', -⟩ | ⟨-, hne', -⟩
      · exact .inr (hr ▸ hpc')
      · exact absurd hr hne'
    given := fun hne => by
      rcases hne with hne | hne | hne
      · exact absurd rfl hne
      · rcases hpc' with ⟨-, hback⟩ | ⟨-, -, -, hg⟩
        · exact absurd hback hne
        · exact hg
      · exact h.given (.inr (.inr hne))
    error := h.error
    result := fun r' hr' => by
      have hsame : r' = r := by
        rcases hpc' with ⟨hpc', -⟩ | ⟨hpc', -⟩ <;> rcases hr' with hr' | hr' | hr' <;>
          rw [hpc'] at hr' <;> cases hr' <;> rfl
      rw [hsame]
      exact hends }

end

/-- The wait has completed, and the caller takes the permit. -/
theorem OpOk.take (h : OpOk o queued arrived granted 1 back out) (hpc : o.pc = .collect)
    (herr : o.error = none) :
    OpOk { o with pc := .leave .granted } queued arrived granted 0 back (out + 1) := by
  obtain ⟨hback, hout⟩ := h.inside (.inr (.inl hpc))
  obtain ⟨houtcome, hnotified⟩ := h.collect hpc
  exact {
    early := nofun
    linked := fun hq => by
      rw [(h.linked hq).2.1] at hnotified
      cases hnotified
    selected := nofun
    waits := nofun
    ready := h.ready
    waiting := nofun
    collect := nofun
    recovered := fun hne => absurd hback hne
    leased := fun _ => .inl rfl
    given := fun _ => h.given (.inl Nat.one_ne_zero)
    error := h.error
    result := fun r hr => by
      rcases hr with hr | hr | hr <;> cases hr
      rw [Ends]
      rw [houtcome, herr] }

end Op

/-! ### Steps of the system -/

/-- Who is still queued after a waiter has been unlinked. -/
theorem unlink_spec (p : Pool κ ι) (i : ι) (hnd : (p.waiters.map (·.op)).Nodup) :
    (p.unlink i).waiters.Sublist p.waiters ∧ (p.unlink i).live = p.live ∧
      (p.unlink i).closing = p.closing ∧ (p.unlink i).permits = p.permits ∧
      ∀ j, j ∈ (p.unlink i).waiters.map (·.op) ↔ j ≠ i ∧ j ∈ p.waiters.map (·.op) := by
  rw [Pool.unlink]
  split
  · next w hw =>
    have hmem : w ∈ p.waiters := mem_of_find?_eq_some hw
    have hop : w.op = i := by simpa using find?_some hw
    refine ⟨erase_sublist, rfl, rfl, rfl, fun j => ?_⟩
    rw [mem_map, mem_map]
    constructor
    · rintro ⟨v, hv, rfl⟩
      obtain ⟨hne, hv⟩ := hnd.of_map.mem_erase_iff.1 hv
      refine ⟨fun hvi => hne (inj_on_of_nodup_map hnd hv hmem (hvi.trans hop.symm)), v, hv,
        rfl⟩
    · rintro ⟨hne, v, hv, rfl⟩
      refine ⟨v, hnd.of_map.mem_erase_iff.2 ⟨?_, hv⟩, rfl⟩
      rintro rfl
      exact hne hop
  · next hnone =>
    refine ⟨.refl _, rfl, rfl, rfl, fun j => ⟨fun hj => ⟨?_, hj⟩, fun hj => hj.2⟩⟩
    rintro rfl
    obtain ⟨v, hv, hop⟩ := mem_map.1 hj
    exact absurd hop (by simpa using find?_eq_none.1 hnone v hv)

variable {p : Pool κ ι}

theorem placed_of_at?_none {place : Place ι} (h : p.at? place = none) :
    p.placed place = 0 := by
  refine countP_eq_zero.2 fun x hx => ?_
  exact find?_eq_none.1 h x hx

variable {x : Permit ι}

theorem placed_of_at?_some {place : Place ι}
    (h : p.at? place = some x) : p.placed place ≠ 0 := by
  obtain ⟨hx, hplace⟩ := at?_mem h
  exact (countP_pos_iff.2 ⟨x, hx, by simpa using hplace⟩).ne'

/-- What an operation does to itself commutes with the rest of the critical section. -/
theorem settle_goto (q : Pool κ ι) (d : Pool κ ι × List ι) (pc : Pc) :
    (s.settle d).goto i pc = (State.goto { s with pool := q } i pc).settle d := by
  have hops : ((s.settle d).goto i pc).ops =
      ((State.goto { s with pool := q } i pc).settle d).ops := by
    funext j
    change update (s.settle d).ops i _ j =
      if j ∈ d.2 then { update s.ops i _ j with notified := true }
      else update s.ops i _ j
    by_cases hj : j = i
    · subst hj
      rw [update_self, update_self]
      dsimp only [State.settle]
      split_ifs <;> rfl
    · rw [update_of_ne hj, update_of_ne hj]
      rfl
  exact congrArg (fun ops => { (s.settle d).goto i pc with ops := ops }) hops

/-- A permit moves to another place, or is retired. -/
theorem placed_move (hx : x ∈ p.permits) (place : Place ι) (hne : x.place ≠ place) :
    (p.replace x { x with place := place }).placed x.place + 1 = p.placed x.place ∧
      (p.replace x { x with place := place }).placed place = p.placed place + 1 ∧
      ∀ other, other ≠ place → other ≠ x.place →
        (p.replace x { x with place := place }).placed other = p.placed other := by
  have hmove := placed_replace (y := { x with place := place }) hx
  refine ⟨?_, ?_, fun other hplace hfrom => ?_⟩
  · simpa [count_singleton, hne.symm] using hmove x.place
  · simpa [count_singleton, hne] using hmove place
  · simpa [count_singleton, hplace.symm, hfrom.symm] using hmove other

theorem ops_goto_self (pc : Pc) : (s.goto i pc).ops i = { s.ops i with pc := pc } :=
  update_self ..

omit [DecidableEq ι] in
theorem mem_concat_of_ne {j : ι} (hj : j ≠ i) (l : List ι) : j ∈ l ++ [i] ↔ j ∈ l := by
  rw [mem_append, mem_singleton]
  exact ⟨fun hmem => hmem.resolve_right hj, .inl⟩

/-- An operation goes on, and the pool changes for it alone. -/
theorem Orderly.goto (h : Orderly s) {pc : Pc}
    (hq : (q.waiters.map (·.op)).Sublist s.queue)
    (hother : ∀ j, j ≠ i → j ∈ s.queue → j ∈ q.waiters.map (·.op))
    (hplaced : ∀ j, j ≠ i → q.placed (.selected j) = s.pool.placed (.selected j) ∧
      q.placed (.recovered j) = s.pool.placed (.recovered j) ∧
      q.placed (.leased j) = s.pool.placed (.leased j))
    (hclosing : q.closing = s.pool.closing)
    (hself : OpOk { s.ops i with pc := pc } (i ∈ q.waiters.map (·.op)) (i ∈ s.arrived)
      (i ∈ s.granted) (q.placed (.selected i)) (q.placed (.recovered i)) (q.placed (.leased i))) :
    Orderly (State.goto { s with pool := q } i pc) := by
  refine h.own (fun j hj => update_of_ne hj _ _) (fun j hj => ?_) hplaced
    (fun _ _ => Iff.rfl) (fun _ => id) h.nodup ?_ (fun hc => hclosing.trans hc) ?_ ?_
  · exact ⟨fun hmem => hq.subset hmem, hother j hj⟩
  · exact ((Sublist.refl s.granted).append hq).trans h.order
  · rw [ops_goto_self]
  · rw [ops_goto_self]
    exact hself

variable {cfg : Config} {calls : ι → Call κ} {l : Label κ ι}

/-- The grant that `~departure` has recovered is reset, or handed on. -/
theorem recovered_orderly (h : Orderly s) {r : Result} (hpc : (s.ops i).pc = .recover r)
    (hx : s.pool.at? (.recovered i) = some x)
    (hwaiters : q.waiters = s.pool.waiters) (hclosing : q.closing = s.pool.closing)
    (hplaced : ∀ place, place ≠ .retired →
      q.placed place + [x.place].count place = s.pool.placed place) :
    Orderly (State.goto { s with pool := q } i (.done r)) := by
  have hold := h.ops i
  obtain ⟨hqueued, hsel⟩ := hold.not_linked (by rw [hpc]; nofun)
  obtain ⟨hone, -⟩ := hold.recovered (placed_of_at?_some hx)
  obtain ⟨-, hxplace⟩ := at?_mem hx
  rw [hxplace] at hplaced
  have hsame : ∀ place : Place ι, place ≠ .retired → place ≠ .recovered i →
      q.placed place = s.pool.placed place := by
    intro place hretired hne
    have hcnt := hplaced place hretired
    rw [count_singleton, if_neg (by simpa using hne.symm)] at hcnt
    exact hcnt
  refine h.goto (by rw [hwaiters]; exact .refl _) (fun j _ hj => by rwa [hwaiters])
    (fun j hj => ⟨hsame _ nofun nofun, hsame _ nofun (by simpa using hj), hsame _ nofun nofun⟩)
    hclosing ?_
  have hzero : q.placed (.recovered i) = 0 := by
    have hcnt := hplaced (.recovered i) nofun
    rw [count_singleton, if_pos (by simp)] at hcnt
    omega
  rw [hwaiters, hsame (.selected i) nofun nofun, hsame (.leased i) nofun nofun, hsel, hzero]
  change OpOk _ (i ∈ s.queue) _ _ _ _ _
  simp only [hqueued]
  exact hold.leave (.inr hpc) (.inl ⟨rfl, rfl⟩)

theorem retire_orderly (h : Orderly s) {r : Result} (hpc : (s.ops i).pc = .recover r)
    (hx : s.pool.at? (.recovered i) = some x) :
    Orderly (State.goto { s with pool := s.pool.replace x { x with place := .retired } } i
      (.done r)) := by
  obtain ⟨hxmem, -⟩ := at?_mem hx
  refine recovered_orderly h hpc hx rfl rfl fun place hretired => ?_
  rw [placed_replace hxmem, count_singleton, if_neg (by simpa using hretired.symm),
    Nat.add_zero]

omit [DecidableEq ι] in
theorem initial_fair {limits : Limits} : Fair limits (Pool.initial : Pool κ ι) :=
  ⟨⟨nofun, fun _ => rfl, nofun⟩, nofun, nofun⟩

theorem initial_orderly : Orderly (State.initial : State κ ι) where
  nodup := nodup_nil
  order := .refl _
  ops i :=
    { early := fun _ => ⟨not_mem_nil, rfl, rfl, rfl⟩
      linked := fun hmem => absurd hmem not_mem_nil
      selected := nofun
      waits := nofun
      ready := nofun
      waiting := nofun
      collect := nofun
      recovered := nofun
      leased := nofun
      given := nofun
      error := nofun
      result := fun r hr => by rcases hr with hr | hr | hr <;> cases hr }
  shut _ hne := absurd rfl hne

omit [DecidableEq ι] in
theorem served_nil {p q : Pool κ ι} (hemp : p.waiters = [])
    (hq : p.waiters.map (·.op) = served ++ q.waiters.map (·.op)) : served = [] := by
  rw [hemp] at hq
  exact (append_eq_nil_iff.1 hq.symm).1

theorem settle_granted (d : Pool κ ι × List ι) (hserved : d.2 = []) :
    (s.settle d).granted = s.granted := by
  rw [State.settle, hserved]
  exact append_nil _

theorem error_settle (d : Pool κ ι × List ι) (i : ι) :
    ((s.settle d).ops i).error = (s.ops i).error := by
  change (if i ∈ d.2 then { s.ops i with notified := true } else s.ops i).error = _
  split_ifs <;> rfl

theorem error_goto (j : ι) (pc : Pc) (i : ι) : ((s.goto j pc).ops i).error = (s.ops i).error := by
  change (update s.ops j _ i).error = _
  by_cases hij : i = j
  · rw [hij, update_self]
  · rw [update_of_ne hij]

section

variable (h : Orderly s) (hsound : Sound cfg.limits s.pool) (hfair : Fair cfg.limits s.pool)

include h hsound hfair

/-- `~departure`: the waiter leaves the queue, and a grant it finds is recovered. -/
theorem depart_orderly (now : ℤ) {r : Result} (hpc : (s.ops i).pc = .leave r) :
    Fair cfg.limits (depart cfg s i now r).pool ∧ Orderly (depart cfg s i now r) := by
  obtain ⟨hsublist, hlive, hclosing, hperm, hmem⟩ := unlink_spec s.pool i h.nodup_queue
  have hold := h.ops i
  have hunlinked : i ∉ (s.pool.unlink i).waiters.map (·.op) := fun hi => ((hmem i).1 hi).1 rfl
  have husable : Usable cfg.limits (s.pool.unlink i) :=
    hfair.toUsable.of_eq hsublist hlive.le hclosing
  have hplaced : ∀ place, (s.pool.unlink i).placed place = s.pool.placed place := fun place => by
    rw [Pool.placed, hperm]
    rfl
  have hback : s.pool.placed (.recovered i) = 0 := hold.not_recovered (by rw [hpc]; simp)
  rw [depart]
  split
  · next x hx =>
    obtain ⟨hxmem, hxplace⟩ := at?_mem hx
    have hsel : s.pool.placed (.selected i) ≠ 0 := by
      rw [← hplaced]
      exact placed_of_at?_some hx
    obtain ⟨hone, -, hleaves⟩ := hold.selected hsel
    have hgrant : r ≠ .granted := by
      rcases hleaves with hleaves | hleaves | ⟨⟨r', hleaves, hne⟩, -⟩ <;> rw [hpc] at hleaves <;>
        cases hleaves
      exact hne
    obtain ⟨hfrom, hto, hmove⟩ := placed_move hxmem (.recovered i)
      (by rw [hxplace]; simp)
    rw [hplaced, hback] at hto
    rw [hxplace, hplaced, hone] at hfrom
    simp only [hxplace, hplaced] at hmove
    have horderly : Orderly (State.goto { s with
        pool := (s.pool.unlink i).replace x { x with place := .recovered i } } i (.recover r)) := by
      refine h.goto (hsublist.map _) (fun j hj hjmem => (hmem j).2 ⟨hj, hjmem⟩) (fun j hj => ?_)
        hclosing ?_
      · exact ⟨hmove _ (by simp) (by simpa using hj), hmove _ (by simpa using hj) (by simp),
          hmove _ (by simp) (by simp)⟩
      · have hzero := Nat.add_right_cancel (hfrom.trans (Nat.zero_add 1).symm)
        change OpOk _ (i ∈ (s.pool.unlink i).waiters.map (·.op)) _ _ _ _ _
        rw [hzero, hto, hmove (.leased i) (by simp) (by simp)]
        simp only [hunlinked]
        exact hold.leave (.inl hpc) (.inr ⟨rfl, hgrant, rfl, hold.given (.inl hsel)⟩)
    obtain ⟨hfair', hserves⟩ := dispatch_fair cfg now
      (move_sound (unlink_sound hsound i) hxmem (.recovered i))
      (husable.of_eq (.refl _) le_rfl rfl)
    refine ⟨hfair', ?_⟩
    rw [settle_goto ((s.pool.unlink i).replace x { x with place := .recovered i })]
    exact horderly.serves hserves
  · next hnone =>
    have hzero : s.pool.placed (.selected i) = 0 := by
      rw [← hplaced]
      exact placed_of_at?_none hnone
    have horderly : Orderly (State.goto { s with pool := s.pool.unlink i } i (.done r)) := by
      refine h.goto (hsublist.map _) (fun j hj hjmem => (hmem j).2 ⟨hj, hjmem⟩)
        (fun j _ => ⟨hplaced _, hplaced _, hplaced _⟩) hclosing ?_
      rw [hplaced, hplaced, hplaced, hzero, hback]
      simp only [hunlinked]
      exact hold.leave (.inl hpc) (.inl ⟨rfl, rfl⟩)
    obtain ⟨hfair', hserves⟩ := dispatch_fair cfg now (unlink_sound hsound i) husable
    refine ⟨hfair', ?_⟩
    rw [settle_goto (s.pool.unlink i)]
    exact horderly.serves hserves

theorem recover_orderly (now : ℤ) {r : Result} (hpc : (s.ops i).pc = .recover r)
    (hx : s.pool.at? (.recovered i) = some x) :
    Fair cfg.limits (reset cfg now x s.pool).1 ∧
      Orderly ((s.settle (reset cfg now x s.pool)).goto i (.done r)) := by
  obtain ⟨hxmem, -⟩ := at?_mem hx
  obtain ⟨hfair', hserves⟩ := dispatch_fair cfg now (giveBack_sound hsound hxmem)
    (hfair.toUsable.of_eq (.refl _) (Nat.sub_le _ _) rfl)
  refine ⟨hfair', ?_⟩
  rw [settle_goto (s.pool.giveBack x)]
  have horderly := recovered_orderly h hpc hx (q := s.pool.giveBack x) rfl rfl
    fun place _ => placed_erase hxmem place
  exact horderly.serves hserves

omit hsound hfair in
theorem taken_orderly (hpc : (s.ops i).pc = .collect) (he : (s.ops i).error = none)
    (hx : s.pool.at? (.selected i) = some x) :
    Orderly ({ s with pool := s.pool.replace x { x with place := .leased i } }.goto i
      (.leave .granted)) := by
  have hold := h.ops i
  obtain ⟨hxmem, hxplace⟩ := at?_mem hx
  obtain ⟨hfrom, hto, hmove⟩ := placed_move hxmem (.leased i) (by rw [hxplace]; nofun)
  rw [hxplace] at hfrom hmove
  refine h.goto (.refl _) (fun _ _ => id) (fun j hj => ?_) rfl ?_
  · exact ⟨hmove _ nofun (by simpa using hj), hmove _ nofun nofun,
      hmove _ (by simpa using hj) nofun⟩
  · obtain ⟨hone, -⟩ := hold.selected (placed_of_at?_some hx)
    rw [hone] at hfrom
    rw [hto, hmove (.recovered i) nofun nofun,
      Nat.add_right_cancel (hfrom.trans (Nat.zero_add 1).symm)]
    rw [hone] at hold
    exact hold.take hpc he

theorem clear_orderly (close : Bool) (now : ℤ) :
    Fair cfg.limits (clear cfg now close s.pool).1 ∧
      Orderly { s.settle ((clear cfg now close s.pool).1, (clear cfg now close s.pool).2.1) with
        ops := fun i =>
          if i ∈ (clear cfg now close s.pool).2.2 then
            { s.ops i with error := some .shutdown, notified := true }
          else (s.settle ((clear cfg now close s.pool).1,
            (clear cfg now close s.pool).2.1)).ops i } := by
  obtain ⟨hfair', hclosing, hq, hflushed, hclosed, hplaced⟩ :=
    clear_fair now close hsound hfair
  refine ⟨hfair', ?_⟩
  generalize clear cfg now close s.pool = c at *
  obtain ⟨q, served, flushed⟩ := c
  by_cases hclose : (s.pool.closing || close) = true
  · obtain ⟨rfl, hemp⟩ := hclosed hclose
    have hall : s.queue = flushed := by
      rw [hemp, map_nil, append_nil] at hq
      exact hq
    rw [settle_nil]
    refine ⟨h.nodup, ?_, fun j => ?_, fun _ _ => hclosing.trans hclose⟩
    · change (s.granted ++ q.waiters.map (·.op)).Sublist s.arrived
      rw [hemp, map_nil, append_nil]
      exact (sublist_append_left _ _).trans h.order
    · have hold := h.ops j
      change OpOk (if j ∈ flushed then { s.ops j with error := some .shutdown, notified := true }
        else s.ops j) (j ∈ q.waiters.map (·.op)) (j ∈ s.arrived) (j ∈ s.granted) (q.placed _)
        (q.placed _) (q.placed _)
      rw [hemp, hplaced (.selected j) nofun, hplaced (.recovered j) nofun,
        hplaced (.leased j) nofun]
      simp only [map_nil, not_mem_nil]
      rw [hall] at hold
      by_cases hj : j ∈ flushed
      · rw [if_pos hj]
        exact hold.shutdown hj
      · rw [if_neg hj]
        simp only [hj] at hold
        exact hold
  · have hnone : flushed = [] := by
      by_contra hne
      exact hclose (hflushed hne)
    subst hnone
    rw [append_nil] at hq
    have hkeep : q.closing = s.pool.closing := by
      rw [hclosing]
      cases hp : s.pool.closing <;> rw [hp] at hclose
      · simpa using hclose
      · exact absurd rfl hclose
    have hserves : Serves s.pool q served := ⟨hq, hkeep, hplaced⟩
    have horderly := h.serves hserves
    exact horderly

theorem depart_closed (i : ι) (now : ℤ) (r : Result) (hclosed : s.pool.closing = true) :
    (depart cfg s i now r).pool.closing = true ∧ (depart cfg s i now r).granted = s.granted := by
  obtain ⟨hsublist, hlive, hclosing, -, -⟩ := unlink_spec s.pool i h.nodup_queue
  have hemp : (s.pool.unlink i).waiters = [] := by
    rw [hfair.closed hclosed] at hsublist
    exact sublist_nil.1 hsublist
  have husable : Usable cfg.limits (s.pool.unlink i) :=
    hfair.toUsable.of_eq hsublist hlive.le hclosing
  rw [depart]
  split
  · next x hx =>
    obtain ⟨-, hserves⟩ := dispatch_fair cfg now
      (move_sound (unlink_sound hsound i) (at?_mem hx).1 (.recovered i))
      (husable.of_eq (.refl _) le_rfl rfl)
    exact ⟨hserves.closing.trans (hclosing.trans hclosed),
      settle_granted _ (served_nil hemp hserves.queue)⟩
  · obtain ⟨-, hserves⟩ := dispatch_fair cfg now (unlink_sound hsound i) husable
    exact ⟨hserves.closing.trans (hclosing.trans hclosed),
      settle_granted _ (served_nil hemp hserves.queue)⟩

variable [DecidableEq κ]

theorem acquireStep_orderly {now : ℤ} {order : List (κ × ℕ)} (hpc : (s.ops i).pc = .loop)
    (hstep : acquireStep cfg calls s i now order = some s') :
    Fair cfg.limits s'.pool ∧ Orderly s' := by
  obtain ⟨⟨turn, q⟩, hc, rfl⟩ := Option.map_eq_some_iff.1 hstep
  have hturn := acquire_fair hsound hfair hc
  have hold := h.ops i
  obtain ⟨hqueued, hsel, hback, hout⟩ := hold.untouched (.inr hpc)
  obtain ⟨harrived, -⟩ := hold.early (.inr hpc)
  have hclosing : q.closing = s.pool.closing := hturn.closing
  have hqueue := hturn.queue
  have hplaced := hturn.placed
  -- the pool has changed for nobody
  have hsame : turn ≠ .granted → turn ≠ .queued → Orderly { s with pool := q } := by
    intro hg hq
    rw [if_neg hq, append_nil] at hqueue
    simp only [if_neg hg, Nat.add_zero] at hplaced
    rw [← settle_nil]
    refine h.settle (by rw [hqueue]; rfl) hclosing (fun j => ?_) (fun j => ?_) fun j => ?_
    · rw [hplaced (.selected j) (by simp)]
      rfl
    · exact hplaced (.recovered j) (by simp)
    · exact (hplaced (.leased j) (by simp)).le
  cases turn with
  | again => exact ⟨hturn.fair, hsame (by simp) (by simp)⟩
  | failed e =>
    refine ⟨hturn.fair, (hsame (by simp) (by simp)).modify rfl ?_⟩
    have hold' := (hsame (by simp) (by simp)).ops i
    obtain ⟨hqueued', hsel', hback', hout'⟩ := hold'.untouched (.inr hpc)
    rw [hsel', hback', hout']
    simp only [hqueued']
    exact hold'.direct (.inr hpc) (.inr ⟨_, .inl rfl⟩) (by simp)
  | granted =>
    obtain ⟨-, hemp⟩ := hturn.served rfl
    rw [hemp] at hqueue
    have hnone : q.waiters.map (·.op) = [] := hqueue
    have hnotin : i ∉ s.arrived := harrived
    have hplaced' : ∀ place : Place ι, place ≠ .retired → place ≠ .leased i →
        q.placed place = s.pool.placed place := by
      intro place hretired hne
      rw [hplaced place hretired, if_pos rfl, count_singleton,
        if_neg (by simpa using hne.symm), Nat.add_zero]
    have horder : s.granted.Sublist s.arrived := by
      have horder := h.order
      rw [State.queue, hemp, map_nil, append_nil] at horder
      exact horder
    refine ⟨hturn.fair, h.own (fun j hj => update_of_ne hj _ _) (fun j _ => ?_)
      (fun j hj => ?_) (fun j hj => ?_) (fun j hj => mem_append_left _ hj) ?_ ?_
      (fun hc => hclosing.trans hc) ?_ ?_⟩
    · change j ∈ q.waiters.map (·.op) ↔ j ∈ s.pool.waiters.map (·.op)
      rw [hnone, hemp, map_nil]
    · exact ⟨hplaced' _ (by simp) (by simp), hplaced' _ (by simp) (by simp), hplaced' _ (by simp) (by simpa using hj)⟩
    · exact mem_concat_of_ne hj s.arrived
    · exact h.nodup.append (nodup_singleton i) (disjoint_singleton.2 hnotin)
    · change ((s.granted ++ [i]) ++ q.waiters.map (·.op)).Sublist (s.arrived ++ [i])
      rw [hnone, append_nil]
      exact horder.append (.refl _)
    · rw [ops_goto_self]
    · change OpOk (update s.ops i _ i) (i ∈ q.waiters.map (·.op)) (i ∈ s.arrived ++ [i])
        (i ∈ s.granted ++ [i]) (q.placed _) (q.placed _) (q.placed _)
      rw [update_self, hnone, hplaced' (.selected i) (by simp) (by simp),
        hplaced' (.recovered i) (by simp) (by simp), hsel, hback]
      simp only [not_mem_nil]
      exact hold.direct (.inr hpc) (.inr ⟨_, .inl rfl⟩) fun _ =>
        ⟨rfl, mem_append_right _ (mem_singleton_self i)⟩
  | queued =>
    have hnew : q.waiters.map (·.op) = s.queue ++ [i] := hqueue
    refine ⟨hturn.fair, h.own (fun j hj => update_of_ne hj _ _) (fun j hj => ?_)
      (fun j hj => ⟨hplaced _ (by simp), hplaced _ (by simp), hplaced _ (by simp)⟩) (fun j hj => ?_)
      (fun j => id) ?_ ?_ (fun hc => hclosing.trans hc) ?_ ?_⟩
    · change j ∈ q.waiters.map (·.op) ↔ _
      rw [hnew]
      exact mem_concat_of_ne hj s.queue
    · exact mem_concat_of_ne hj s.arrived
    · exact h.nodup.append (nodup_singleton i) (disjoint_singleton.2 harrived)
    · change (s.granted ++ q.waiters.map (·.op)).Sublist (s.arrived ++ [i])
      rw [hnew, ← append_assoc]
      exact h.order.append (.refl _)
    · rw [ops_goto_self]
    · have hin : i ∈ q.waiters.map (·.op) := by
        rw [hnew]
        exact mem_append_right _ (mem_singleton_self i)
      have hin' : i ∈ s.arrived ++ [i] := mem_append_right _ (mem_singleton_self i)
      change OpOk (update s.ops i _ i) (i ∈ q.waiters.map (·.op)) (i ∈ s.arrived ++ [i])
        (i ∈ s.granted) (q.placed _) (q.placed _) (q.placed _)
      rw [update_self, hplaced (.selected i) (by simp), hplaced (.recovered i) (by simp),
        hplaced (.leased i) (by simp), hsel, hback, hout]
      simp only [hin, hin']
      exact hold.enqueue (.inr hpc)

/-- **Every step keeps the queue in order.** -/
theorem step_orderly (hstep : step cfg calls s l = some s') :
    Fair cfg.limits s'.pool ∧ Orderly s' := by
  cases stepped hstep with
  | start i hpc hnext =>
    have hold := h.ops i
    obtain ⟨hqueued, hsel, hback, hout⟩ := hold.untouched (.inl hpc)
    refine ⟨hfair, h.modify rfl ?_⟩
    rw [hsel, hback, hout]
    simp only [hqueued]
    exact hold.direct (.inl hpc)
      (hnext.imp (fun hloop => ⟨hloop, (hold.early (.inl hpc)).1⟩) fun ⟨r, hdone⟩ => ⟨r, .inr hdone⟩)
      nofun
  | acquire i hpc hturn => exact acquireStep_orderly h hsound hfair hpc hturn
  | notify i hnotified =>
    exact ⟨hfair, h.modify rfl { h.ops i with ready := fun _ => hnotified }⟩
  | wake i outcome hwake => exact ⟨hfair, h.modify rfl ((h.ops i).wake hwake.1 outcome hwake.2)⟩
  | refused i hpc he => exact ⟨hfair, h.modify rfl ((h.ops i).refuse hpc he)⟩
  | taken i hpc he hx => exact ⟨hfair.replace _ _, taken_orderly h hpc he hx⟩
  | depart i now hpc => exact depart_orderly h hsound hfair now hpc
  | recover i now hpc hx => exact recover_orderly h hsound hfair now hpc hx
  | retire i hpc hx => exact ⟨hfair.replace _ _, retire_orderly h hpc hx⟩
  | dialComplete now hmem =>
    obtain ⟨hfair', hserves⟩ := dialComplete_fair now hsound hfair hmem
    exact ⟨hfair', h.serves hserves⟩
  | @retain x lastUse now hmem hleased =>
    cases hplace : x.place with
    | leased j =>
      obtain ⟨hfair', huses⟩ := retain_fair lastUse now hsound hfair hmem
        (by rw [hplace]; nofun)
      rw [hplace] at huses
      exact ⟨hfair', h.uses huses⟩
    | selected j | recovered j | retired => rw [hplace] at hleased; cases hleased
  | @reset x now hmem hwhere =>
    obtain ⟨hfair', hq, hclosing, hplaced⟩ := reset_fair now hsound hfair hmem
    refine ⟨hfair', ?_⟩
    cases hplace : x.place with
    | leased j =>
      have huses := reset_uses now hsound hfair hmem (by rw [hplace]; nofun)
      rw [hplace] at huses
      exact h.uses huses
    | retired =>
      refine h.serves ⟨hq, hclosing, fun place hretired => ?_⟩
      have hcnt := hplaced place hretired
      rw [hplace, count_singleton, if_neg (by simpa using hretired.symm)] at hcnt
      exact hcnt
    | selected j | recovered j =>
      rw [hplace] at hwhere
      rcases hwhere with hwhere | hwhere <;> cases hwhere
  | clear close now hclear =>
    cases hclear
    exact clear_orderly h hsound hfair close now

/-! ### A pool that is closed -/

/-- **A pool that is closed stays closed, and grants nothing.** -/
theorem step_closed (hclosed : s.pool.closing = true) (hstep : step cfg calls s l = some s') :
    s'.pool.closing = true ∧ s'.granted = s.granted := by
  have hemp := hfair.closed hclosed
  have hreset {x : Permit ι} (now : ℤ) (hmem : x ∈ s.pool.permits) :
      (reset cfg now x s.pool).1.closing = true ∧
        (s.settle (reset cfg now x s.pool)).granted = s.granted := by
    obtain ⟨-, hq, hclosing, -⟩ := reset_fair now hsound hfair hmem
    exact ⟨hclosing.trans hclosed, settle_granted _ (served_nil hemp hq)⟩
  cases stepped hstep with
  | start | notify | wake | refused | taken | retire => exact ⟨hclosed, rfl⟩
  | acquire i _ hturn =>
    rw [acquireStep, acquire, if_pos hclosed] at hturn
    cases hturn
    exact ⟨hclosed, rfl⟩
  | depart i now => exact depart_closed h hsound hfair i now _ hclosed
  | recover i now _ hx => exact hreset now (at?_mem hx).1
  | dialComplete now hmem =>
    obtain ⟨-, hserves⟩ := dialComplete_fair now hsound hfair hmem
    exact ⟨hserves.closing.trans hclosed, settle_granted _ (served_nil hemp hserves.queue)⟩
  | retain lastUse now =>
    rw [retain, if_pos (.inl hclosed)]
    exact ⟨hclosed, settle_granted _ rfl⟩
  | reset now hmem => exact hreset now hmem
  | clear close now hclear =>
    cases hclear
    obtain ⟨-, hclosing, -, -, hall, -⟩ := clear_fair now close hsound hfair
    have hclose : (s.pool.closing || close) = true := by rw [hclosed, Bool.true_or]
    exact ⟨hclosing.trans hclose, settle_granted _ (hall hclose).1⟩

omit h in
/-- **`clear(true)` shuts down whoever is queued.** -/
theorem step_close {now : ℤ} (hstep : step cfg calls s (.clear true now) = some s') :
    s'.pool.closing = true ∧ s'.queue = [] ∧ s'.granted = s.granted ∧
      ∀ i ∈ s.queue, (s'.ops i).error = some .shutdown := by
  cases hstep
  obtain ⟨-, hclosing, hq, -, hall, -⟩ := clear_fair now true hsound hfair
  rw [Bool.or_true] at hclosing hall
  obtain ⟨hserved, hemp⟩ := hall rfl
  refine ⟨hclosing, ?_, settle_granted _ hserved, fun i hi => ?_⟩
  · change (clear cfg now true s.pool).1.waiters.map (·.op) = []
    rw [hemp, map_nil]
  · rw [hserved, hemp, nil_append, map_nil, append_nil] at hq
    have hflushed : i ∈ (clear cfg now true s.pool).2.2 := by
      rw [← hq]
      exact hi
    dsimp only
    rw [if_pos hflushed]

end

/-! ### Every reachable state -/

variable [DecidableEq κ]

theorem orderly_of_reachable (h : (system cfg calls).Reachable s) :
    Sound cfg.limits s.pool ∧ Fair cfg.limits s.pool ∧ Orderly s :=
  h.invariant (I := fun s => Sound cfg.limits s.pool ∧ Fair cfg.limits s.pool ∧ Orderly s)
    (fun _ hs => hs ▸ ⟨initial_sound, initial_fair, initial_orderly⟩)
    fun _ _ _ hinv _ hl => ⟨step_sound hinv.1 hl, step_orderly hinv.2.2 hinv.1 hinv.2.1 hl⟩

theorem step_error {i : ι} (hstep : step cfg calls s l = some s')
    (herr : (s.ops i).error = some .shutdown) : (s'.ops i).error = some .shutdown := by
  have hmodify : ∀ (j : ι) (f : Op → Op), (∀ o, (f o).error = o.error) →
      ((s.modify j f).ops i).error = some .shutdown := by
    intro j f hf
    change (update s.ops j _ i).error = _
    by_cases hij : i = j
    · rw [hij, update_self, hf, ← hij, herr]
    · rw [update_of_ne hij, herr]
  have hsettle : ∀ d, ((s.settle d).ops i).error = some .shutdown := fun d =>
    (error_settle d i).trans herr
  have hsettle_goto : ∀ d j pc, (((s.settle d).goto j pc).ops i).error = some .shutdown :=
    fun d j pc => (error_goto j pc i).trans (hsettle d)
  have hgoto : ∀ (q : Pool κ ι) j pc,
      ((State.goto { s with pool := q } j pc).ops i).error = some .shutdown :=
    fun q j pc => (error_goto j pc i).trans herr
  cases stepped hstep with
  | start j | refused j => exact hgoto s.pool j _
  | acquire j _ hturn =>
    obtain ⟨⟨turn, q⟩, -, rfl⟩ := Option.map_eq_some_iff.1 hturn
    cases turn with
    | again => exact herr
    | failed e => exact hgoto q j _
    | granted | queued => exact (error_goto j _ i).trans herr
  | notify j | wake j => exact hmodify j _ fun _ => rfl
  | depart j =>
    rw [depart]
    split <;> exact hsettle_goto _ j _
  | recover j => exact hsettle_goto _ j _
  | taken j | retire j => exact hgoto _ j _
  | dialComplete | retain | reset => exact hsettle _
  | clear close now hclear =>
    cases hclear
    dsimp only
    split_ifs
    · rfl
    · exact hsettle _

/-- Operation `0` dials, and operation `1` is queued for the same route. -/
def queuedRun : List (Label Bool (Fin 3)) :=
  [.start 0 none, .acquire 0 0 [(false, 0)], .depart 0 0, .start 1 none, .acquire 1 0 []]

theorem isSome_queuedRun :
    ((system smallConfig smallCalls).run .initial queuedRun).isSome := rfl

theorem isSome_closedRun :
    ((system smallConfig smallCalls).run .initial (queuedRun ++ [.clear true 1])).isSome := rfl

theorem isSome_cancelledRun :
    ((system smallConfig smallCalls).run .initial
      (queuedRun ++ [.clear true 1, .wake 1 .cancelled, .depart 1 1])).isSome := rfl

end Elio.BoundedPool
