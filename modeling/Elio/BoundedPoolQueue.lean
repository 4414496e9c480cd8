/-
**`elio::http::detail::bounded_pool`: the queue.**

Requests that cannot be served at once wait in one queue over all routes.  Only its front is served,
and a request is served at once only when nobody is queued.  Every critical section that may have
freed a slot ends with `dispatch`, which leaves a front that the limits do not allow to be served;
and then some permit is out, whose reset dispatches again.

Main definitions:

* `Servable`, `Fair` — what the limits allow, and what is known of the queue of a pool;
* `Serves` — a critical section serves operations from the front of the queue;
* `TurnOk` — what a turn of `acquire` does to the queue.

Main results:

* `permits_of_unavailable` — when a request cannot be served, a permit is out;
* `dispatch_fair` — **`dispatch` leaves a front that cannot be served**;
* `reset_fair`, `dialComplete_fair`, `retain_fair`, `clear_fair`, `acquire_fair` — the functions of
  the pool.
-/

import Elio.BoundedPoolAccounting

set_option autoImplicit false

namespace Elio.BoundedPool

open List

variable {κ ι : Type*} {p q : Pool κ ι} {b : ℕ} {limits : Limits}

/-! ### The queue of a pool -/

/-- The queue is used only with limits that can be met, and not after the pool was closed. -/
structure Usable (limits : Limits) (p : Pool κ ι) : Prop where
  positive : p.waiters ≠ [] →
    0 < limits.maxLivePerRoute ∧ 0 < limits.maxLiveTotal ∧ 0 < limits.maxDialsTotal
  dials : limits.maxDialsTotal = 0 → p.live = 0
  closed : p.closing = true → p.waiters = []

/-- **What is known of the queue between two critical sections.** -/
structure Fair (limits : Limits) (p : Pool κ ι) : Prop extends Usable limits p where
  blocked : ∀ w rest, p.waiters = w :: rest → ¬ Servable limits p w.route
  moving : p.waiters ≠ [] → p.permits ≠ []

theorem Usable.of_eq (h : Usable limits p) (hwaiters : q.waiters.Sublist p.waiters)
    (hlive : q.live ≤ p.live) (hclosing : q.closing = p.closing) : Usable limits q := by
  have hne : q.waiters ≠ [] → p.waiters ≠ [] := by
    intro hq hp
    rw [hp, sublist_nil] at hwaiters
    exact hq hwaiters
  refine ⟨fun hq => h.positive (hne hq), fun hzero => ?_, fun hclosed => ?_⟩
  · have := h.dials hzero
    omega
  · by_contra hq
    exact hne hq (h.closed (hclosing ▸ hclosed))

theorem Usable.shrink (h : Usable limits p) (hs : Shrinks p q) : Usable limits q :=
  h.of_eq (by rw [hs.waiters]) hs.live.le hs.closing

theorem not_servable_shrink (h : ¬ Servable limits p b) (hs : Shrinks p q) :
    ¬ Servable limits q b := by
  obtain ⟨hlive, -, hidle⟩ := hs.bucket b
  intro hserve
  refine h ?_
  rcases hserve with hsome | ⟨hroute, hdialing, htot⟩
  · refine .inl fun hnone => hsome ?_
    rw [hnone, suffix_nil] at hidle
    exact hidle
  · rw [hlive] at hroute
    rw [hs.dialing] at hdialing
    rw [hs.live] at htot
    exact .inr ⟨hroute, hdialing, htot⟩

theorem Shrinks.permits_ne_nil (hs : Shrinks p q) (h : p.permits ≠ []) : q.permits ≠ [] := by
  obtain ⟨retired, hperm, -⟩ := hs.permits
  rw [hperm]
  exact append_ne_nil_of_right_ne_nil _ h

theorem Fair.shrink (h : Fair limits p) (hs : Shrinks p q) : Fair limits q where
  toUsable := h.toUsable.shrink hs
  blocked w rest hw := not_servable_shrink (h.blocked w rest (hs.waiters ▸ hw)) hs
  moving hw := hs.permits_ne_nil (h.moving (hs.waiters ▸ hw))

/-- **When a request cannot be served, a permit is out.**  If what keeps it waiting are idle
connections of other routes, one of them has just been retired. -/
theorem permits_of_unavailable (h : Exact p) (hroute : 0 < limits.maxLivePerRoute)
    (hdials : 0 < limits.maxDialsTotal) (htot : 0 < limits.maxLiveTotal)
    (hfalse : (available limits b p).1 = false) : (available limits b p).2.1.permits ≠ [] := by
  have hlive := h.live
  rw [available] at hfalse ⊢
  split_ifs at hfalse ⊢ with hidle hroom hfull
  · intro hnone
    have hb := h.route b
    have hd := h.dialing
    rw [not_not.1 hidle, length_nil, Pool.out, hnone, countP_nil] at hb
    rw [hnone, countP_nil] at hd
    omega
  · rw [retireOne]
    split
    · exact append_ne_nil_of_left_ne_nil (by simp) _
    · next hnone =>
      -- there are no idle connections at all
      have hzero : p.idleTotal = 0 := by
        refine sum_eq_zero fun n hn => ?_
        obtain ⟨c, hc, rfl⟩ := mem_map.1 hn
        obtain ⟨r, hr, rfl⟩ := mem_map.1 hc
        have := find?_eq_none.1 hnone r hr
        simp only [ne_eq, decide_not, Bool.not_eq_true, Bool.not_eq_false', decide_eq_true_eq] at this
        rw [this]
        rfl
      intro hperm
      rw [hperm, length_nil] at hlive
      omega
  · have := of_decide_eq_false hfalse
    change ¬ p.live < _ at this
    omega

/-! ### Who is served -/

variable [DecidableEq ι]

/-- How many permits are at a place. -/
def Pool.placed (p : Pool κ ι) (place : Place ι) : ℕ := p.permits.countP (·.place = place)

/-- **The operations `served` leave the front of the queue, each with a permit.** -/
structure Serves (p q : Pool κ ι) (served : List ι) : Prop where
  queue : p.waiters.map (·.op) = served ++ q.waiters.map (·.op)
  closing : q.closing = p.closing
  placed : ∀ place, place ≠ .retired →
    q.placed place = p.placed place + (served.map Place.selected).count place

theorem Serves.trans {r : Pool κ ι} {served served' : List ι} (h : Serves p q served)
    (h' : Serves q r served') : Serves p r (served ++ served') where
  queue := by rw [h.queue, h'.queue, append_assoc]
  closing := h'.closing.trans h.closing
  placed place hplace := by
    rw [h'.placed place hplace, h.placed place hplace, map_append, count_append]
    omega

theorem Shrinks.serves (hs : Shrinks p q) : Serves p q [] where
  queue := by rw [hs.waiters]; rfl
  closing := hs.closing
  placed place hplace := by
    obtain ⟨retired, hperm, hretired⟩ := hs.permits
    have hnone : retired.countP (·.place = place) = 0 := by
      refine countP_eq_zero.2 fun x hx => ?_
      rw [hretired x hx]
      simpa using hplace.symm
    rw [Pool.placed, hperm, countP_append, hnone, Nat.zero_add]
    rfl

theorem placed_reserve (b : ℕ) (place place' : Place ι) (p : Pool κ ι) :
    (reserve b place p).placed place' = p.placed place' + [place].count place' := by
  rw [reserve, Pool.placed, Pool.placed]
  split_ifs <;> simp only [countP_cons, count_singleton, decide_eq_true_eq, beq_iff_eq]

omit [DecidableEq ι] in
theorem reserve_closing (b : ℕ) (place : Place ι) (p : Pool κ ι) :
    (reserve b place p).closing = p.closing := by
  rw [reserve]
  split_ifs <;> rfl

theorem grantTo_serves {w : Waiter ι} {rest : List (Waiter ι)} (hwaiters : p.waiters = w :: rest) :
    Serves p (grantTo w rest p) [w.op] where
  queue := by
    rw [grantTo, reserve_waiters, hwaiters]
    rfl
  closing := reserve_closing _ _ _
  placed place _ := by
    rw [grantTo, placed_reserve]
    rfl

/-! ### `dispatch` -/

omit [DecidableEq ι] in
theorem Usable.grantTo (h : Usable limits p) {w : Waiter ι} {rest : List (Waiter ι)}
    (hwaiters : p.waiters = w :: rest) : Usable limits (grantTo w rest p) := by
  have hpositive := h.positive (by rw [hwaiters]; exact cons_ne_nil _ _)
  refine ⟨fun _ => hpositive, fun hzero => absurd hzero (by omega), fun hclosed => ?_⟩
  rw [BoundedPool.grantTo, reserve_closing] at hclosed
  have := h.closed hclosed
  rw [hwaiters] at this
  cases this

theorem dispatchLoop_fair (ws : List (Waiter ι)) :
    ∀ p : Pool κ ι, Sound limits p → Usable limits p → p.waiters = ws →
      Fair limits (dispatchLoop limits ws p).1 ∧
        Serves p (dispatchLoop limits ws p).1 (dispatchLoop limits ws p).2 := by
  induction ws with
  | nil =>
    intro p _ husable hwaiters
    refine ⟨⟨husable, ?_, fun hne => absurd hwaiters hne⟩, (Shrinks.refl p).serves⟩
    intro w rest hw
    rw [dispatchLoop, hwaiters] at hw
    cases hw
  | cons w rest ih =>
    intro p h husable hwaiters
    obtain ⟨hexact, hshrinks, htrue, hfalse⟩ := available_spec limits w.route h.accounts
    obtain ⟨hroute, htot, hdials⟩ := husable.positive (by rw [hwaiters]; exact cons_ne_nil _ _)
    rw [dispatchLoop]
    split_ifs with havailable
    · obtain ⟨hsame, hserve⟩ := htrue havailable
      rw [hsame]
      obtain ⟨hfair, hserves⟩ := ih _ (grantTo_sound h hwaiters hserve) (husable.grantTo hwaiters)
        (reserve_waiters _ _ _)
      exact ⟨hfair, (grantTo_serves hwaiters).trans hserves⟩
    · rw [Bool.not_eq_true] at havailable
      refine ⟨⟨husable.shrink hshrinks, ?_, fun _ => ?_⟩, hshrinks.serves⟩
      · intro w' rest' hw
        rw [hshrinks.waiters, hwaiters] at hw
        cases hw
        exact hfalse havailable
      · exact permits_of_unavailable h.accounts hroute hdials htot havailable

/-- **`dispatch` leaves a front that cannot be served.** -/
theorem dispatch_fair (cfg : Config) (now : ℤ) (h : Sound cfg.limits p)
    (husable : Usable cfg.limits p) :
    Fair cfg.limits (dispatch cfg now p).1 ∧
      Serves p (dispatch cfg now p).1 (dispatch cfg now p).2 := by
  obtain ⟨hexact, hshrinks⟩ := expire_spec cfg now h.accounts
  obtain ⟨hfair, hserves⟩ := dispatchLoop_fair _ _ (h.shrink ⟨hexact, hshrinks⟩)
    (husable.shrink hshrinks) rfl
  have hprune := Shrinks.pruneEmpty (dispatchLoop cfg.limits (expire cfg now p).1.waiters
    (expire cfg now p).1).1
  refine ⟨hfair.shrink hprune, ?_⟩
  have hall := (hshrinks.serves.trans hserves).trans hprune.serves
  rw [append_nil] at hall
  exact hall

/-! ### What is done with a permit -/

variable {x : Permit ι}

theorem placed_erase (hx : x ∈ p.permits) (place : Place ι) :
    (p.permits.erase x).countP (·.place = place) + [x.place].count place = p.placed place := by
  rw [Pool.placed, (perm_cons_erase hx).countP_eq, countP_cons, count_singleton]
  simp only [decide_eq_true_eq, beq_iff_eq]

theorem placed_replace {x y : Permit ι} (hx : x ∈ p.permits) (place : Place ι) :
    (p.replace x y).placed place + [x.place].count place =
      p.placed place + [y.place].count place := by
  have hcons : (p.replace x y).placed place =
      (p.permits.erase x).countP (·.place = place) + [y.place].count place := by
    rw [Pool.placed, Pool.replace, countP_cons, count_singleton]
    simp only [decide_eq_true_eq, beq_iff_eq]
  rw [← placed_erase hx]
  omega

theorem Fair.replace (h : Fair limits p) (x y : Permit ι) : Fair limits (p.replace x y) where
  toUsable := h.toUsable.of_eq (.refl _) le_rfl rfl
  blocked := h.blocked
  moving _ := cons_ne_nil _ _

variable {cfg : Config}

/-- What becomes of the queue when the permit `x` is reset. -/
theorem reset_fair (now : ℤ) (h : Sound cfg.limits p) (hfair : Fair cfg.limits p)
    (hx : x ∈ p.permits) :
    Fair cfg.limits (reset cfg now x p).1 ∧
      p.waiters.map (·.op) = (reset cfg now x p).2 ++ (reset cfg now x p).1.waiters.map (·.op) ∧
      (reset cfg now x p).1.closing = p.closing ∧
      ∀ place, place ≠ .retired → (reset cfg now x p).1.placed place + [x.place].count place =
        p.placed place + ((reset cfg now x p).2.map Place.selected).count place := by
  obtain ⟨hnew, hserves⟩ := dispatch_fair cfg now (giveBack_sound h hx)
    (hfair.toUsable.of_eq (.refl _) (Nat.sub_le _ _) rfl)
  refine ⟨hnew, hserves.queue, hserves.closing, fun place hplace => ?_⟩
  have hplaced := hserves.placed place hplace
  have herase := placed_erase hx place
  change _ = (p.permits.erase x).countP (·.place = place) + _ at hplaced
  change (dispatch cfg now (p.giveBack x)).1.placed place + _ = p.placed place +
    ((dispatch cfg now (p.giveBack x)).2.map Place.selected).count place
  omega

/-- A caller completes a dial, or retains a connection: the permit it may lose is its own. -/
structure Uses (place : Place ι) (p q : Pool κ ι) (served : List ι) : Prop where
  queue : p.waiters.map (·.op) = served ++ q.waiters.map (·.op)
  closing : q.closing = p.closing
  own : q.placed place ≤ p.placed place + (served.map Place.selected).count place
  other : ∀ other, other ≠ .retired → other ≠ place →
    q.placed other = p.placed other + (served.map Place.selected).count other

theorem reset_uses (now : ℤ) (h : Sound cfg.limits p) (hfair : Fair cfg.limits p)
    (hx : x ∈ p.permits) (hretired : x.place ≠ .retired) :
    Uses x.place p (reset cfg now x p).1 (reset cfg now x p).2 := by
  obtain ⟨-, hq, hclosing, hplaced⟩ := reset_fair now h hfair hx
  refine ⟨hq, hclosing, ?_, fun other hother hne => ?_⟩
  · have := hplaced x.place hretired
    omega
  · have := hplaced other hother
    rw [count_singleton, if_neg (by simpa using hne.symm)] at this
    exact this

theorem dialComplete_fair (now : ℤ) (h : Sound cfg.limits p)
    (hfair : Fair cfg.limits p) (hx : x ∈ p.permits) :
    Fair cfg.limits (dialComplete cfg now x p).1 ∧
      Serves p (dialComplete cfg now x p).1 (dialComplete cfg now x p).2 := by
  rw [dialComplete]
  split_ifs with hdialing
  · obtain ⟨hnew, hserves⟩ := dispatch_fair cfg now (dialed_sound h hx hdialing)
      (hfair.toUsable.of_eq (.refl _) le_rfl rfl)
    refine ⟨hnew, hserves.queue, hserves.closing, fun place hplace => ?_⟩
    rw [hserves.placed place hplace]
    have hsame := placed_replace (y := { x with dialing := false }) hx place
    change (p.replace x { x with dialing := false }).placed place + _ = _
    dsimp only at hsame
    omega
  · exact ⟨hfair, (Shrinks.refl p).serves⟩

theorem retain_fair (lastUse now : ℤ) (h : Sound cfg.limits p)
    (hfair : Fair cfg.limits p) (hx : x ∈ p.permits) (hretired : x.place ≠ .retired) :
    Fair cfg.limits (retain cfg lastUse now x p).1 ∧
      Uses x.place p (retain cfg lastUse now x p).1 (retain cfg lastUse now x p).2 := by
  rw [retain]
  split_ifs with hrefused
  · exact ⟨hfair, rfl, rfl, le_rfl, fun _ _ _ => rfl⟩
  · simp only [not_or, Bool.not_eq_true, not_le] at hrefused
    obtain ⟨-, hdialing, hroom, htot⟩ := hrefused
    obtain ⟨hnew, hserves⟩ := dispatch_fair cfg now (keep_sound h hx hdialing lastUse hroom htot)
      (hfair.toUsable.of_eq (.refl _) le_rfl rfl)
    refine ⟨hnew, hserves.queue, hserves.closing, ?_, fun other hother hne => ?_⟩
    · have hplaced := hserves.placed x.place hretired
      have herase := placed_erase hx x.place
      change _ = (p.permits.erase x).countP (·.place = x.place) + _ at hplaced
      omega
    · have hplaced := hserves.placed other hother
      have herase := placed_erase hx other
      rw [count_singleton, if_neg (by simpa using hne.symm)] at herase
      change _ = (p.permits.erase x).countP (·.place = other) + _ at hplaced
      omega

/-! ### `clear` and `acquire` -/

omit [DecidableEq ι] in
theorem flush_spec (ws : List (Waiter ι)) :
    ∀ p : Pool κ ι, p.waiters = ws → (flush ws p).waiters = [] ∧ (flush ws p).live = p.live ∧
      (flush ws p).closing = p.closing ∧ (flush ws p).permits = p.permits := by
  induction ws with
  | nil => exact fun p hwaiters => ⟨hwaiters, rfl, rfl, rfl⟩
  | cons w rest ih => exact fun p _ => ih _ rfl

/-- `clear` shuts everybody down who is queued, or goes on to `dispatch`. -/
theorem clear_fair (now : ℤ) (close : Bool) (h : Sound cfg.limits p)
    (hfair : Fair cfg.limits p) :
    Fair cfg.limits (clear cfg now close p).1 ∧
      (clear cfg now close p).1.closing = (p.closing || close) ∧
      p.waiters.map (·.op) = (clear cfg now close p).2.1 ++ (clear cfg now close p).2.2 ++
        (clear cfg now close p).1.waiters.map (·.op) ∧
      ((clear cfg now close p).2.2 ≠ [] → (p.closing || close) = true) ∧
      ((p.closing || close) = true →
        (clear cfg now close p).2.1 = [] ∧ (clear cfg now close p).1.waiters = []) ∧
      ∀ place, place ≠ .retired → (clear cfg now close p).1.placed place =
        p.placed place + ((clear cfg now close p).2.1.map Place.selected).count place := by
  obtain ⟨hexact, hshrinks⟩ := cleared_spec (p.closing || close) h.accounts
  have hserves := hshrinks.serves
  rw [clear]
  split_ifs with hclosing
  · have hflush := flush_spec _ (pruneEmpty { detachAll p.routes p with
      idle := 0, closing := p.closing || close }) rfl
    obtain ⟨hnone, hlive, hclosed, hperm⟩ := hflush
    refine ⟨⟨⟨fun hne => absurd hnone hne, fun hzero => ?_, fun _ => hnone⟩, ?_,
      fun hne => absurd hnone hne⟩, hclosed, ?_, fun _ => hclosing, fun _ => ⟨rfl, hnone⟩, ?_⟩
    · exact (hlive.trans hshrinks.live).trans (hfair.dials hzero)
    · intro w rest hw
      change (flush _ _).waiters = _ at hw
      rw [hnone] at hw
      cases hw
    · change _ = [] ++ _ ++ (flush _ _).waiters.map (·.op)
      rw [hnone, hshrinks.waiters]
      simp
    · intro place hplace
      change (flush _ _).permits.countP (·.place = place) = _
      rw [hperm]
      exact hserves.placed place hplace
  · have hwas : p.closing = (p.closing || close) := by
      cases hp : p.closing <;> cases hc : close <;> rw [hp, hc] at hclosing <;>
        first | rfl | exact absurd rfl hclosing
    have hsound : Sound cfg.limits (pruneEmpty { detachAll p.routes p with
        idle := 0, closing := p.closing || close }) := by
      refine Sound.shrink ?_ ⟨hexact, hshrinks⟩
      rw [← hwas]
      exact h
    have husable : Usable cfg.limits { p with closing := p.closing || close } := by
      rw [← hwas]
      exact hfair.toUsable
    obtain ⟨hnew, hserves'⟩ := dispatch_fair cfg now hsound (husable.shrink hshrinks)
    have hall := hserves.trans hserves'
    refine ⟨hnew, hall.closing, ?_, (by simp), fun hcontra => absurd hcontra hclosing,
      hall.placed⟩
    have hq := hall.queue
    rw [append_nil]
    exact hq

/-- What a turn of `acquire` does to the queue. -/
structure TurnOk (limits : Limits) (i : ι) (p : Pool κ ι) (c : Turn × Pool κ ι) : Prop where
  fair : Fair limits c.2
  closing : c.2.closing = p.closing
  served : c.1 = .granted → p.closing = false ∧ p.waiters = []
  queue : c.2.waiters.map (·.op) = p.waiters.map (·.op) ++ if c.1 = .queued then [i] else []
  placed : ∀ place, place ≠ .retired → c.2.placed place =
    p.placed place + if c.1 = .granted then [Place.leased i].count place else 0

theorem TurnOk.shrink {i : ι} {c : Turn × Pool κ ι} (hs : Shrinks p q) (h : TurnOk limits i q c) :
    TurnOk limits i p c where
  fair := h.fair
  closing := h.closing.trans hs.closing
  served hc := ⟨hs.closing ▸ (h.served hc).1, hs.waiters ▸ (h.served hc).2⟩
  queue := by rw [h.queue, hs.waiters]
  placed place hplace := by
    rw [h.placed place hplace, hs.serves.placed place hplace]
    rfl

/-- The turn has only retired connections. -/
theorem TurnOk.of_shrinks {i : ι} {turn : Turn} (hs : Shrinks p q) (hfair : Fair limits p)
    (hgrant : turn ≠ .granted) (hqueued : turn ≠ .queued) : TurnOk limits i p (turn, q) where
  fair := hfair.shrink hs
  closing := hs.closing
  served hc := absurd hc hgrant
  queue := by rw [if_neg hqueued, append_nil, hs.waiters]
  placed place hplace := by
    rw [hs.serves.placed place hplace, if_neg hgrant]
    rfl

/-- An operation is queued behind others, or when it has just been found that it cannot be
served. -/
theorem enqueue_fair (h : Sound limits p) (hfair : Fair limits p) (hclosing : p.closing = false)
    (scheduled : Bool) (i : ι)
    (hblocked : p.waiters = [] → ¬ Servable limits p b ∧
      (0 < limits.maxLivePerRoute → 0 < limits.maxDialsTotal → 0 < limits.maxLiveTotal →
        p.permits ≠ [])) :
    TurnOk limits i p (enqueue limits scheduled i b p) := by
  rw [enqueue]
  split_ifs with hrefused
  · exact .of_shrinks (.pruneEmpty p) hfair (by simp) (by simp)
  · simp only [not_or, not_and, not_le] at hrefused
    obtain ⟨hroute, htot, hdials, -⟩ := hrefused
    have hpositive : 0 < limits.maxDialsTotal := by
      by_contra hnot
      have hzero : limits.maxDialsTotal = 0 := by omega
      -- without dials there has never been a connection
      have hlive := h.accounts.live
      have hidle : (p.buckets b).idle.length ≤ (p.buckets b).live := by
        have := h.accounts.route b
        omega
      have hbucket : (p.buckets b).live = 0 := by
        by_contra hne
        have hknown := h.accounts.known b (.inl hne)
        have hsum := Pool.idle_le_idleTotal hknown
        have hout : p.out b ≤ p.permits.length := countP_le_length
        have := h.accounts.route b
        have := hfair.dials hzero
        omega
      exact hdials hzero (length_eq_zero_iff.1 (by omega))
    refine ⟨⟨⟨fun _ => ⟨by omega, by omega, hpositive⟩, hfair.dials, fun hc => ?_⟩, ?_, fun _ => ?_⟩,
      rfl, (by simp), ?_, fun _ _ => rfl⟩
    · change p.closing = true at hc
      rw [hclosing] at hc
      cases hc
    · intro w rest hw
      -- counting the waiter does not change what can be served
      have hsame : ∀ c, Servable limits { p.modify b fun k => { k with waiting := k.waiting + 1 } with
          waiters := p.waiters ++ [⟨i, b⟩] } c → Servable limits p c := by
        intro c hserve
        have hbucket : ((Function.update p.buckets b
              { p.buckets b with waiting := (p.buckets b).waiting + 1 } c).idle =
                (p.buckets c).idle) ∧
            ((Function.update p.buckets b
              { p.buckets b with waiting := (p.buckets b).waiting + 1 } c).live =
                (p.buckets c).live) := by
          by_cases hc : c = b
          · rw [hc, Function.update_self]
            exact ⟨rfl, rfl⟩
          · rw [Function.update_of_ne hc]
            exact ⟨rfl, rfl⟩
        rcases hserve with hidle | ⟨hlive, hrest⟩
        · exact .inl fun hnone => hidle (hbucket.1.trans hnone)
        · exact .inr ⟨lt_of_eq_of_lt hbucket.2.symm hlive, hrest⟩
      intro hserve
      cases hp : p.waiters with
      | nil =>
        rw [hp] at hw
        cases hw
        exact (hblocked hp).1 (hsame b hserve)
      | cons w' rest' =>
        rw [hp] at hw
        cases hw
        exact hfair.blocked w rest' hp (hsame w.route hserve)
    · by_cases hp : p.waiters = []
      · exact (hblocked hp).2 (by omega) hpositive (by omega)
      · exact hfair.moving hp
    · rw [map_append]
      rfl
  · exact .of_shrinks (.pruneEmpty p) hfair (by simp) (by simp)

theorem admission_fair (h : Sound limits p) (hfair : Fair limits p) (hclosing : p.closing = false)
    (scheduled : Bool) (i : ι) (retired : ℕ) (hknown : b ∈ p.known) :
    TurnOk limits i p (admission limits scheduled i b retired p) := by
  obtain ⟨hexact, hshrinks, htrue, hfalse⟩ := available_spec limits b h.accounts
  rw [admission]
  dsimp only
  split_ifs with hemp havailable hretired
  · obtain ⟨hsame, hserve⟩ := htrue havailable
    rw [hsame]
    refine ⟨⟨⟨?_, ?_, ?_⟩, ?_, ?_⟩, reserve_closing _ _ _, fun _ => ⟨hclosing, hemp⟩, ?_, ?_⟩
    · rw [reserve_waiters]
      exact fun hne => absurd hemp hne
    · intro hzero
      -- a dial would exceed the limit, and there is nothing idle
      exfalso
      have hlive := hfair.dials hzero
      have hidle := h.accounts.live
      rcases hserve with hsome | ⟨-, hdialing, -⟩
      · have hsum := Pool.idle_le_idleTotal hknown
        have hpos := length_pos_iff.2 hsome
        omega
      · omega
    · rw [reserve_waiters]
      exact fun _ => hemp
    · intro w rest hw
      rw [reserve_waiters, hemp] at hw
      cases hw
    · rw [reserve_waiters]
      exact fun hne => absurd hemp hne
    · rw [reserve_waiters, if_neg (by simp), append_nil]
    · intro place _
      rw [placed_reserve, if_pos rfl]
  · exact .of_shrinks hshrinks hfair (by simp) (by simp)
  · rw [Bool.not_eq_true] at havailable
    refine (enqueue_fair (h.shrink ⟨hexact, hshrinks⟩) (hfair.shrink hshrinks)
      (hshrinks.closing.trans hclosing) scheduled i fun _ => ⟨hfalse havailable, ?_⟩).shrink hshrinks
    exact fun hroute hdials htot =>
      permits_of_unavailable h.accounts hroute hdials htot havailable
  · exact enqueue_fair h hfair hclosing scheduled i fun hcontra => absurd hcontra hemp

omit [DecidableEq ι] in
theorem Fair.emplace {order : List (κ × ℕ)} (h : Fair limits p) (hsound : Sound limits p) :
    Fair limits (emplace order p) where
  toUsable := h.toUsable.of_eq (.refl _) le_rfl rfl
  moving := h.moving
  blocked w rest hw hserve := by
    change p.waiters = w :: rest at hw
    have hne : w.route ≠ p.nextBucket := by
      have hpos : 0 < p.queued w.route := by
        rw [Pool.queued, hw, countP_cons_of_pos (by simp)]
        omega
      have hwaiting := hsound.accounts.waiting w.route
      have hlt := hsound.accounts.numbered w.route
        (hsound.accounts.known w.route (.inr (by omega)))
      omega
    have hbucket : (BoundedPool.emplace order p).buckets w.route = p.buckets w.route :=
      Function.update_of_ne hne _ _
    refine h.blocked w rest hw ?_
    rw [Servable, hbucket] at hserve
    exact hserve

/-- **A turn of `acquire`**: it serves the operation at once only when nobody is queued, and queues
it only when it cannot be served. -/
theorem acquire_fair [DecidableEq κ] {now : ℤ} {call : Call κ}
    {order : List (κ × ℕ)} {i : ι} (h : Sound cfg.limits p) (hfair : Fair cfg.limits p)
    {c : Turn × Pool κ ι} (hturn : acquire cfg now call order i p = some c) :
    TurnOk cfg.limits i p c := by
  obtain ⟨hexact, hshrinks⟩ := expire_spec cfg now h.accounts
  have hsound := h.shrink ⟨hexact, hshrinks⟩
  have hfair' := hfair.shrink hshrinks
  rw [acquire] at hturn
  by_cases hclosing : p.closing
  · rw [if_pos hclosing] at hturn
    cases hturn
    exact .of_shrinks (.refl p) hfair (by simp) (by simp)
  · rw [if_neg hclosing] at hturn
    rw [Bool.not_eq_true] at hclosing
    have hclosing' := hshrinks.closing.trans hclosing
    dsimp only at hturn
    split at hturn
    · next r hr =>
      cases hturn
      exact (admission_fair hsound hfair' hclosing' _ i _
        (mem_map_of_mem (mem_of_find?_eq_some hr))).shrink hshrinks
    · next hnew =>
      obtain ⟨-, hevict⟩ := evict_spec hsound.accounts
      split_ifs at hturn with hzero hfull hretired hperm <;> cases hturn
      · exact .of_shrinks hshrinks hfair (by simp) (by simp)
      · exact .of_shrinks (hshrinks.trans hevict) hfair (by simp) (by simp)
      · exact .of_shrinks (hshrinks.trans hevict) hfair (by simp) (by simp)
      · obtain ⟨hemplace, hmem⟩ := emplace_sound hsound hnew (not_le.1 hfull) hperm
        have hok := admission_fair hemplace (hfair'.emplace hsound) hclosing'
          call.scheduled i (expire cfg now p).2 hmem
        exact TurnOk.shrink hshrinks { hok with }

end Elio.BoundedPool
