/-
**`elio::http::detail::bounded_pool`: the accounts are exact.**

The pool counts live connections, idle ones and dials, for all routes together and for each.  What
it counts are the permits that are out and the idle connections: a live connection is one or the
other.  Every function of the pool keeps the accounts, and none of them lets an account exceed its
limit.

Main definitions:

* `Exact` — the accounts of a pool;
* `Within` — the limits.

Main results:

* `Exact.update` — what a change of one bucket has to keep;
* `dispatch_sound`, `acquire_sound` — the functions of the pool;
* `exact_accounting` — **the accounts are exact, and within the limits, in every reachable state**.
-/

import Elio.BoundedPool
import Mathlib.Algebra.Order.BigOperators.Group.List
import Mathlib.Algebra.Order.Group.Nat
import Mathlib.Data.List.Nodup

set_option autoImplicit false

namespace Elio.BoundedPool

open Function (update update_self update_of_ne)
open List

variable {κ ι : Type*} {p q : Pool κ ι} {b n : ℕ} {limits : Limits}

/-! ### The accounts -/

/-- The buckets in the map. -/
def Pool.known (p : Pool κ ι) : List ℕ := p.routes.map Prod.snd

/-- The idle connections of all routes. -/
def Pool.idleTotal (p : Pool κ ι) : ℕ := (p.known.map fun b => (p.buckets b).idle.length).sum

/-- The permits that are out for a route. -/
def Pool.out (p : Pool κ ι) (b : ℕ) : ℕ := p.permits.countP (·.route = b)

/-- The waiters that are queued for a route. -/
def Pool.queued (p : Pool κ ι) (b : ℕ) : ℕ := p.waiters.countP (·.route = b)

/-- **The accounts of a pool.** -/
structure Exact (p : Pool κ ι) : Prop where
  live : p.live = p.permits.length + p.idleTotal
  route : ∀ b, (p.buckets b).live = p.out b + (p.buckets b).idle.length
  idle : p.idle = p.idleTotal
  dialing : p.dialing = p.permits.countP (·.dialing)
  waiting : ∀ b, (p.buckets b).waiting = p.queued b
  known : ∀ b, (p.buckets b).live ≠ 0 ∨ (p.buckets b).waiting ≠ 0 → b ∈ p.known
  nodup : p.known.Nodup
  keys : (p.routes.map Prod.fst).Nodup
  numbered : ∀ b ∈ p.known, b < p.nextBucket

/-- **The limits.** -/
structure Within (limits : Limits) (p : Pool κ ι) : Prop where
  live : p.live ≤ limits.maxLiveTotal
  routeLive : ∀ b, (p.buckets b).live ≤ limits.maxLivePerRoute
  dialing : p.dialing ≤ limits.maxDialsTotal
  idle : p.idle ≤ limits.maxIdleTotal
  routeIdle : ∀ b, (p.buckets b).idle.length ≤ limits.maxIdlePerRoute
  waiters : p.waiters.length ≤ limits.maxWaitersTotal
  routes : p.routes.length ≤ limits.maxRouteBuckets

/-- Exact accounts within the limits. -/
structure Sound (limits : Limits) (p : Pool κ ι) : Prop where
  accounts : Exact p
  bounds : Within limits p

/-- A sum over a list without repetitions changes as one term does. -/
theorem sum_map_of_agree {α : Type*} [DecidableEq α] {f g : α → ℕ} {l : List α} {a : α}
    (hnd : l.Nodup) (ha : a ∈ l) (hagree : ∀ x, x ≠ a → g x = f x) :
    (l.map g).sum + f a = (l.map f).sum + g a := by
  have hrest : (l.erase a).map g = (l.erase a).map f := by
    refine map_congr_left fun x hx => hagree x ?_
    rintro rfl
    exact hnd.not_mem_erase hx
  rw [← sum_map_erase f ha, ← sum_map_erase g ha, hrest]
  omega

/-- The permits of one route change, and those of the others do not. -/
structure PermitsOf (b : ℕ) (p q : Pool κ ι) : Prop where
  length : q.permits.length + p.out b = p.permits.length + q.out b
  other : ∀ c, c ≠ b → q.out c = p.out c

variable {k : Bucket}

/-- **One bucket changes, with the permits of its route and the counters of the pool.** -/
theorem Exact.update (h : Exact p) (hroutes : q.routes = p.routes)
    (hnext : q.nextBucket = p.nextBucket) (hbuckets : q.buckets = update p.buckets b k)
    (hknown : b ∈ p.known) (hperm : PermitsOf b p q)
    (hlive : q.live + (p.buckets b).live = p.live + k.live)
    (hroute : k.live = q.out b + k.idle.length)
    (hidle : q.idle + (p.buckets b).idle.length = p.idle + k.idle.length)
    (hdialing : q.dialing = q.permits.countP (·.dialing)) (hwaiting : k.waiting = q.queued b)
    (hqueued : ∀ c, c ≠ b → q.queued c = p.queued c) : Exact q := by
  have hids : q.known = p.known := by rw [Pool.known, hroutes, ← Pool.known]
  have hself : q.buckets b = k := by rw [hbuckets, update_self]
  have hother : ∀ c, c ≠ b → q.buckets c = p.buckets c := by
    intro c hc
    rw [hbuckets, update_of_ne hc]
  have htot : q.idleTotal + (p.buckets b).idle.length = p.idleTotal + k.idle.length := by
    have hsum := sum_map_of_agree (f := fun c => (p.buckets c).idle.length)
      (g := fun c => (q.buckets c).idle.length) h.nodup hknown fun c hc => by rw [hother c hc]
    rw [hself] at hsum
    rw [Pool.idleTotal, hids]
    exact hsum
  have hlen := hperm.length
  have hold := h.route b
  have holdLive := h.live
  have holdIdle := h.idle
  refine ⟨by omega, ?_, by omega, hdialing, ?_, ?_, hids ▸ h.nodup, hroutes ▸ h.keys, ?_⟩
  · intro c
    by_cases hc : c = b
    · rw [hc, hself]
      exact hroute
    · rw [hother c hc, hperm.other c hc]
      exact h.route c
  · intro c
    by_cases hc : c = b
    · rw [hc, hself]
      exact hwaiting
    · rw [hother c hc, hqueued c hc]
      exact h.waiting c
  · intro c hsome
    rw [hids]
    by_cases hc : c = b
    · rw [hc]
      exact hknown
    · rw [hother c hc] at hsome
      exact h.known c hsome
  · rw [hids, hnext]
    exact h.numbered

/-- The idle connections of a route are among those of all routes. -/
theorem Pool.idle_le_idleTotal (hknown : b ∈ p.known) : (p.buckets b).idle.length ≤ p.idleTotal :=
  single_le_sum (fun _ _ => Nat.zero_le _) _ (mem_map.2 ⟨b, hknown, rfl⟩)

/-! ### Permits -/

theorem permitsOf_append (xs : List (Permit ι)) (hroute : ∀ x ∈ xs, x.route = b)
    (hperm : q.permits = xs ++ p.permits) : PermitsOf b p q ∧ q.out b = p.out b + xs.length := by
  have hself : q.out b = p.out b + xs.length := by
    rw [Pool.out, hperm, countP_append, countP_eq_length.2 (by simpa using hroute), Nat.add_comm,
      Pool.out]
  refine ⟨⟨?_, fun c hc => ?_⟩, hself⟩
  · rw [hperm, length_append]
    omega
  · have hnone : xs.countP (·.route = c) = 0 :=
      countP_eq_zero.2 fun x hx => by simpa [hroute x hx] using hc.symm
    rw [Pool.out, hperm, countP_append, hnone, Nat.zero_add, Pool.out]

theorem permitsOf_erase [DecidableEq ι] {x : Permit ι} (hx : x ∈ p.permits)
    (hpermits : q.permits = p.permits.erase x) :
    PermitsOf x.route p q ∧ q.out x.route + 1 = p.out x.route ∧
      q.permits.countP (·.dialing) + x.dialing.toNat = p.permits.countP (·.dialing) := by
  have hperm := perm_cons_erase hx
  have hself : q.out x.route + 1 = p.out x.route := by
    rw [Pool.out, Pool.out, hpermits, hperm.countP_eq, countP_cons_of_pos (by simp)]
  have hlen := hperm.length_eq
  rw [length_cons] at hlen
  refine ⟨⟨?_, ?_⟩, hself, ?_⟩
  · rw [hpermits]
    omega
  · intro c hc
    rw [Pool.out, Pool.out, hpermits, hperm.countP_eq,
      countP_cons_of_neg (by simpa using hc.symm)]
  · rw [hpermits, hperm.countP_eq, countP_cons]
    cases x.dialing <;> rfl

theorem Exact.known_of_mem (h : Exact p) {x : Permit ι} (hx : x ∈ p.permits) :
    x.route ∈ p.known ∧ 0 < p.out x.route := by
  have hpos : 0 < p.out x.route := countP_pos_iff.2 ⟨x, hx, by simp⟩
  have hroute := h.route x.route
  exact ⟨h.known _ (.inl (by omega)), hpos⟩

/-! ### Connections are retired -/

/-- Idle connections are retired, and nothing else happens. -/
structure Shrinks (p q : Pool κ ι) : Prop where
  waiters : q.waiters = p.waiters
  live : q.live = p.live
  dialing : q.dialing = p.dialing
  closing : q.closing = p.closing
  bucket : ∀ b, (q.buckets b).live = (p.buckets b).live ∧
    (q.buckets b).waiting = (p.buckets b).waiting ∧ (q.buckets b).idle <:+ (p.buckets b).idle
  idle : q.idle ≤ p.idle
  routes : q.routes.length ≤ p.routes.length
  permits : ∃ retired, q.permits = retired ++ p.permits ∧ ∀ x ∈ retired, x.place = .retired

theorem Shrinks.refl (p : Pool κ ι) : Shrinks p p :=
  ⟨rfl, rfl, rfl, rfl, fun _ => ⟨rfl, rfl, suffix_rfl⟩, le_rfl, le_rfl, [], rfl, nofun⟩

theorem Shrinks.trans {r : Pool κ ι} (h : Shrinks p q) (h' : Shrinks q r) : Shrinks p r := by
  refine ⟨h'.waiters.trans h.waiters, h'.live.trans h.live, h'.dialing.trans h.dialing,
    h'.closing.trans h.closing, ?_, h'.idle.trans h.idle, h'.routes.trans h.routes, ?_⟩
  · intro b
    obtain ⟨hlive, hwaiting, hidle⟩ := h.bucket b
    obtain ⟨hlive', hwaiting', hidle'⟩ := h'.bucket b
    exact ⟨hlive'.trans hlive, hwaiting'.trans hwaiting, hidle'.trans hidle⟩
  · obtain ⟨xs, hxs, hretired⟩ := h.permits
    obtain ⟨ys, hys, hretired'⟩ := h'.permits
    refine ⟨ys ++ xs, by rw [hys, hxs, append_assoc], fun x hx => ?_⟩
    rcases mem_append.1 hx with hx | hx
    · exact hretired' x hx
    · exact hretired x hx

theorem Within.shrink (h : Within limits p) (hs : Shrinks p q) : Within limits q where
  live := hs.live ▸ h.live
  routeLive b := (hs.bucket b).1 ▸ h.routeLive b
  dialing := hs.dialing ▸ h.dialing
  idle := hs.idle.trans h.idle
  routeIdle b := (hs.bucket b).2.2.length_le.trans (h.routeIdle b)
  waiters := hs.waiters ▸ h.waiters
  routes := hs.routes.trans h.routes

theorem Sound.shrink (h : Sound limits p) (hs : Exact q ∧ Shrinks p q) : Sound limits q :=
  ⟨hs.1, h.bounds.shrink hs.2⟩

theorem Shrinks.detach (p : Pool κ ι) (b n idle : ℕ) (hidle : idle ≤ p.idle) :
    Shrinks p { p.detach b n with idle := idle } := by
  refine ⟨rfl, rfl, rfl, rfl, ?_, hidle, le_rfl, _, rfl, fun x hx => ?_⟩
  · intro c
    have hbuckets : (p.detach b n).buckets =
        update p.buckets b { p.buckets b with idle := (p.buckets b).idle.drop n } := rfl
    rw [hbuckets]
    by_cases hc : c = b
    · rw [hc, update_self]
      exact ⟨rfl, rfl, drop_suffix _ _⟩
    · rw [update_of_ne hc]
      exact ⟨rfl, rfl, suffix_rfl⟩
  · rw [eq_of_mem_replicate hx]

theorem Shrinks.pruneEmpty (p : Pool κ ι) : Shrinks p (pruneEmpty p) :=
  ⟨rfl, rfl, rfl, rfl, fun _ => ⟨rfl, rfl, suffix_rfl⟩, le_rfl, length_filter_le _ _, [],
    rfl, nofun⟩

/-! ### The functions of the source -/

theorem Exact.detach (h : Exact p) (hknown : b ∈ p.known) (hn : n ≤ (p.buckets b).idle.length) :
    Exact { p.detach b n with idle := p.idle - n } := by
  have hroute := h.route b
  have hidle := h.idle
  obtain ⟨hperm, hout⟩ := permitsOf_append _ (b := b)
    (q := { p.detach b n with idle := p.idle - n }) (fun x hx => by rw [eq_of_mem_replicate hx]) rfl
  rw [length_replicate] at hout
  have htot := Pool.idle_le_idleTotal hknown
  refine h.update rfl rfl rfl hknown hperm rfl ?_ ?_ ?_ (h.waiting b) fun _ _ => rfl
  · rw [length_drop]
    change (p.buckets b).live = _
    omega
  · change p.idle - n + _ = _
    rw [length_drop]
    omega
  · rw [Pool.detach, countP_append, countP_replicate, if_neg (by simp), Nat.zero_add]
    exact h.dialing

theorem pruneEmpty_sublist : (pruneEmpty p).routes.Sublist p.routes := filter_sublist

theorem Exact.pruneEmpty (h : Exact p) : Exact (pruneEmpty p) := by
  have hsub : (BoundedPool.pruneEmpty p).known.Sublist p.known := pruneEmpty_sublist.map _
  -- what leaves the map has no idle connections
  have htot : (BoundedPool.pruneEmpty p).idleTotal = p.idleTotal := by
    rw [Pool.idleTotal, Pool.idleTotal, Pool.known, Pool.known, BoundedPool.pruneEmpty]
    dsimp only
    induction p.routes with
    | nil => rfl
    | cons r rest ih =>
      by_cases hr : (p.buckets r.2).live = 0 ∧ (p.buckets r.2).waiting = 0
      · have hroute := h.route r.2
        rw [filter_cons_of_neg (by simp [hr]), ih, map_cons, map_cons,
          sum_cons]
        omega
      · rw [filter_cons_of_pos (by exact decide_eq_true hr), map_cons, map_cons,
          sum_cons, ih, map_cons, map_cons, sum_cons]
  refine ⟨h.live.trans (by rw [htot]; rfl), h.route, h.idle.trans htot.symm, h.dialing,
    h.waiting, ?_, h.nodup.sublist hsub, h.keys.sublist (pruneEmpty_sublist.map _),
    fun c hc => h.numbered c (hsub.subset hc)⟩
  intro c hsome
  obtain ⟨r, hr, rfl⟩ := mem_map.1 (h.known c hsome)
  refine mem_map.2 ⟨r, mem_filter.2 ⟨hr, ?_⟩, rfl⟩
  simp only [decide_eq_true_eq]
  rintro ⟨hlive, hwaiting⟩
  rcases hsome with hsome | hsome
  · exact hsome hlive
  · exact hsome hwaiting

theorem expiredCount_le (cfg : Config) (now : ℤ) (k : Bucket) :
    expiredCount cfg now k ≤ k.idle.length :=
  (takeWhile_sublist _).length_le

theorem expireRoutes_spec (cfg : Config) (now : ℤ) (rs : List (κ × ℕ)) :
    ∀ (p : Pool κ ι) (retired : ℕ), Exact p → (∀ r ∈ rs, r.2 ∈ p.known) →
      Exact (expireRoutes cfg now rs (p, retired)).1 ∧
        Shrinks p (expireRoutes cfg now rs (p, retired)).1 := by
  induction rs with
  | nil => exact fun p _ h _ => ⟨h, .refl p⟩
  | cons r rest ih =>
    intro p retired h hknown
    have hr := h.detach (hknown r mem_cons_self) (expiredCount_le cfg now (p.buckets r.2))
    have hshrinks := Shrinks.detach p r.2 (expiredCount cfg now (p.buckets r.2)) _
      (Nat.sub_le p.idle (expiredCount cfg now (p.buckets r.2)))
    obtain ⟨hexact, hrest⟩ := ih _ (retired + expiredCount cfg now (p.buckets r.2)) hr
      (forall_mem_cons.1 hknown).2
    exact ⟨hexact, hshrinks.trans hrest⟩

theorem expire_spec (cfg : Config) (now : ℤ) (h : Exact p) :
    Exact (expire cfg now p).1 ∧ Shrinks p (expire cfg now p).1 := by
  obtain ⟨hexact, hshrinks⟩ := expireRoutes_spec cfg now p.routes p 0 h
    fun r hr => mem_map_of_mem hr
  exact ⟨hexact.pruneEmpty, hshrinks.trans (.pruneEmpty _)⟩

theorem retireOne_spec (h : Exact p) : Exact (retireOne p).1 ∧ Shrinks p (retireOne p).1 := by
  rw [retireOne]
  split
  · next r hr =>
    have hmem : r.2 ∈ p.known := mem_map_of_mem (mem_of_find?_eq_some hr)
    have hsome : (p.buckets r.2).idle ≠ [] := by simpa using find?_some hr
    exact ⟨h.detach hmem (length_pos_iff.2 hsome), .detach p r.2 1 _ (Nat.sub_le _ _)⟩
  · exact ⟨h, .refl p⟩

theorem evict_spec (h : Exact p) : Exact (evict p).1 ∧ Shrinks p (evict p).1 := by
  rw [evict]
  split
  · next r hr =>
    have hmem : r.2 ∈ p.known := mem_map_of_mem (mem_of_find?_eq_some hr)
    exact ⟨h.detach hmem le_rfl, .detach p r.2 _ _ (Nat.sub_le _ _)⟩
  · exact ⟨h, .refl p⟩

/-! ### Permits are made -/

/-- The limits allow that a request for the route is served. -/
def Servable (limits : Limits) (p : Pool κ ι) (b : ℕ) : Prop :=
  (p.buckets b).idle ≠ [] ∨
    (p.buckets b).live < limits.maxLivePerRoute ∧ p.dialing < limits.maxDialsTotal ∧
      p.live < limits.maxLiveTotal

/-- **What `available` answers**: it is right about the pool that it leaves, and when it says yes it
has changed nothing. -/
theorem available_spec (limits : Limits) (b : ℕ) (h : Exact p) :
    Exact (available limits b p).2.1 ∧ Shrinks p (available limits b p).2.1 ∧
      ((available limits b p).1 = true → (available limits b p).2.1 = p ∧ Servable limits p b) ∧
      ((available limits b p).1 = false → ¬ Servable limits (available limits b p).2.1 b) := by
  rw [available]
  split_ifs with hidle hroom hfull
  · exact ⟨h, .refl p, fun _ => ⟨rfl, .inl hidle⟩, nofun⟩
  · refine ⟨h, .refl p, nofun, fun _ hserve => ?_⟩
    rcases hserve with hserve | ⟨hlive, hdialing, -⟩
    · exact hidle hserve
    · change (p.buckets b).live < _ at hlive
      change p.dialing < _ at hdialing
      omega
  · obtain ⟨hexact, hshrinks⟩ := retireOne_spec h
    have hlive := hshrinks.live
    refine ⟨hexact, hshrinks, fun htrue => ?_, fun _ hserve => ?_⟩
    · have := of_decide_eq_true htrue
      omega
    · rcases hserve with hserve | ⟨-, -, hserve⟩
      · have hsuffix := (hshrinks.bucket b).2.2
        rw [not_not.1 hidle, suffix_nil] at hsuffix
        exact hserve hsuffix
      · change (retireOne p).1.live < _ at hserve
        omega
  · refine ⟨h, .refl p, fun htrue => ⟨rfl, .inr ?_⟩, fun hfalse hserve => ?_⟩
    · have := of_decide_eq_true htrue
      exact ⟨by omega, by omega, this⟩
    · have := of_decide_eq_false hfalse
      change ¬ p.live < _ at this
      omega

theorem forall_bucket {P : Bucket → Prop} (hk : P k) (h : ∀ c, P (p.buckets c)) :
    ∀ c, P (update p.buckets b k c) := by
  intro c
  by_cases hc : c = b
  · rw [hc, update_self]
    exact hk
  · rw [update_of_ne hc]
    exact h c

/-- One bucket changes, and keeps to its limits. -/
theorem Within.update (h : Within limits p) (hbuckets : q.buckets = update p.buckets b k)
    (hroutes : q.routes = p.routes) (hroute : k.live ≤ limits.maxLivePerRoute)
    (hidles : k.idle.length ≤ limits.maxIdlePerRoute) (hlive : q.live ≤ limits.maxLiveTotal)
    (hdialing : q.dialing ≤ limits.maxDialsTotal) (hidle : q.idle ≤ limits.maxIdleTotal)
    (hwaiters : q.waiters.length ≤ limits.maxWaitersTotal) :
    Within limits q where
  live := hlive
  routeLive := hbuckets ▸ forall_bucket (P := fun k => k.live ≤ limits.maxLivePerRoute) hroute
    h.routeLive
  dialing := hdialing
  idle := hidle
  routeIdle := hbuckets ▸ forall_bucket (P := fun k => k.idle.length ≤ limits.maxIdlePerRoute)
    hidles h.routeIdle
  waiters := hwaiters
  routes := hroutes ▸ h.routes

/-- A permit is made, for a dial or with an idle connection. -/
theorem reserve_sound {place : Place ι} (hsound : Sound limits p) (hknown : b ∈ p.known)
    (hserve : Servable limits p b) : Sound limits (reserve b place p) := by
  obtain ⟨h, hw⟩ := hsound
  have hroute := h.route b
  have hidle := h.idle
  rw [reserve]
  split_ifs with hemp
  · -- a dial
    obtain ⟨hlive, hdialing, htot⟩ : _ ∧ _ ∧ _ := hserve.resolve_left fun hsome => hsome hemp
    obtain ⟨hperm, hout⟩ := permitsOf_append [⟨b, true, place⟩] (b := b)
      (q := { p.modify b fun k => { k with live := k.live + 1 } with
        live := p.live + 1
        dialing := p.dialing + 1
        permits := ⟨b, true, place⟩ :: p.permits }) (by simp) rfl
    rw [length_singleton] at hout
    constructor
    · refine h.update rfl rfl rfl hknown hperm ?_ ?_ rfl ?_ (h.waiting b) fun _ _ => rfl
      · change p.live + 1 + _ = p.live + ((p.buckets b).live + 1)
        omega
      · change (p.buckets b).live + 1 = _ + (p.buckets b).idle.length
        omega
      · rw [countP_cons_of_pos (by simp), h.dialing]
    · exact hw.update rfl rfl hlive (hw.routeIdle b) htot hdialing hw.idle hw.waiters
  · -- an idle connection
    obtain ⟨hperm, hout⟩ := permitsOf_append [⟨b, false, place⟩] (b := b)
      (q := { p.modify b fun k => { k with idle := k.idle.tail } with
        idle := p.idle - 1
        permits := ⟨b, false, place⟩ :: p.permits }) (by simp) rfl
    rw [length_singleton] at hout
    have hpos : 0 < (p.buckets b).idle.length := length_pos_iff.2 hemp
    have htot := Pool.idle_le_idleTotal hknown
    constructor
    · refine h.update rfl rfl rfl hknown hperm rfl ?_ ?_ ?_ (h.waiting b) fun _ _ => rfl
      · change (p.buckets b).live = _ + (p.buckets b).idle.tail.length
        rw [length_tail]
        omega
      · change p.idle - 1 + _ = p.idle + (p.buckets b).idle.tail.length
        rw [length_tail]
        omega
      · change p.dialing = _
        rw [countP_cons_of_neg (by simp), h.dialing]
    · refine hw.update rfl rfl (hw.routeLive b) ?_ hw.live hw.dialing
        ((Nat.sub_le _ _).trans hw.idle) hw.waiters
      rw [length_tail]
      exact (Nat.sub_le _ _).trans (hw.routeIdle b)

/-! ### The queue -/

variable {w : Waiter ι} {rest : List (Waiter ι)}

theorem dequeue_sound (h : Sound limits p) (hperm : p.waiters.Perm (w :: rest)) :
    w.route ∈ p.known ∧ Sound limits ({ p with waiters := rest }.modify w.route fun k =>
      { k with waiting := k.waiting - 1 }) := by
  have hcnt : p.queued w.route = rest.countP (·.route = w.route) + 1 := by
    rw [Pool.queued, hperm.countP_eq, countP_cons_of_pos (by simp)]
  have hwaiting := h.accounts.waiting w.route
  have hknown : w.route ∈ p.known := h.accounts.known _ (.inr (by omega))
  refine ⟨hknown, ?_, ?_⟩
  · refine h.accounts.update rfl rfl rfl hknown ⟨rfl, fun _ _ => rfl⟩ rfl
      (h.accounts.route w.route) rfl h.accounts.dialing ?_ ?_
    · change (p.buckets w.route).waiting - 1 = rest.countP (·.route = w.route)
      omega
    · intro c hc
      rw [Pool.queued, Pool.queued, hperm.countP_eq,
        countP_cons_of_neg (by simpa using hc.symm)]
      rfl
  · have hlen := hperm.length_eq
    have hwaiters := h.bounds.waiters
    rw [length_cons] at hlen
    refine h.bounds.update rfl rfl (h.bounds.routeLive w.route) (h.bounds.routeIdle w.route)
      h.bounds.live h.bounds.dialing h.bounds.idle ?_
    change rest.length ≤ _
    omega

/-- The queue does not bear on whether a route can be served. -/
theorem servable_dequeue (hserve : Servable limits p b) :
    Servable limits ({ p with waiters := rest }.modify w.route fun k =>
      { k with waiting := k.waiting - 1 }) b := by
  have hbucket : ∀ P : Bucket → Prop, (∀ k : Bucket, P { k with waiting := k.waiting - 1 } ↔ P k) →
      P (p.buckets b) → P (({ p with waiters := rest }.modify w.route fun k =>
        { k with waiting := k.waiting - 1 }).buckets b) := by
    intro P hP hb
    change P (update p.buckets w.route _ b)
    by_cases hbw : b = w.route
    · rw [← hbw, update_self]
      exact (hP _).2 hb
    · rw [update_of_ne hbw]
      exact hb
  rcases hserve with hidle | ⟨hlive, hrest⟩
  · exact .inl (hbucket (fun k => k.idle ≠ []) (fun _ => Iff.rfl) hidle)
  · exact .inr ⟨hbucket (fun k => k.live < limits.maxLivePerRoute) (fun _ => Iff.rfl) hlive, hrest⟩

theorem grantTo_sound (h : Sound limits p) (hwaiters : p.waiters = w :: rest)
    (hserve : Servable limits p w.route) : Sound limits (grantTo w rest p) := by
  obtain ⟨hknown, hsound⟩ := dequeue_sound h (.of_eq hwaiters)
  exact reserve_sound hsound hknown (servable_dequeue hserve)

theorem reserve_waiters (b : ℕ) (place : Place ι) (p : Pool κ ι) :
    (reserve b place p).waiters = p.waiters := by
  rw [reserve]
  split_ifs <;> rfl

theorem dispatchLoop_sound (ws : List (Waiter ι)) :
    ∀ p : Pool κ ι, Sound limits p → p.waiters = ws → Sound limits (dispatchLoop limits ws p).1 := by
  induction ws with
  | nil => exact fun p h _ => h
  | cons w rest ih =>
    intro p h hwaiters
    obtain ⟨hexact, hshrinks, htrue, -⟩ := available_spec limits w.route h.accounts
    rw [dispatchLoop]
    split_ifs with havailable
    · obtain ⟨hsame, hserve⟩ := htrue havailable
      rw [hsame]
      exact ih _ (grantTo_sound h hwaiters hserve) (reserve_waiters _ _ _)
    · exact h.shrink ⟨hexact, hshrinks⟩

/-- **`dispatch` keeps the accounts.** -/
theorem dispatch_sound (cfg : Config) (now : ℤ) (h : Sound cfg.limits p) :
    Sound cfg.limits (dispatch cfg now p).1 := by
  have hexpire := h.shrink (expire_spec cfg now h.accounts)
  have hloop := dispatchLoop_sound _ _ hexpire rfl
  exact hloop.shrink ⟨hloop.accounts.pruneEmpty, .pruneEmpty _⟩

/-! ### What is done with a permit -/

section Permits

variable [DecidableEq ι] {x : Permit ι}

theorem giveBack_sound (h : Sound limits p) (hx : x ∈ p.permits) :
    Sound limits (p.giveBack x) := by
  obtain ⟨hperm, hout, hdialing⟩ := permitsOf_erase (q := p.giveBack x) hx rfl
  obtain ⟨hknown, hpos⟩ := h.accounts.known_of_mem hx
  have hroute := h.accounts.route x.route
  have hlive := h.accounts.live
  have hlen := length_pos_of_mem hx
  constructor
  · refine h.accounts.update rfl rfl rfl hknown hperm ?_ ?_ rfl ?_ (h.accounts.waiting x.route)
      fun _ _ => rfl
    · change p.live - 1 + _ = p.live + ((p.buckets x.route).live - 1)
      omega
    · change (p.buckets x.route).live - 1 = _ + (p.buckets x.route).idle.length
      omega
    · have hold := h.accounts.dialing
      change (if x.dialing then p.dialing - 1 else p.dialing) = _
      cases hx' : x.dialing <;> rw [hx'] at hdialing
      · rw [if_neg (by decide)]
        simp only [Bool.toNat_false] at hdialing
        omega
      · rw [if_pos rfl]
        simp only [Bool.toNat_true] at hdialing
        omega
  · refine h.bounds.update rfl rfl ((Nat.sub_le _ _).trans (h.bounds.routeLive x.route))
      (h.bounds.routeIdle x.route) ((Nat.sub_le _ _).trans h.bounds.live) ?_ h.bounds.idle
      h.bounds.waiters
    change (if x.dialing then p.dialing - 1 else p.dialing) ≤ _
    have := h.bounds.dialing
    split_ifs <;> omega

theorem keep_sound (h : Sound limits p) (hx : x ∈ p.permits)
    (hdialing : x.dialing = false) (lastUse : ℤ)
    (hroom : (p.buckets x.route).idle.length < limits.maxIdlePerRoute)
    (htot : p.idle < limits.maxIdleTotal) : Sound limits (p.keep x lastUse) := by
  obtain ⟨hperm, hout, hdials⟩ := permitsOf_erase (q := p.keep x lastUse) hx rfl
  obtain ⟨hknown, hpos⟩ := h.accounts.known_of_mem hx
  have hroute := h.accounts.route x.route
  constructor
  · refine h.accounts.update rfl rfl rfl hknown hperm rfl ?_ ?_ ?_ (h.accounts.waiting x.route)
      fun _ _ => rfl
    · change (p.buckets x.route).live = _ + ((p.buckets x.route).idle ++ [lastUse]).length
      rw [length_append, length_singleton]
      omega
    · change p.idle + 1 + _ = p.idle + ((p.buckets x.route).idle ++ [lastUse]).length
      rw [length_append, length_singleton]
      omega
    · have hold := h.accounts.dialing
      rw [hdialing] at hdials
      change p.dialing = _
      simp only [Bool.toNat_false] at hdials
      omega
  · refine h.bounds.update rfl rfl (h.bounds.routeLive x.route) ?_ h.bounds.live h.bounds.dialing
      htot h.bounds.waiters
    rw [length_append]
    exact hroom

theorem replace_sound (h : Sound limits p) {x y : Permit ι} (hx : x ∈ p.permits)
    (hroute : y.route = x.route) {dialing : ℕ} (hle : dialing ≤ p.dialing)
    (hdialing : dialing + x.dialing.toNat = p.dialing + y.dialing.toNat) :
    Sound limits { p.replace x y with dialing := dialing } := by
  have hperm := perm_cons_erase hx
  have hlen : (y :: p.permits.erase x).length = p.permits.length := hperm.length_eq.symm
  have hout : ∀ c, (y :: p.permits.erase x).countP (·.route = c) = p.out c := by
    intro c
    rw [Pool.out, hperm.countP_eq, countP_cons, countP_cons, hroute]
  have hdials : dialing = (y :: p.permits.erase x).countP (·.dialing) := by
    have hold := h.accounts.dialing
    rw [hperm.countP_eq, countP_cons] at hold
    rw [countP_cons]
    cases hx' : x.dialing <;> cases hy' : y.dialing <;> rw [hx', hy'] at hdialing <;>
      rw [hx'] at hold <;> simp only [Bool.toNat_false, Bool.toNat_true] at hdialing <;>
      simp only [Bool.false_eq_true, if_true, if_false] at hold ⊢ <;> omega
  refine ⟨{ h.accounts with live := ?_, route := ?_, dialing := hdials },
    { h.bounds with dialing := hle.trans h.bounds.dialing }⟩
  · change p.live = (y :: p.permits.erase x).length + p.idleTotal
    rw [hlen]
    exact h.accounts.live
  · intro c
    exact (h.accounts.route c).trans (by rw [← hout c]; rfl)

theorem unlink_sound (h : Sound limits p) (i : ι) : Sound limits (p.unlink i) := by
  rw [Pool.unlink]
  split
  · next w hw => exact (dequeue_sound h (perm_cons_erase (mem_of_find?_eq_some hw))).2
  · exact h

variable {cfg : Config}

theorem reset_sound (now : ℤ) (h : Sound cfg.limits p)
    (hx : x ∈ p.permits) : Sound cfg.limits (reset cfg now x p).1 :=
  dispatch_sound cfg now (giveBack_sound h hx)

theorem dialed_sound (h : Sound limits p) (hx : x ∈ p.permits) (hdialing : x.dialing = true) :
    Sound limits { p.replace x { x with dialing := false } with dialing := p.dialing - 1 } := by
  have hpos : 0 < p.dialing := by
    rw [h.accounts.dialing]
    exact countP_pos_iff.2 ⟨x, hx, hdialing⟩
  refine replace_sound (y := { x with dialing := false }) h hx rfl (Nat.sub_le _ 1) ?_
  rw [hdialing]
  simp only [Bool.toNat_true, Bool.toNat_false]
  omega

theorem dialComplete_sound (now : ℤ) (h : Sound cfg.limits p)
    (hx : x ∈ p.permits) : Sound cfg.limits (dialComplete cfg now x p).1 := by
  rw [dialComplete]
  split_ifs with hdialing
  · exact dispatch_sound cfg now (dialed_sound h hx hdialing)
  · exact h

theorem retain_sound (lastUse now : ℤ) (h : Sound cfg.limits p)
    (hx : x ∈ p.permits) : Sound cfg.limits (retain cfg lastUse now x p).1 := by
  rw [retain]
  split_ifs with hrefused
  · exact h
  · simp only [not_or, Bool.not_eq_true, not_le] at hrefused
    obtain ⟨-, hdialing, hroom, htot⟩ := hrefused
    exact dispatch_sound cfg now (keep_sound h hx hdialing lastUse hroom htot)

section

omit [DecidableEq ι]

/-! ### `clear` -/

/-- Every idle connection of the routes `rs` is retired.  The counter of the pool is corrected at
the end, so the accounts are exact in between for the number of idle connections that there are. -/
theorem detachAll_spec (rs : List (κ × ℕ)) :
    ∀ p : Pool κ ι, Exact { p with idle := p.idleTotal } → (∀ r ∈ rs, r.2 ∈ p.known) →
      Exact { detachAll rs p with idle := (detachAll rs p).idleTotal } ∧
        Shrinks p (detachAll rs p) ∧ (detachAll rs p).routes = p.routes ∧
        ∀ r ∈ rs, ((detachAll rs p).buckets r.2).idle = [] := by
  induction rs with
  | nil => exact fun p h _ => ⟨h, .refl p, rfl, nofun⟩
  | cons r rest ih =>
    intro p h hknown
    have hr := h.detach (n := (p.buckets r.2).idle.length)
      (hknown r mem_cons_self) le_rfl
    have hexact : Exact { p.detach r.2 (p.buckets r.2).idle.length with
        idle := (p.detach r.2 (p.buckets r.2).idle.length).idleTotal } := by
      have hidle : p.idleTotal - _ = _ := hr.idle
      rw [hidle] at hr
      exact hr
    obtain ⟨hrest, hshrinks, hroutes, hemp⟩ := ih _ hexact (forall_mem_cons.1 hknown).2
    have hfst := Shrinks.detach p r.2 (p.buckets r.2).idle.length p.idle le_rfl
    refine ⟨hrest, hfst.trans hshrinks, hroutes, ?_⟩
    intro r' hr'
    rcases mem_cons.1 hr' with rfl | hr'
    · have hsuffix := (hshrinks.bucket r'.2).2.2
      have hnone : ((p.detach r'.2 (p.buckets r'.2).idle.length).buckets r'.2).idle = [] := by
        change (update p.buckets r'.2 _ r'.2).idle = []
        rw [update_self]
        exact drop_length
      rw [hnone, suffix_nil] at hsuffix
      exact hsuffix
    · exact hemp r' hr'

theorem flush_sound (ws : List (Waiter ι)) :
    ∀ p : Pool κ ι, Sound limits p → p.waiters = ws →
      Sound limits (flush ws p) ∧ (flush ws p).waiters = [] := by
  induction ws with
  | nil => exact fun p h hwaiters => ⟨h, hwaiters⟩
  | cons w rest ih =>
    intro p h hwaiters
    exact ih _ (dequeue_sound h (by rw [hwaiters])).2 rfl

/-- `clear` up to the queue. -/
theorem cleared_spec (closing : Bool) (h : Exact p) :
    Exact (pruneEmpty { detachAll p.routes p with idle := 0, closing := closing }) ∧
      Shrinks { p with closing := closing }
        (pruneEmpty { detachAll p.routes p with idle := 0, closing := closing }) := by
  obtain ⟨hexact, hshrinks, hroutes, hemp⟩ := detachAll_spec p.routes p (by rw [← h.idle]; exact h)
    fun r hr => mem_map_of_mem hr
  have htot : (detachAll p.routes p).idleTotal = 0 := by
    refine sum_eq_zero fun n hn => ?_
    obtain ⟨b, hb, rfl⟩ := mem_map.1 hn
    rw [Pool.known, hroutes] at hb
    obtain ⟨r, hr, rfl⟩ := mem_map.1 hb
    rw [hemp r hr]
    rfl
  rw [htot] at hexact
  have hclosing : Exact { detachAll p.routes p with idle := 0, closing := closing } :=
    { hexact with }
  have hsame : Shrinks { p with closing := closing }
      { detachAll p.routes p with idle := 0, closing := closing } :=
    { hshrinks with closing := rfl, idle := Nat.zero_le _ }
  exact ⟨hclosing.pruneEmpty, hsame.trans (.pruneEmpty _)⟩

theorem clear_sound (now : ℤ) (close : Bool) (h : Sound cfg.limits p) :
    Sound cfg.limits (clear cfg now close p).1 := by
  have hclear : Sound cfg.limits (pruneEmpty { detachAll p.routes p with
      idle := 0, closing := p.closing || close }) := by
    refine Sound.shrink ?_
      (cleared_spec (p.closing || close) h.accounts)
    exact ⟨{ h.accounts with }, { h.bounds with }⟩
  rw [clear]
  split_ifs
  · obtain ⟨hflush, -⟩ := flush_sound _ _ hclear rfl
    exact hflush.shrink ⟨hflush.accounts.pruneEmpty, .pruneEmpty _⟩
  · exact dispatch_sound cfg now hclear

/-! ### `acquire` -/

theorem enqueue_sound (h : Sound limits p) (scheduled : Bool) (i : ι) (hknown : b ∈ p.known) :
    Sound limits (enqueue limits scheduled i b p).2 := by
  have hpruned := h.shrink ⟨h.accounts.pruneEmpty, .pruneEmpty p⟩
  rw [enqueue]
  split_ifs with hrefused
  · exact hpruned
  · constructor
    · refine h.accounts.update rfl rfl rfl hknown ⟨rfl, fun _ _ => rfl⟩ rfl (h.accounts.route b) rfl
        h.accounts.dialing ?_ ?_
      · change (p.buckets b).waiting + 1 = (p.waiters ++ [(⟨i, b⟩ : Waiter ι)]).countP (·.route = b)
        rw [h.accounts.waiting b]
        simp [Pool.queued]
      · intro c hc
        simp [Pool.queued, hc.symm]
    · refine h.bounds.update rfl rfl (h.bounds.routeLive b) (h.bounds.routeIdle b) h.bounds.live
        h.bounds.dialing h.bounds.idle ?_
      rw [length_append, length_singleton]
      omega
  · exact hpruned

theorem retireOne_routes (p : Pool κ ι) : (retireOne p).1.routes = p.routes := by
  rw [retireOne]
  split <;> rfl

theorem available_routes (b : ℕ) (p : Pool κ ι) :
    (available limits b p).2.1.routes = p.routes := by
  rw [available]
  split_ifs
  · rfl
  · rfl
  · exact retireOne_routes p
  · rfl

theorem admission_sound (h : Sound limits p) (scheduled : Bool) (i : ι) (retired : ℕ)
    (hknown : b ∈ p.known) : Sound limits (admission limits scheduled i b retired p).2 := by
  obtain ⟨hexact, hshrinks, htrue, -⟩ := available_spec limits b h.accounts
  have hpool := h.shrink ⟨hexact, hshrinks⟩
  rw [admission]
  dsimp only
  split_ifs with hemp havailable hretired
  · obtain ⟨hsame, hserve⟩ := htrue havailable
    rw [hsame]
    exact reserve_sound h hknown hserve
  · exact hpool
  · refine enqueue_sound hpool scheduled i ?_
    rw [Pool.known, available_routes]
    exact hknown
  · exact enqueue_sound h scheduled i hknown

variable [DecidableEq κ]

/-- A route that is not in the map receives a bucket. -/
theorem emplace_sound (h : Sound limits p) {key : κ} {order : List (κ × ℕ)}
    (hnew : p.routes.find? (·.1 = key) = none) (hroom : p.routes.length < limits.maxRouteBuckets)
    (hperm : order.Perm ((key, p.nextBucket) :: p.routes)) :
    Sound limits (emplace order p) ∧ p.nextBucket ∈ (emplace order p).known := by
  have hids : (emplace order p).known.Perm (p.nextBucket :: p.known) := hperm.map Prod.snd
  have hfresh : p.nextBucket ∉ p.known := fun hmem => lt_irrefl _ (h.accounts.numbered _ hmem)
  -- nothing refers to the bucket yet
  have hzero : (p.buckets p.nextBucket).live = 0 ∧ (p.buckets p.nextBucket).waiting = 0 := by
    by_contra hsome
    refine hfresh (h.accounts.known _ ?_)
    omega
  have hout : p.out p.nextBucket = 0 := by
    have := h.accounts.route p.nextBucket
    omega
  have hqueued : p.queued p.nextBucket = 0 := by
    have := h.accounts.waiting p.nextBucket
    omega
  have hself : (emplace order p).buckets p.nextBucket = .empty := update_self _ _ _
  have hother : ∀ c, c ≠ p.nextBucket → (emplace order p).buckets c = p.buckets c :=
    fun c hc => update_of_ne hc _ _
  have htot : (emplace order p).idleTotal = p.idleTotal := by
    rw [Pool.idleTotal, (hids.map _).sum_eq, map_cons, hself]
    have hrest : p.known.map (fun b => ((emplace order p).buckets b).idle.length) =
        p.known.map fun b => (p.buckets b).idle.length :=
      map_congr_left fun c hc => by rw [hother c fun heq => hfresh (heq ▸ hc)]
    rw [hrest]
    exact Nat.zero_add _
  have hmem : p.nextBucket ∈ (emplace order p).known := hids.mem_iff.2 mem_cons_self
  refine ⟨⟨⟨?_, ?_, ?_, h.accounts.dialing, ?_, ?_, ?_, ?_, ?_⟩, ⟨h.bounds.live, ?_, h.bounds.dialing,
    h.bounds.idle, ?_, h.bounds.waiters, ?_⟩⟩, hmem⟩
  · rw [htot]
    exact h.accounts.live
  · intro c
    by_cases hc : c = p.nextBucket
    · rw [hc, hself]
      exact hout.symm
    · rw [hother c hc]
      exact h.accounts.route c
  · rw [htot]
    exact h.accounts.idle
  · intro c
    by_cases hc : c = p.nextBucket
    · rw [hc, hself]
      exact hqueued.symm
    · rw [hother c hc]
      exact h.accounts.waiting c
  · intro c hsome
    by_cases hc : c = p.nextBucket
    · rw [hc]
      exact hmem
    · rw [hother c hc] at hsome
      exact hids.mem_iff.2 (mem_cons_of_mem _ (h.accounts.known c hsome))
  · exact hids.nodup_iff.2 (nodup_cons.2 ⟨hfresh, h.accounts.nodup⟩)
  · refine (hperm.map Prod.fst).nodup_iff.2 (nodup_cons.2 ⟨?_, h.accounts.keys⟩)
    intro hkey
    obtain ⟨r, hr, hrkey⟩ := mem_map.1 hkey
    exact find?_eq_none.1 hnew r hr (by simpa using hrkey)
  · intro c hc
    rcases mem_cons.1 (hids.mem_iff.1 hc) with rfl | hc
    · exact Nat.lt_succ_self _
    · exact (h.accounts.numbered c hc).trans (Nat.lt_succ_self _)
  · exact forall_bucket (P := fun k => k.live ≤ limits.maxLivePerRoute) (Nat.zero_le _)
      h.bounds.routeLive
  · exact forall_bucket (P := fun k => k.idle.length ≤ limits.maxIdlePerRoute) (Nat.zero_le _)
      h.bounds.routeIdle
  · change order.length ≤ _
    rw [hperm.length_eq]
    exact hroom

/-- **A turn of `acquire` keeps the accounts.** -/
theorem acquire_sound {now : ℤ} {call : Call κ} {order : List (κ × ℕ)} {i : ι}
    (h : Sound cfg.limits p) {c : Turn × Pool κ ι}
    (hturn : acquire cfg now call order i p = some c) : Sound cfg.limits c.2 := by
  have hexpire := h.shrink (expire_spec cfg now h.accounts)
  rw [acquire] at hturn
  by_cases hclosing : p.closing
  · rw [if_pos hclosing] at hturn
    cases hturn
    exact h
  · rw [if_neg hclosing] at hturn
    dsimp only at hturn
    split at hturn
    · next r hr =>
      cases hturn
      exact admission_sound hexpire _ i _ (mem_map_of_mem (mem_of_find?_eq_some hr))
    · next hnew =>
      have hevict := hexpire.shrink (evict_spec hexpire.accounts)
      split_ifs at hturn with hzero hfull hretired hperm <;> cases hturn
      · exact hexpire
      · exact hevict
      · exact hevict
      · obtain ⟨hemplace, hmem⟩ := emplace_sound hexpire hnew (not_le.1 hfull) hperm
        exact admission_sound hemplace _ i _ hmem

end

/-! ### Every reachable state -/

variable [DecidableEq κ] {cfg : Config} {calls : ι → Call κ} {s s' : State κ ι}

omit [DecidableEq κ] in
theorem at?_mem {place : Place ι} (h : p.at? place = some x) :
    x ∈ p.permits ∧ x.place = place :=
  ⟨mem_of_find?_eq_some h, by simpa using find?_some h⟩

omit [DecidableEq κ] in
theorem move_sound (h : Sound limits p) (hx : x ∈ p.permits) (place : Place ι) :
    Sound limits (p.replace x { x with place := place }) :=
  replace_sound (y := { x with place := place }) h hx rfl le_rfl rfl

omit [DecidableEq κ] in
theorem depart_sound (i : ι) (now : ℤ) (r : Result) (h : Sound cfg.limits s.pool) :
    Sound cfg.limits (depart cfg s i now r).pool := by
  have hunlink := unlink_sound h i
  rw [depart]
  split
  · next x hx => exact dispatch_sound cfg now (move_sound hunlink (at?_mem hx).1 _)
  · exact dispatch_sound cfg now hunlink

variable (cfg calls s) in
/-- **What a step can do.** -/
inductive Stepped : State κ ι → Prop
  | start (i : ι) {pc : Pc} : (s.ops i).pc = .idle → (pc = .loop ∨ ∃ r, pc = .done r) →
      Stepped (s.goto i pc)
  | acquire (i : ι) {now : ℤ} {order : List (κ × ℕ)} {s' : State κ ι} : (s.ops i).pc = .loop →
      acquireStep cfg calls s i now order = some s' → Stepped s'
  | notify (i : ι) : (s.ops i).notified = true → Stepped (s.modify i fun o => { o with ready := true })
  | wake (i : ι) (outcome : Outcome) :
      (s.ops i).pc = .waiting ∧ (outcome = .completed → (s.ops i).ready = true) →
      Stepped (s.modify i fun o => { o with outcome := some outcome, pc := outcome.next })
  | refused (i : ι) {e : Error} : (s.ops i).pc = .collect → (s.ops i).error = some e →
      Stepped (s.goto i (.leave (.failed e)))
  | taken (i : ι) {x : Permit ι} : (s.ops i).pc = .collect → (s.ops i).error = none →
      s.pool.at? (.selected i) = some x →
      Stepped ({ s with pool := s.pool.replace x { x with place := .leased i } }.goto i
        (.leave .granted))
  | depart (i : ι) (now : ℤ) {r : Result} : (s.ops i).pc = .leave r → Stepped (depart cfg s i now r)
  | recover (i : ι) (now : ℤ) {r : Result} {x : Permit ι} : (s.ops i).pc = .recover r →
      s.pool.at? (.recovered i) = some x → Stepped ((s.settle (reset cfg now x s.pool)).goto i (.done r))
  | retire (i : ι) {r : Result} {x : Permit ι} : (s.ops i).pc = .recover r →
      s.pool.at? (.recovered i) = some x →
      Stepped ({ s with pool := s.pool.replace x { x with place := .retired } }.goto i (.done r))
  | dialComplete {x : Permit ι} (now : ℤ) : x ∈ s.pool.permits →
      Stepped (s.settle (dialComplete cfg now x s.pool))
  | retain {x : Permit ι} (lastUse now : ℤ) : x ∈ s.pool.permits → x.place.isLeased = true →
      Stepped (s.settle (retain cfg lastUse now x s.pool))
  | reset {x : Permit ι} (now : ℤ) : x ∈ s.pool.permits →
      (x.place.isLeased = true ∨ x.place = .retired) → Stepped (s.settle (reset cfg now x s.pool))
  | clear (close : Bool) (now : ℤ) {s' : State κ ι} :
      step cfg calls s (.clear close now) = some s' → Stepped s'

theorem stepped {l : Label κ ι} (h : step cfg calls s l = some s') : Stepped cfg calls s s' := by
  cases l with
  | start i early =>
    simp only [step] at h
    split_ifs at h with hpc
    split at h <;> cases h
    · exact .start i hpc (.inl rfl)
    · exact .start i hpc (.inr ⟨_, rfl⟩)
    · exact .start i hpc (.inr ⟨_, rfl⟩)
  | depart i now =>
    rw [step] at h
    split at h <;> cases h
    exact .depart i now ‹_›
  | recover i now =>
    rw [step] at h
    split at h <;> cases h
    exact .recover i now ‹_› ‹_›
  | retire i =>
    rw [step] at h
    split at h <;> cases h
    exact .retire i ‹_› ‹_›
  | clear close now => exact .clear close now h
  | acquire i now order =>
    rw [step] at h
    split_ifs at h with hpc
    exact .acquire i hpc h
  | collect i =>
    rw [step] at h
    split_ifs at h with hpc
    rw [collect] at h
    split at h
    · cases h
      exact .refused i hpc ‹_›
    · obtain ⟨x, hx, rfl⟩ := Option.map_eq_some_iff.1 h
      exact .taken i hpc ‹_› hx
  | notify i | wake i outcome | dialComplete x now | retain x lastUse now | reset x now =>
    rw [step] at h
    split_ifs at h with hx
    cases h
    first
    | exact .notify i hx
    | exact .wake i outcome hx
    | exact .dialComplete now hx.1
    | exact .retain lastUse now hx.1 hx.2
    | exact .reset now hx.1 hx.2

/-- **Every step keeps the accounts.** -/
theorem step_sound (h : Sound cfg.limits s.pool) {l : Label κ ι}
    (hstep : step cfg calls s l = some s') : Sound cfg.limits s'.pool := by
  cases stepped hstep with
  | start | notify | wake | refused => exact h
  | acquire i _ hturn =>
    obtain ⟨⟨turn, q⟩, hc, rfl⟩ := Option.map_eq_some_iff.1 hturn
    have hsound := acquire_sound h hc
    cases turn <;> exact hsound
  | depart i now => exact depart_sound i now _ h
  | recover _ now _ hx => exact reset_sound now h (at?_mem hx).1
  | taken _ _ _ hx | retire _ _ hx => exact move_sound h (at?_mem hx).1 _
  | dialComplete now hx => exact dialComplete_sound now h hx
  | retain lastUse now hx => exact retain_sound lastUse now h hx
  | reset now hx => exact reset_sound now h hx
  | clear close now hclear =>
    cases hclear
    exact clear_sound now close h

omit [DecidableEq ι] [DecidableEq κ] in
theorem initial_sound : Sound limits (Pool.initial : Pool κ ι) :=
  ⟨⟨rfl, fun _ => rfl, rfl, rfl, fun _ => rfl, nofun, nodup_nil, nodup_nil, nofun⟩,
    ⟨Nat.zero_le _, fun _ => Nat.zero_le _, Nat.zero_le _, Nat.zero_le _, fun _ => Nat.zero_le _,
      Nat.zero_le _, Nat.zero_le _⟩⟩

theorem sound_of_reachable (h : (system cfg calls).Reachable s) : Sound cfg.limits s.pool :=
  h.invariant (I := fun s => Sound cfg.limits s.pool) (fun _ hs => hs ▸ initial_sound)
    fun _ _ _ hsound _ hl => step_sound hsound hl

/-- **The accounts of the pool are exact.**  In every reachable state the live connections are the
permits that are out and the idle connections, for all routes together and for each; the idle
connections are those in the lists of the routes; the dials are the permits that are still dialing;
each route counts the waiters that are queued for it; whatever is out or queued belongs to a route
in the map; and no limit is exceeded. -/
theorem exact_accounting (h : (system cfg calls).Reachable s) :
    s.pool.live = s.pool.permits.length + s.pool.idle ∧
      (∀ b, (s.pool.buckets b).live =
        s.pool.permits.countP (·.route = b) + (s.pool.buckets b).idle.length) ∧
      s.pool.idle = (s.pool.routes.map fun r => (s.pool.buckets r.2).idle.length).sum ∧
      s.pool.dialing = s.pool.permits.countP (·.dialing) ∧
      (∀ b, (s.pool.buckets b).waiting = s.pool.waiters.countP (·.route = b)) ∧
      (∀ x ∈ s.pool.permits, x.route ∈ s.pool.routes.map Prod.snd) ∧
      (∀ w ∈ s.pool.waiters, w.route ∈ s.pool.routes.map Prod.snd) ∧
      s.pool.live ≤ cfg.limits.maxLiveTotal ∧
      (∀ b, (s.pool.buckets b).live ≤ cfg.limits.maxLivePerRoute) ∧
      s.pool.dialing ≤ cfg.limits.maxDialsTotal ∧
      s.pool.idle ≤ cfg.limits.maxIdleTotal ∧
      (∀ b, (s.pool.buckets b).idle.length ≤ cfg.limits.maxIdlePerRoute) ∧
      s.pool.waiters.length ≤ cfg.limits.maxWaitersTotal ∧
      s.pool.routes.length ≤ cfg.limits.maxRouteBuckets := by
  obtain ⟨haccounts, hbounds⟩ := sound_of_reachable h
  have hidle : s.pool.idle = (s.pool.routes.map fun r => (s.pool.buckets r.2).idle.length).sum := by
    rw [haccounts.idle, Pool.idleTotal, Pool.known, map_map]
    rfl
  refine ⟨?_, haccounts.route, hidle, haccounts.dialing, haccounts.waiting,
    fun x hx => (haccounts.known_of_mem hx).1, ?_, hbounds.live, hbounds.routeLive, hbounds.dialing,
    hbounds.idle, hbounds.routeIdle, hbounds.waiters, hbounds.routes⟩
  · rw [haccounts.idle]
    exact haccounts.live
  · intro w hw
    have hpos : 0 < s.pool.queued w.route := countP_pos_iff.2 ⟨w, hw, by simp⟩
    have hwaiting := haccounts.waiting w.route
    exact haccounts.known _ (.inr (by omega))

/-- A pool for one connection to each of two routes. -/
def smallConfig : Config where
  limits := ⟨1, 1, 1, 2, 1, 2, 2⟩
  idleTimeout := 60

/-- Operations `0` and `1` ask for one route, operation `2` for another. -/
def smallCalls : Fin 3 → Call Bool
  | 0 => ⟨false, true⟩
  | 1 => ⟨false, true⟩
  | 2 => ⟨true, true⟩

/-- Operation `0` dials; operations `1` and `2` are queued; the dial completes and the connection is
retained, so that `1` receives it and `2` may dial. -/
def handOverRun : List (Label Bool (Fin 3)) :=
  [.start 0 none, .acquire 0 0 [(false, 0)], .depart 0 0, .start 1 none, .acquire 1 0 [],
    .start 2 none, .acquire 2 0 [(true, 1), (false, 0)], .dialComplete ⟨0, true, .leased 0⟩ 1,
    .retain ⟨0, false, .leased 0⟩ 2 2]

theorem isSome_handOverRun :
    ((system smallConfig smallCalls).run .initial handOverRun).isSome := rfl

/-- The run exists, and the theorem speaks about the state it ends in. -/
theorem exact_accounting_handOver :
    ∃ t, (system smallConfig smallCalls).run .initial handOverRun = some t ∧
      t.pool.permits = [⟨1, true, .selected 2⟩, ⟨0, false, .selected 1⟩] ∧
      t.pool.live = t.pool.permits.length + t.pool.idle :=
  have hsome := (Option.some_get isSome_handOverRun).symm
  ⟨_, hsome, rfl, (exact_accounting (TransitionSystem.reachable_of_run rfl hsome)).1⟩

end Permits

end Elio.BoundedPool
