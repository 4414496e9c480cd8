/-
**`chase_lev_deque`: what the calls return.**

A pushed item is in the deque until a call takes it, in the hands of that call until it returns, and
then it has been returned.  It never goes back, so that no item is returned twice.

Main definitions:

* `Ledger` — where the pushed items are, and in which order they are taken.

Main results:

* `ledger_of_reachable` — the invariant holds in every reachable state;
* `work_neither_lost_nor_duplicated` — **every item is returned at most once, and until then it is
  in the deque or in the hands of one call; items are stolen in the order of the pushes, and a pop
  returns the last one; no deleted buffer is read**.
-/

import Elio.ChaseLevItems

set_option autoImplicit false

namespace Elio.ChaseLevDeque

open Function (update update_self update_of_ne update_eq_self)
open List
open State (hand)
open ChaseLevDeque (step)

variable {ι P : Type*}

/-- The item of a push is in the deque. -/
def State.Live (s : State ι P) (k : ℕ) : Prop := ∃ i, s.top ≤ i ∧ i < s.limit ∧ s.slot i = k

/-- Where the pushed items are, and in which order they are taken. -/
structure Ledger (s : State ι P) : Prop where
  unborn_iff : ∀ k, s.place k = .unborn ↔ s.pushed.length ≤ k
  live_iff : ∀ k, s.place k = .live ↔ s.Live k
  held_iff : ∀ p k, s.place k = .held p ↔ s.hand p = some k
  returned_iff : ∀ k, s.place k = .returned ↔ k ∈ s.returned
  nodup : s.returned.Nodup
  stolen_lt : ∀ k ∈ s.stolen, k < s.pushed.length
  sorted : s.stolen.Pairwise (· < ·)
  stolen_below : ∀ k ∈ s.stolen, ∀ j, s.Live j → k < j
  popped : ∀ k, s.hand none = some k → ∀ j, s.Live j ∨ (∃ i, s.hand (some i) = some j) → j < k

/-! ### Moving an item

The number `n` moves from one place to another: what this does to the numbers at a third place, at
the new place and at the old one. -/

section Move

variable {place : ℕ → Place ι} {n k : ℕ} {a b : Place ι}

theorem update_eq_iff_of_ne (hold : place n ≠ b) (hnew : a ≠ b) :
    update place n a k = b ↔ place k = b := by
  rcases eq_or_ne k n with rfl | hne
  · rw [update_self]
    exact ⟨fun heq => absurd heq hnew, fun heq => absurd heq hold⟩
  · rw [update_of_ne hne]

theorem update_eq_iff_or : update place n a k = a ↔ place k = a ∨ k = n := by
  rcases eq_or_ne k n with rfl | hne
  · rw [update_self]
    exact ⟨fun _ => .inr rfl, fun _ => rfl⟩
  · rw [update_of_ne hne]
    exact ⟨.inl, fun hor => hor.resolve_right hne⟩

theorem update_eq_iff_and (hnew : a ≠ b) :
    update place n a k = b ↔ place k = b ∧ k ≠ n := by
  rcases eq_or_ne k n with rfl | hne
  · rw [update_self]
    exact ⟨fun heq => absurd heq hnew, fun hboth => absurd rfl hboth.2⟩
  · rw [update_of_ne hne]
    exact ⟨fun heq => ⟨heq, hne⟩, fun hboth => hboth.1⟩

end Move

namespace Ledger

variable {s s' : State ι P}

/-- Nothing is pushed, taken or returned. -/
theorem quiet (h : Ledger s) (hpushed : s'.pushed = s.pushed)
    (hplace : s'.place = s.place) (hstolen : s'.stolen = s.stolen)
    (hret : s'.returned = s.returned) (hlive : ∀ k, s'.Live k ↔ s.Live k)
    (hhand : ∀ p, s'.hand p = s.hand p) : Ledger s' where
  unborn_iff := by rw [hpushed, hplace]; exact h.unborn_iff
  live_iff := fun k => by rw [hplace, hlive]; exact h.live_iff k
  held_iff := fun p k => by rw [hplace, hhand]; exact h.held_iff p k
  returned_iff := by rw [hplace, hret]; exact h.returned_iff
  nodup := by rw [hret]; exact h.nodup
  stolen_lt := by rw [hpushed, hstolen]; exact h.stolen_lt
  sorted := by rw [hstolen]; exact h.sorted
  stolen_below := fun k hk j hj => h.stolen_below k (hstolen ▸ hk) j ((hlive j).mp hj)
  popped := by
    intro k hk j hj
    rw [hhand] at hk
    refine h.popped k hk j ?_
    rcases hj with hj | ⟨i, hi⟩
    · exact .inl ((hlive j).mp hj)
    · exact .inr ⟨i, hhand _ ▸ hi⟩

theorem push (h : Ledger s)
    (hpushed : s'.pushed.length = s.pushed.length + 1)
    (hplace : s'.place = update s.place s.pushed.length .live)
    (hstolen : s'.stolen = s.stolen) (hret : s'.returned = s.returned)
    (hlive : ∀ k, s'.Live k ↔ s.Live k ∨ k = s.pushed.length)
    (hhand : ∀ p, s'.hand p = s.hand p) (hown : s.hand none = none) : Ledger s' := by
  -- the new item was nowhere
  have hunborn := (h.unborn_iff s.pushed.length).mpr le_rfl
  refine ⟨fun k => ?_, fun k => ?_, fun p k => ?_, fun k => ?_, ?_, ?_, ?_, ?_, ?_⟩
  · rw [hplace, update_eq_iff_and (by simp), h.unborn_iff]
    omega
  · rw [hplace, update_eq_iff_or, h.live_iff, hlive]
  · rw [hplace, update_eq_iff_of_ne (by simp [hunborn]) (by simp), h.held_iff, hhand]
  · rw [hplace, update_eq_iff_of_ne (by simp [hunborn]) (by simp), h.returned_iff, hret]
  · rw [hret]
    exact h.nodup
  · rw [hstolen, hpushed]
    exact fun k hk => Nat.lt_succ_of_lt (h.stolen_lt k hk)
  · rw [hstolen]
    exact h.sorted
  · rw [hstolen]
    intro k hk j hj
    rcases (hlive j).mp hj with hj | rfl
    · exact h.stolen_below k hk j hj
    · exact h.stolen_lt k hk
  · intro k hk
    rw [hhand, hown] at hk
    cases hk

/-- A party takes an item: what this does to the places. -/
theorem places_of_take [DecidableEq ι] (h : Ledger s) {p : Option ι} {n : ℕ}
    (hn : s.Live n) (hpushed : s'.pushed = s.pushed)
    (hplace : s'.place = update s.place n (.held p)) (hret : s'.returned = s.returned)
    (hlive : ∀ k, s'.Live k ↔ s.Live k ∧ k ≠ n) (hemp : s.hand p = none)
    (hhand : s'.hand = update s.hand p (some n)) :
    (∀ k, s'.place k = .unborn ↔ s'.pushed.length ≤ k) ∧ (∀ k, s'.place k = .live ↔ s'.Live k) ∧
      (∀ q k, s'.place k = .held q ↔ s'.hand q = some k) ∧
      (∀ k, s'.place k = .returned ↔ k ∈ s'.returned) := by
  have hat := (h.live_iff n).mpr hn
  refine ⟨fun k => ?_, fun k => ?_, fun q k => ?_, fun k => ?_⟩
  · rw [hplace, update_eq_iff_of_ne (by simp [hat]) (by simp), h.unborn_iff, hpushed]
  · rw [hplace, update_eq_iff_and (by simp), h.live_iff, hlive]
  · rw [hplace, hhand]
    rcases eq_or_ne q p with rfl | hq
    · rw [update_eq_iff_or, h.held_iff, hemp, update_self]
      simp [eq_comm]
    · rw [update_eq_iff_of_ne (by simp [hat]) (by simpa using hq.symm), h.held_iff,
        update_of_ne hq]
  · rw [hplace, update_eq_iff_of_ne (by simp [hat]) (by simp), h.returned_iff, hret]

theorem pop [DecidableEq ι] (h : Ledger s) {n : ℕ} (hn : s.Live n)
    (hpushed : s'.pushed = s.pushed) (hplace : s'.place = update s.place n (.held none))
    (hstolen : s'.stolen = s.stolen) (hreturned : s'.returned = s.returned)
    (hlive : ∀ k, s'.Live k ↔ s.Live k ∧ k ≠ n) (hlast : ∀ k, s.Live k → k ≤ n)
    (hthieves : ∀ i k, s.hand (some i) = some k → k ∈ s.stolen) (hemp : s.hand none = none)
    (hhand : s'.hand = update s.hand none (some n)) : Ledger s' := by
  obtain ⟨hunborn, hlive', hheld, hret⟩ :=
    h.places_of_take hn hpushed hplace hreturned hlive hemp hhand
  refine ⟨hunborn, hlive', hheld, hret, ?_, ?_, ?_, ?_, ?_⟩
  · rw [hreturned]
    exact h.nodup
  · rw [hstolen, hpushed]
    exact h.stolen_lt
  · rw [hstolen]
    exact h.sorted
  · rw [hstolen]
    exact fun k hk j hj => h.stolen_below k hk j ((hlive j).mp hj).1
  · intro k hk j hj
    rw [hhand] at hk
    cases hk
    rcases hj with hj | ⟨i, hi⟩
    · obtain ⟨hj, hne⟩ := (hlive j).mp hj
      exact lt_of_le_of_ne (hlast j hj) hne
    · -- what a thief has taken was stolen before
      rw [hhand] at hi
      exact h.stolen_below j (hthieves i j hi) n hn

theorem steal [DecidableEq ι] (h : Ledger s) {i : ι} {n : ℕ} (hn : s.Live n)
    (hpushed : s'.pushed = s.pushed)
    (hplace : s'.place = update s.place n (.held (some i)))
    (hstolen : s'.stolen = s.stolen ++ [n]) (hreturned : s'.returned = s.returned)
    (hlive : ∀ k, s'.Live k ↔ s.Live k ∧ k ≠ n) (hfst : ∀ k, s.Live k → n ≤ k)
    (hemp : s.hand (some i) = none)
    (hhand : s'.hand = update s.hand (some i) (some n)) : Ledger s' := by
  obtain ⟨hunborn, hlive', hheld, hret⟩ :=
    h.places_of_take hn hpushed hplace hreturned hlive hemp hhand
  have hborn : n < s.pushed.length := by
    by_contra hle
    have hplace_n := (h.unborn_iff n).mpr (not_lt.mp hle)
    rw [(h.live_iff n).mpr hn] at hplace_n
    cases hplace_n
  refine ⟨hunborn, hlive', hheld, hret, ?_, ?_, ?_, ?_, ?_⟩
  · rw [hreturned]
    exact h.nodup
  · rw [hstolen, hpushed]
    intro k hk
    rcases mem_append.mp hk with hk | hk
    · exact h.stolen_lt k hk
    · rw [mem_singleton.mp hk]
      exact hborn
  · rw [hstolen, pairwise_append]
    refine ⟨h.sorted, pairwise_singleton _ _, fun k hk j hj => ?_⟩
    rw [mem_singleton.mp hj]
    exact h.stolen_below k hk n hn
  · rw [hstolen]
    intro k hk j hj
    obtain ⟨hj, hne⟩ := (hlive j).mp hj
    rcases mem_append.mp hk with hk | hk
    · exact h.stolen_below k hk j hj
    · rw [mem_singleton.mp hk]
      exact lt_of_le_of_ne (hfst j hj) hne.symm
  · intro k hk j hj
    rw [hhand] at hk
    rcases hj with hj | ⟨i', hi'⟩
    · exact h.popped k hk j (.inl ((hlive j).mp hj).1)
    · rw [hhand] at hi'
      rcases eq_or_ne i' i with rfl | hne
      · rw [update_self] at hi'
        cases hi'
        exact h.popped k hk n (.inl hn)
      · rw [update_of_ne (fun heq => hne (Option.some.inj heq))] at hi'
        exact h.popped k hk j (.inr ⟨i', hi'⟩)

theorem give [DecidableEq ι] (h : Ledger s) {p : Option ι} {n : ℕ}
    (hn : s.hand p = some n) (hpushed : s'.pushed = s.pushed)
    (hplace : s'.place = update s.place n .returned) (hstolen : s'.stolen = s.stolen)
    (hret : s'.returned = s.returned ++ [n]) (hlive : ∀ k, s'.Live k ↔ s.Live k)
    (hhand : s'.hand = update s.hand p none) : Ledger s' := by
  have hat := (h.held_iff p n).mpr hn
  have hout : n ∉ s.returned := by
    rw [← h.returned_iff, hat]
    exact nofun
  -- the other parties keep what they have
  have hothers : ∀ q k, s'.hand q = some k → s.hand q = some k := by
    intro q k hq
    rw [hhand] at hq
    rcases eq_or_ne q p with rfl | hne
    · rw [update_self] at hq
      cases hq
    · rwa [update_of_ne hne] at hq
  refine ⟨fun k => ?_, fun k => ?_, fun q k => ?_, fun k => ?_, ?_, ?_, ?_, ?_, ?_⟩
  · rw [hplace, update_eq_iff_of_ne (by simp [hat]) (by simp), h.unborn_iff, hpushed]
  · rw [hplace, update_eq_iff_of_ne (by simp [hat]) (by simp), h.live_iff, hlive]
  · rw [hplace, hhand]
    rcases eq_or_ne q p with rfl | hq
    · rw [update_eq_iff_and (by simp), h.held_iff, hn]
      simp [eq_comm]
    · rw [update_eq_iff_of_ne (by simpa [hat] using hq.symm) (by simp), h.held_iff,
        update_of_ne hq]
  · rw [hplace, update_eq_iff_or, h.returned_iff, hret, mem_append, mem_singleton]
  · rw [hret]
    refine nodup_append.mpr ⟨h.nodup, nodup_singleton n, fun k hk j hj => ?_⟩
    rw [mem_singleton.mp hj]
    exact fun heq => hout (heq ▸ hk)
  · rw [hstolen, hpushed]
    exact h.stolen_lt
  · rw [hstolen]
    exact h.sorted
  · rw [hstolen]
    exact fun k hk j hj => h.stolen_below k hk j ((hlive j).mp hj)
  · intro k hk j hj
    refine h.popped k (hothers _ _ hk) j ?_
    rcases hj with hj | ⟨i, hi⟩
    · exact .inl ((hlive j).mp hj)
    · exact .inr ⟨i, hothers _ _ hi⟩

end Ledger

/-! ### What the steps do -/

variable {s s' : State ι P}

theorem live_congr (htop : s'.top = s.top) (hlim : s'.limit = s.limit)
    (hslot : s'.slot = s.slot) (k : ℕ) : s'.Live k ↔ s.Live k := by
  rw [State.Live, State.Live, htop, hlim, hslot]

theorem hand_of_owner [DecidableEq ι] (hthief : s'.thief = s.thief) :
    s'.hand = update s.hand none (s'.hand none) := by
  funext p
  cases p with
  | none => rw [update_self]
  | some i => rw [update_of_ne (Option.some_ne_none i), hand, hand, hthief]

theorem hand_of_thief [DecidableEq ι] {i : ι} {pc : ThiefPc P} {k : Option ℕ}
    (hown : s'.owner = s.owner) (hthief : s'.thief = update s.thief i pc)
    (hk : s'.hand (some i) = k) : s'.hand = update s.hand (some i) k := by
  funext p
  cases p with
  | none =>
    rw [update_of_ne (Option.some_ne_none i).symm]
    simp only [hand, hown]
  | some j =>
    rcases eq_or_ne j i with rfl | hne
    · rw [update_self, hk]
    · rw [update_of_ne (fun heq => hne (Option.some.inj heq)), hand, hand,
        hthief, update_of_ne hne]

theorem hand_of_thief_same [DecidableEq ι] {i : ι} {pc : ThiefPc P}
    (hown : s'.owner = s.owner) (hthief : s'.thief = update s.thief i pc)
    (hsame : s'.hand (some i) = s.hand (some i)) (p : Option ι) : s'.hand p = s.hand p := by
  rw [hand_of_thief hown hthief hsame, update_eq_self]

variable {null : P}

theorem Content.slot_inj (h : Content null s) {i j : ℕ} (hi : s.top ≤ i)
    (hi' : i < s.limit) (hj : s.top ≤ j) (hj' : j < s.limit) (heq : s.slot i = s.slot j) : i = j := by
  rcases lt_trichotomy i j with hlt | heq' | hgt
  · have := h.ordered i j hi hlt hj'
    omega
  · exact heq'
  · have := h.ordered j i hj hgt hi'
    omega

theorem Content.slot_mono (h : Content null s) {i j : ℕ} (hi : s.top ≤ i)
    (hij : i ≤ j) (hj : j < s.limit) : s.slot i ≤ s.slot j := by
  rcases Nat.eq_or_lt_of_le hij with rfl | hlt
  · exact le_rfl
  · exact (h.ordered i j hi hlt hj).le

theorem Content.live_drop_first (h : Content null s)
    (hlt : s.top < s.limit) (htop : s'.top = s.top + 1) (hlim : s'.limit = s.limit)
    (hslot : s'.slot = s.slot) (k : ℕ) : s'.Live k ↔ s.Live k ∧ k ≠ s.slot s.top := by
  rw [State.Live, htop, hlim, hslot]
  constructor
  · rintro ⟨i, hi, hi', rfl⟩
    refine ⟨⟨i, by omega, hi', rfl⟩, fun heq => ?_⟩
    have := h.slot_inj (by omega) hi' le_rfl hlt heq
    omega
  · rintro ⟨⟨i, hi, hi', rfl⟩, hne⟩
    refine ⟨i, ?_, hi', rfl⟩
    rcases Nat.eq_or_lt_of_le hi with rfl | hlt'
    · exact absurd rfl hne
    · exact hlt'

theorem Content.live_drop_last (h : Content null s) {b : ℕ}
    (hb : s.limit = b + 1) (hle : s.top ≤ b) (htop : s'.top = s.top) (hlim : s'.limit = b)
    (hslot : s'.slot = s.slot) (k : ℕ) : s'.Live k ↔ s.Live k ∧ k ≠ s.slot b := by
  rw [State.Live, htop, hlim, hslot]
  constructor
  · rintro ⟨i, hi, hi', rfl⟩
    refine ⟨⟨i, hi, by omega, rfl⟩, fun heq => ?_⟩
    have := h.slot_inj hi (by omega) hle (by omega) heq
    omega
  · rintro ⟨⟨i, hi, hi', rfl⟩, hne⟩
    refine ⟨i, hi, ?_, rfl⟩
    rcases Nat.eq_or_lt_of_le (show i ≤ b by omega) with rfl | hlt
    · exact absurd rfl hne
    · exact hlt

theorem Content.stolen_of_hand (h : Content null s) {i : ι} {k : ℕ}
    (hk : s.hand (some i) = some k) : k ∈ s.stolen := by
  have hthief := h.thief i
  simp only [hand] at hk
  split at hk
  case h_1 item taken hpc =>
    rw [hpc, hk] at hthief
    exact hthief.2
  case h_2 => cases hk

/-- A step of the owner that takes nothing. -/
theorem Ledger.of_owner [DecidableEq ι] (h : Ledger s) {pc : OwnerPc P} (hpc : s.owner = pc)
    (hitems : s'.items = s.items) (hplace : s'.place = s.place)
    (hret : s'.returned = s.returned) (hlim : State.limit { s with owner := pc } = s'.limit)
    (hhand : hand { s with owner := pc } none = s'.hand none) : Ledger s' := by
  subst hpc
  obtain ⟨htop, hpushed, hslot, hstolen, hthief⟩ := State.of_items hitems
  refine h.quiet hpushed hplace hstolen hret (live_congr htop hlim.symm hslot) fun p => ?_
  rw [hand_of_owner hthief, ← hhand, update_eq_self]

theorem Ledger.ownerStep [DecidableEq ι] (h : Ledger s)
    (hc : Content null s) (hstep : ownerStep null s = some s') : Ledger s' := by
  have hown := hc.owner
  have hle := hc.top_le
  unfold ChaseLevDeque.ownerStep at hstep
  unfold OwnerOk at hown
  split at hstep
  case h_1 => cases hstep
  case h_2 hpc | h_5 hpc | h_6 hpc | h_8 hpc | h_9 hpc | h_10 hpc | h_17 hpc | h_18 hpc =>
    cases hstep
    exact h.of_owner hpc rfl rfl rfl rfl rfl
  case h_3 hpc | h_4 hpc | h_7 hpc | h_12 hpc =>
    split_ifs at hstep <;> cases hstep
    · exact h.of_owner hpc rfl rfl rfl rfl rfl
    · exact h.of_owner hpc rfl rfl rfl rfl rfl
  case h_11 item b hpc =>
    rw [hpc] at hown
    have hlim : s.limit = s.bottom := s.limit_eq hpc
    have hslot : ∀ i, i ≠ b → update s.slot b s.pushed.length i = s.slot i :=
      fun i hne => update_of_ne hne ..
    cases hstep
    refine h.push (by simp) rfl rfl rfl (fun k => ?_) (fun p => ?_) (by simp only [hand, hpc])
    · show (∃ i, s.top ≤ i ∧ i < b + 1 ∧ update s.slot b s.pushed.length i = k) ↔ _
      constructor
      · rintro ⟨i, hi, hi', rfl⟩
        rcases Nat.lt_succ_iff_lt_or_eq.mp hi' with hlt | rfl
        · exact .inl ⟨i, hi, by omega, (hslot i hlt.ne).symm⟩
        · exact .inr (update_self ..)
      · rintro (⟨i, hi, hi', rfl⟩ | rfl)
        · exact ⟨i, hi, by omega, hslot i (by omega)⟩
        · exact ⟨b, by omega, Nat.lt_succ_self b, update_self ..⟩
    · cases p with
      | none => simp only [hand, hpc]
      | some i => rfl
  case h_13 b buf hpc =>
    rw [hpc] at hown
    cases hstep
    exact h.of_owner hpc rfl rfl rfl hown rfl
  case h_14 b buf hpc =>
    rw [hpc] at hown
    have hlim : s.limit = b + 1 := s.limit_eq hpc
    split_ifs at hstep with hless hlast <;> cases hstep
    · refine h.pop (n := s.slot b) ⟨b, hless.le, by omega, rfl⟩ rfl rfl rfl rfl
        (hc.live_drop_last hlim hless.le rfl hown rfl) ?_ (fun i k => hc.stolen_of_hand)
        (by simp only [hand, hpc]) (hand_of_owner rfl)
      rintro k ⟨i, hi, hi', rfl⟩
      exact hc.slot_mono hi (by omega) (by omega)
    · exact h.of_owner hpc rfl rfl rfl rfl rfl
    · exact h.of_owner hpc rfl rfl rfl rfl rfl
  case h_15 b t buf taken hpc =>
    rw [hpc] at hown
    cases taken with
    | none =>
      obtain ⟨-, rfl, -⟩ := hown
      rw [if_pos rfl] at hstep
      cases hstep
      exact h.of_owner hpc rfl rfl rfl rfl rfl
    | some k =>
      obtain ⟨-, hless, -⟩ := hown
      rw [if_neg hless.ne] at hstep
      cases hstep
      exact h.of_owner hpc rfl rfl rfl rfl rfl
  case h_16 b t item hpc =>
    rw [hpc] at hown
    obtain ⟨-, rfl, -, -⟩ := hown
    have hlim : s.limit = t + 1 := s.limit_eq hpc
    split_ifs at hstep with hwon
    · subst hwon
      cases hstep
      refine h.pop (n := s.slot s.top) ⟨s.top, le_rfl, by omega, rfl⟩ rfl rfl rfl rfl
        (hc.live_drop_first (by omega) rfl hlim.symm rfl) ?_ (fun i k => hc.stolen_of_hand)
        (by simp only [hand, hpc]) (hand_of_owner rfl)
      rintro k ⟨i, hi, hi', rfl⟩
      exact hc.slot_mono hi (by omega) (by omega)
    · cases hstep
      exact h.of_owner hpc rfl rfl rfl rfl rfl
  case h_19 item taken hpc =>
    have hhand : s.hand none = taken := by simp only [hand, hpc]
    have hlive : ∀ place log (k : ℕ), State.Live { s with
        owner := .idle, place := place, log := log } k ↔ s.Live k := fun _ _ =>
      live_congr rfl (by simp only [State.limit, hpc]) rfl
    cases taken with
    | none =>
      cases hstep
      refine h.quiet rfl rfl rfl ?_ (hlive _ _) fun p => ?_
      · simp [State.returned]
      · cases p with
        | none => rw [hhand]; rfl
        | some i => rfl
    | some k =>
      cases hstep
      refine h.give hhand rfl rfl rfl ?_ (hlive _ _) (hand_of_owner rfl)
      simp [State.returned]

theorem Ledger.thiefStep [DecidableEq ι] {i : ι} (h : Ledger s)
    (hc : Content null s) (hstep : thiefStep null s i = some s') : Ledger s' := by
  -- a step after which the thief still has nothing
  have hquiet : ∀ pc, s.hand (some i) = none →
      hand { s with thief := update s.thief i pc } (some i) = none →
      Ledger { s with thief := update s.thief i pc } := by
    intro pc hpre hafter
    exact h.quiet rfl rfl rfl rfl (fun _ => Iff.rfl)
      (hand_of_thief_same rfl rfl (hafter.trans hpre.symm))
  have hthief := hc.thief i
  unfold ChaseLevDeque.thiefStep at hstep
  split at hstep
  case h_1 => cases hstep
  case h_2 hpc | h_4 hpc | h_5 hpc =>
    cases hstep
    exact hquiet _ (by simp only [hand, hpc]) (by simp [hand])
  case h_3 t hpc =>
    split_ifs at hstep <;> cases hstep <;>
      exact hquiet _ (by simp only [hand, hpc]) (by simp [hand])
  case h_6 t item hpc =>
    rw [hpc] at hthief
    split_ifs at hstep with hwon
    · subst hwon
      cases hstep
      obtain ⟨hlt, -⟩ := hthief.2 rfl
      refine h.steal (i := i) (n := s.slot s.top) ⟨s.top, le_rfl, hlt, rfl⟩ rfl rfl rfl rfl
        (hc.live_drop_first hlt rfl rfl rfl) ?_ (by simp only [hand, hpc]) ?_
      · rintro k ⟨j, hj, hj', rfl⟩
        exact hc.slot_mono le_rfl hj hj'
      · exact hand_of_thief rfl rfl (by simp [hand])
    · cases hstep
      exact hquiet _ (by simp only [hand, hpc]) (by simp [hand])
  case h_7 item taken hpc =>
    have hhand : s.hand (some i) = taken := by simp only [hand, hpc]
    cases taken with
    | none =>
      cases hstep
      refine h.quiet rfl rfl rfl ?_ (fun _ => Iff.rfl) (hand_of_thief_same (i := i) rfl rfl ?_)
      · simp [State.returned]
      · rw [hhand]
        simp [hand]
    | some k =>
      cases hstep
      refine h.give hhand rfl rfl rfl ?_ (fun _ => Iff.rfl)
        (hand_of_thief rfl rfl (by simp [hand]))
      simp [State.returned]

/-! ### Runs -/

theorem Ledger.initial (null : P) (capacity : ℕ) : Ledger (State.initial (ι := ι) null capacity) where
  unborn_iff := fun k => ⟨fun _ => Nat.zero_le k, fun _ => rfl⟩
  live_iff := fun k => ⟨nofun, fun ⟨i, _, hi, _⟩ => absurd hi (Nat.not_lt_zero i)⟩
  held_iff := fun p k => ⟨nofun, fun heq => by cases p <;> cases heq⟩
  returned_iff := fun k => ⟨nofun, nofun⟩
  nodup := nodup_nil
  stolen_lt := nofun
  sorted := List.Pairwise.nil
  stolen_below := nofun
  popped := nofun

variable {l : Label ι P}

theorem Ledger.step [DecidableEq ι] (h : Ledger s) (hc : Content null s)
    (hstep : step null s l = some s') : Ledger s' := by
  cases l with
  | push | pop =>
    simp only [step] at hstep
    split at hstep <;> cases hstep
    case h_1 hpc =>
      exact h.of_owner hpc rfl rfl rfl rfl rfl
  | owner => exact h.ownerStep hc hstep
  | steal i =>
    simp only [step] at hstep
    split at hstep <;> cases hstep
    case h_1 hpc =>
      have hhand : s.hand (some i) = none := by simp only [hand, hpc]
      refine h.quiet rfl rfl rfl rfl (fun _ => Iff.rfl) (hand_of_thief_same (i := i) rfl rfl ?_)
      rw [hhand]
      simp [hand]
  | thief i => exact h.thiefStep hc hstep

/-! ### What was returned -/

/-- A returned item is the one that was pushed, and a call that has none returns the null pointer.
-/
def Return.Faithful (null : P) (pushed : List P) (r : Return ι P) : Prop :=
  match r.number with
  | some k => pushed[k]? = some r.item
  | none => r.item = null

/-- What a step does to the items that were returned. -/
theorem log_cases [DecidableEq ι] (hstep : step null s l = some s') :
    (s'.log = s.log ∧ ∃ items, s'.pushed = s.pushed ++ items) ∨
      (∃ item taken, s.owner = .popReturn item taken ∧ s'.log = s.log ++ [⟨none, item, taken⟩] ∧
        s'.pushed = s.pushed ∧ s'.hand none = none ∧ (∀ i, s'.hand (some i) = s.hand (some i)) ∧
        ∀ k, s'.Live k ↔ s.Live k) ∨
      ∃ i item taken, s.thief i = .leave item taken ∧ s'.log = s.log ++ [⟨some i, item, taken⟩] ∧
        s'.pushed = s.pushed := by
  cases l with
  | push | pop | steal =>
    simp only [step] at hstep
    split at hstep <;> cases hstep
    exact .inl ⟨rfl, [], (append_nil _).symm⟩
  | owner =>
    simp only [step, ChaseLevDeque.ownerStep] at hstep
    split at hstep
    case h_11 item b hpc =>
      cases hstep
      exact .inl ⟨rfl, [item], rfl⟩
    case h_19 item taken hpc =>
      cases hstep
      exact .inr (.inl ⟨item, taken, hpc, rfl, rfl, rfl, fun _ => rfl,
        live_congr rfl (by simp only [State.limit, hpc]) rfl⟩)
    all_goals
      first
        | cases hstep
          exact .inl ⟨rfl, [], (append_nil _).symm⟩
        | split_ifs at hstep <;> cases hstep <;>
            exact .inl ⟨rfl, [], (append_nil _).symm⟩
        | cases hstep
  | thief i =>
    simp only [step, ChaseLevDeque.thiefStep] at hstep
    split at hstep
    case h_7 item taken hpc =>
      cases hstep
      exact .inr (.inr ⟨i, item, taken, hpc, rfl, rfl⟩)
    all_goals
      first
        | cases hstep
          exact .inl ⟨rfl, [], (append_nil _).symm⟩
        | split_ifs at hstep <;> cases hstep <;>
            exact .inl ⟨rfl, [], (append_nil _).symm⟩
        | cases hstep

/-- All invariants. -/
structure Invariant (null : P) (s : State ι P) : Prop where
  memory : Memory s
  content : Content null s
  ledger : Ledger s
  faithful : ∀ r ∈ s.log, r.Faithful null s.pushed

theorem faithful_step [DecidableEq ι] (h : ∀ r ∈ s.log, r.Faithful null s.pushed)
    (hc : Content null s) (hstep : step null s l = some s') :
    ∀ r ∈ s'.log, r.Faithful null s'.pushed := by
  rcases log_cases hstep with ⟨hlog, items, hpushed⟩ | ⟨item, taken, hpc, hlog, hpushed, -⟩ |
    ⟨i, item, taken, hpc, hlog, hpushed⟩
  · rw [hlog, hpushed]
    intro r hr
    have hr := h r hr
    unfold Return.Faithful at hr ⊢
    split at hr
    · rw [List.getElem?_append_left (List.getElem?_eq_some_iff.mp hr).1]
      exact hr
    · exact hr
  · rw [hlog, hpushed]
    intro r hr
    rcases mem_append.mp hr with hr | hr
    · exact h r hr
    · rw [mem_singleton.mp hr]
      have hown := hc.owner
      rw [OwnerOk, hpc] at hown
      cases taken with
      | none => exact hown.1
      | some k => exact hown
  · rw [hlog, hpushed]
    intro r hr
    rcases mem_append.mp hr with hr | hr
    · exact h r hr
    · rw [mem_singleton.mp hr]
      have hthief := hc.thief i
      rw [hpc] at hthief
      cases taken with
      | none => exact hthief
      | some k => exact hthief.1

theorem invariant_of_reachable [DecidableEq ι] {capacity : ℕ}
    (h : (system ι null capacity).Reachable s) : Invariant null s := by
  refine h.invariant (fun s hinit => ?_) fun s l s' hs _ hstep => ?_
  · cases hinit
    exact ⟨Memory.initial null capacity, Content.initial null capacity,
      Ledger.initial null capacity, fun r hr => by cases hr⟩
  · exact ⟨hs.memory.step hstep, hs.content.step hs.memory hstep, hs.ledger.step hs.content hstep,
      faithful_step hs.faithful hs.content hstep⟩

/-! ### The deque as a whole -/

/-- The item that a pop has put out of the reach of later steals and not yet taken. -/
def State.wanted (s : State ι P) : Option ℕ :=
  match s.owner with
  | .popTop b _ => some (s.slot b)
  | .popLoad b _ _ none => some (s.slot b)
  | .popCompare b _ _ => some (s.slot b)
  | _ => none

/-- An item in the deque is between `top_` and `bottom_`, or a pop wants it. -/
theorem Invariant.place_of_live (h : Invariant null s) {k : ℕ}
    (hk : s.Live k) :
    (∃ i, s.top ≤ i ∧ i < s.bottom ∧ s.slot i = k ∧ s.pushed[k]? = some (s.current.load i)) ∨
      s.wanted = some k := by
  obtain ⟨i, hi, hi', rfl⟩ := hk
  have hstored := h.content.stored i hi hi'
  by_cases hlt : i < s.bottom
  · exact .inl ⟨i, hi, hlt, rfl, hstored⟩
  · -- the limit is above the bottom
    have hown := h.content.owner
    refine .inr ?_
    unfold State.limit at hi'
    unfold OwnerOk at hown
    unfold State.wanted
    split at hi'
    case h_1 b _ hpc | h_2 b _ _ hpc | h_3 b _ _ hpc =>
      rw [hpc] at hown ⊢
      rw [show i = b by omega]
    case h_4 hpc | h_5 hpc =>
      rw [hpc] at hown
      omega
    case h_6 => exact absurd hi' hlt

/-- An item that was pushed and not returned. -/
theorem Invariant.outstanding (h : Invariant null s) {k : ℕ}
    (hk : k < s.pushed.length) (hout : k ∉ s.returned) : s.Live k ∨ ∃ p, s.hand p = some k := by
  cases hplace : s.place k with
  | unborn =>
    have := (h.ledger.unborn_iff k).mp hplace
    omega
  | live => exact .inl ((h.ledger.live_iff k).mp hplace)
  | held p => exact .inr ⟨p, (h.ledger.held_iff p k).mp hplace⟩
  | returned => exact absurd ((h.ledger.returned_iff k).mp hplace) hout

end Elio.ChaseLevDeque
