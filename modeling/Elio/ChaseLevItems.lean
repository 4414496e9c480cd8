/-
**`chase_lev_deque`: where the items are.**

The items that were pushed and not taken are in the slots from `top_` to the limit, in the order in
which they were pushed.  A thief that has read `top_` and an item knows nothing for sure; but as
long as `top_` has not moved, the item it has read is the first one.  The owner that has read a
`top_` below the item it wants can take it without an exchange: a thief that could take the same
item must first have read the raised `top_`, and then reads the lowered `bottom_`.

Main definitions:

* `Content` — what holds of the slots and of the local copies of the calls.

Main results:

* `Content.step` — **every step keeps the invariant**.
-/

import Elio.ChaseLevMemory

set_option autoImplicit false

namespace Elio.ChaseLevDeque

open Function (update update_self update_of_ne)

variable {ι P : Type*}

/-- The buffer that `buffer_` points to. -/
def State.current (s : State ι P) : Buffer P := s.heap s.buffer

/-- The copies from `t` to `i` are made, and the new buffer has room for all of them. -/
structure Growing (s : State ι P) (b t old new i : ℕ) : Prop where
  bottom_eq : b = s.bottom
  top_le : t ≤ s.top
  from_le : t ≤ i
  upto_le : i ≤ b
  fits : b < t + (s.heap old).capacity
  doubled : (s.heap new).capacity = (s.heap old).capacity * 2
  copied : ∀ j, t ≤ j → j < i → (s.heap new).load j = (s.heap old).load j

/-- What the owner knows. -/
def OwnerOk (null : P) (s : State ι P) : Prop :=
  match s.owner with
  | .idle => True
  | .pushTop _ b => b = s.bottom
  | .pushBuffer _ b t => b = s.bottom ∧ t ≤ s.top ∧ t ≤ b ∧ b < t + s.current.capacity
  | .growLoad _ b t old new i => Growing s b t old new i
  | .growStore _ b t old new i moved =>
    Growing s b t old new i ∧ i < b ∧ moved = (s.heap old).load i
  | .publish _ b t old new => Growing s b t old new b
  | .retire _ b _ _ => b = s.bottom ∧ b + 1 < s.top + s.current.capacity
  | .reclaim _ b _ _ => b = s.bottom ∧ b + 1 < s.top + s.current.capacity
  | .pushStore _ b _ => b = s.bottom ∧ b + 1 < s.top + s.current.capacity
  | .pushBottom item b =>
    b = s.bottom ∧ b + 1 < s.top + s.current.capacity ∧ s.current.load b = item
  | .popBuffer b => b = s.bottom
  | .popBottom b _ => s.bottom = b + 1
  | .popTop b _ => s.bottom = b
  | .popLoad b t _ none => s.bottom = b ∧ t = b ∧ t ≤ s.top
  | .popLoad b t _ (some k) => s.bottom = b ∧ t < b ∧ s.pushed[k]? = some (s.current.load b)
  | .popCompare b t item =>
    s.bottom = b ∧ t = b ∧ t ≤ s.top ∧ (s.top = t → s.pushed[s.slot t]? = some item)
  | .popWon b item k => s.bottom = b ∧ s.top = b + 1 ∧ s.pushed[k]? = some item
  | .popLost b => s.bottom = b ∧ s.top = b + 1
  | .popReturn item (some k) => s.pushed[k]? = some item
  | .popReturn item none => item = null ∧ s.top = s.bottom

/-- What a thief knows, as long as `top_` has not moved. -/
def ThiefOk (null : P) (s : State ι P) : ThiefPc P → Prop
  | .idle => True
  | .top => True
  | .bottom t => t ≤ s.top
  | .buffer t => t ≤ s.top ∧ (s.top = t → t < s.limit)
  | .load t buf =>
    t ≤ s.top ∧ (s.top = t → t < s.limit ∧ s.pushed[s.slot t]? = some ((s.heap buf).load t))
  | .compare t item => t ≤ s.top ∧ (s.top = t → t < s.limit ∧ s.pushed[s.slot t]? = some item)
  | .leave item (some k) => s.pushed[k]? = some item ∧ k ∈ s.stolen
  | .leave item none => item = null

/-- What holds of the slots and of the local copies of the calls. -/
structure Content (null : P) (s : State ι P) : Prop where
  top_le : s.top ≤ s.limit
  bottom_le : s.bottom ≤ s.limit
  fits : s.limit < s.top + s.current.capacity
  stored : ∀ i, s.top ≤ i → i < s.limit → s.pushed[s.slot i]? = some (s.current.load i)
  ordered : ∀ i j, s.top ≤ i → i < j → j < s.limit → s.slot i < s.slot j
  owner : OwnerOk null s
  thief : ∀ i, ThiefOk null s (s.thief i)

variable {s s' : State ι P}

theorem Growing.of_eq {b t old new i : ℕ} (h : Growing s b t old new i)
    (hbot : s'.bottom = s.bottom) (htop : s.top ≤ s'.top) (hheap : s'.heap = s.heap) :
    Growing s' b t old new i where
  bottom_eq := by rw [hbot]; exact h.bottom_eq
  top_le := le_trans h.top_le htop
  from_le := h.from_le
  upto_le := h.upto_le
  fits := by rw [hheap]; exact h.fits
  doubled := by rw [hheap]; exact h.doubled
  copied := by rw [hheap]; exact h.copied

/-! ### Frames -/

variable {null : P}

/-- What a thief knows stays true when the first item stays, and when `top_` moves. -/
theorem ThiefOk.mono {pc : ThiefPc P} (h : ThiefOk null s pc)
    (htop : s.top ≤ s'.top) (hpushed : ∀ (k : ℕ) x, s.pushed[k]? = some x → s'.pushed[k]? = some x)
    (hstolen : ∀ k ∈ s.stolen, k ∈ s'.stolen)
    (hfst : s'.top = s.top → s.top < s.limit →
      s.top < s'.limit ∧ s'.slot s.top = s.slot s.top)
    (hread : ∀ t buf, pc = .load t buf → s'.top = s.top → s.top = t → s.top < s.limit →
      (s'.heap buf).load t = (s.heap buf).load t) : ThiefOk null s' pc := by
  -- what was known of the first item, if `top_` is still there
  have hstill : ∀ t, t ≤ s.top → s'.top = t → s.top = t ∧ s'.top = s.top := fun t hle heq =>
    ⟨by omega, by omega⟩
  cases pc with
  | idle | top => trivial
  | bottom t => exact le_trans h htop
  | buffer t =>
    refine ⟨le_trans h.1 htop, fun heq => ?_⟩
    obtain ⟨rfl, hsame⟩ := hstill t h.1 heq
    exact (hfst hsame (h.2 rfl)).1
  | load t buf =>
    refine ⟨le_trans h.1 htop, fun heq => ?_⟩
    obtain ⟨rfl, hsame⟩ := hstill t h.1 heq
    obtain ⟨hlt, hitem⟩ := h.2 rfl
    obtain ⟨hlim, hslot⟩ := hfst hsame hlt
    rw [hslot, hread _ buf rfl hsame rfl hlt]
    exact ⟨hlim, hpushed _ _ hitem⟩
  | compare t item =>
    refine ⟨le_trans h.1 htop, fun heq => ?_⟩
    obtain ⟨rfl, hsame⟩ := hstill t h.1 heq
    obtain ⟨hlt, hitem⟩ := h.2 rfl
    obtain ⟨hlim, hslot⟩ := hfst hsame hlt
    rw [hslot]
    exact ⟨hlim, hpushed _ _ hitem⟩
  | leave item taken =>
    cases taken with
    | none => exact h
    | some k => exact ⟨hpushed _ _ h.1, hstolen _ h.2⟩

/-- What a step of the owner leaves alone, unless it takes or adds an item. -/
def State.items (s : State ι P) : ℕ × List P × (ℕ → ℕ) × List ℕ × (ι → ThiefPc P) :=
  (s.top, s.pushed, s.slot, s.stolen, s.thief)

theorem State.of_items (h : s'.items = s.items) : s'.top = s.top ∧ s'.pushed = s.pushed ∧
    s'.slot = s.slot ∧ s'.stolen = s.stolen ∧ s'.thief = s.thief := by
  simpa only [items, Prod.mk.injEq] using h

theorem State.limit_eq {pc : OwnerPc P} (hpc : s.owner = pc) :
    s.limit = State.limit { s with owner := pc } := by rw [← hpc]

/-- A step of the owner that leaves the items where they are. -/
theorem Content.of_owner (h : Content null s) (hitems : s'.items = s.items)
    (hlim : s.limit = s'.limit) (hbot : s'.bottom ≤ s.limit)
    (hcap : s.current.capacity ≤ s'.current.capacity)
    (hcur : ∀ i, s.top ≤ i → i < s.limit → s'.current.load i = s.current.load i)
    (hread : ∀ buf, s.Reads buf → s.top < s.limit →
      (s'.heap buf).load s.top = (s.heap buf).load s.top)
    (hown : OwnerOk null s') : Content null s' := by
  obtain ⟨htop, hpushed, hslot, hstolen, hthief⟩ := State.of_items hitems
  rw [hlim] at hbot
  refine ⟨?_, hbot, ?_, ?_, ?_, hown, ?_⟩
  · rw [htop, ← hlim]; exact h.top_le
  · have := h.fits
    omega
  · intro i hi hi'
    rw [htop] at hi
    rw [← hlim] at hi'
    rw [hpushed, hslot, hcur i hi hi']
    exact h.stored i hi hi'
  · rw [htop, ← hlim, hslot]; exact h.ordered
  · intro i
    rw [hthief]
    refine (h.thief i).mono htop.ge (fun k x hk => by rw [hpushed]; exact hk)
      (fun k hk => by rw [hstolen]; exact hk)
      (fun _ hlt => ⟨by rw [← hlim]; exact hlt, by rw [hslot]⟩) ?_
    rintro t buf hpc - rfl hlt
    exact hread buf ⟨i, _, hpc⟩ hlt

/-- A step of the owner that leaves the slots alone, too. -/
theorem Content.of_silent (h : Content null s) {pc : OwnerPc P} (hpc : s.owner = pc)
    (hitems : s'.items = s.items) (hlim : State.limit { s with owner := pc } = s'.limit)
    (hbot : s'.bottom ≤ s.limit) (hheap : s'.heap = s.heap)
    (hbuf : s'.buffer = s.buffer) (hown : OwnerOk null s') : Content null s' := by
  have hcur : s'.current = s.current := by rw [State.current, hheap, hbuf, State.current]
  exact h.of_owner hitems ((s.limit_eq hpc).trans hlim) hbot (by rw [hcur])
    (fun _ _ _ => by rw [hcur]) (fun _ _ _ => by rw [hheap]) hown

/-! ### Steps of the owner -/

theorem Growing.start {b t : ℕ} (hb : b = s.bottom) (ht : t ≤ s.top)
    (htb : t ≤ b) (hfits : b < t + s.current.capacity) (hlt : s.buffer < s.fresh) (owner : OwnerPc P) :
    Growing { s with
      heap := update s.heap s.fresh (s.current.doubled null)
      fresh := s.fresh + 1
      owner := owner } b t s.buffer s.fresh t where
  bottom_eq := hb
  top_le := ht
  from_le := le_rfl
  upto_le := htb
  fits := by
    show b < t + (update s.heap s.fresh (s.current.doubled null) s.buffer).capacity
    rw [update_of_ne hlt.ne]
    exact hfits
  doubled := by
    show (update s.heap s.fresh (s.current.doubled null) s.fresh).capacity =
      (update s.heap s.fresh (s.current.doubled null) s.buffer).capacity * 2
    rw [update_self, update_of_ne hlt.ne]
    rfl
  copied := fun j hj hj' => by omega

theorem Growing.next {b t old new i : ℕ} (h : Growing s b t old new i) (hlt : i < b)
    (hne : old ≠ new) (owner : OwnerPc P) :
    Growing { s with
      heap := update s.heap new ((s.heap new).store i ((s.heap old).load i))
      owner := owner } b t old new (i + 1) where
  bottom_eq := h.bottom_eq
  top_le := h.top_le
  from_le := Nat.le_succ_of_le h.from_le
  upto_le := hlt
  fits := by
    show b < t + (update s.heap new _ old).capacity
    rw [update_of_ne hne]
    exact h.fits
  doubled := by
    show (update s.heap new _ new).capacity = (update s.heap new _ old).capacity * 2
    rw [update_self, update_of_ne hne]
    exact h.doubled
  copied := by
    intro j hj hj'
    show (update s.heap new _ new).load j = (update s.heap new _ old).load j
    rw [update_self, update_of_ne hne]
    rcases Nat.lt_succ_iff_lt_or_eq.mp hj' with hlt' | rfl
    · -- the earlier copies are in other slots
      have hfits := h.fits
      have hdoubled := h.doubled
      rw [Buffer.load_store_of_ne _ (by omega) (by omega) (by omega)]
      exact h.copied j hj hlt'
    · rw [Buffer.load_store_self]

theorem Content.ownerStep [DecidableEq ι] (h : Content null s)
    (hm : Memory s) (hstep : ownerStep null s = some s') : Content null s' := by
  have hown := h.owner
  have hmem := hm.owner
  have hle := h.top_le
  have hbot := h.bottom_le
  have hfits := h.fits
  unfold ChaseLevDeque.ownerStep at hstep
  unfold OwnerOk at hown
  unfold OwnerMemory at hmem
  split at hstep <;> try cases hstep
  case h_2 item b hpc =>
    rw [hpc] at hown
    have hlim : s.limit = s.bottom := s.limit_eq hpc
    refine h.of_silent hpc rfl rfl hbot rfl rfl ?_
    subst hown
    exact ⟨rfl, le_rfl, hlim ▸ hle, hlim ▸ hfits⟩
  case h_3 item b t hpc =>
    rw [hpc] at hown
    obtain ⟨hb, ht, htb, hroom⟩ := hown
    have hlim : s.limit = s.bottom := s.limit_eq hpc
    split_ifs at hstep with hfull <;> cases hstep
    · have hother : ∀ buf, buf < s.fresh →
          update s.heap s.fresh (s.current.doubled null) buf = s.heap buf :=
        fun buf hlt => update_of_ne hlt.ne ..
      refine h.of_owner rfl hlim hbot ?_ ?_ ?_ ?_
      · exact (congrArg Buffer.capacity (hother _ hm.current_lt)).ge
      · exact fun i _ _ => congrArg (Buffer.load · i) (hother _ hm.current_lt)
      · exact fun buf hbuf _ => congrArg (Buffer.load · s.top) (hother _ (hm.reads buf hbuf).1)
      · exact Growing.start hb ht htb hroom hm.current_lt _
    · refine h.of_silent hpc rfl rfl hbot rfl rfl ⟨hb, ?_⟩
      have hroom' : ¬ s.current.capacity - 1 ≤ b - t := hfull
      show b + 1 < s.top + s.current.capacity
      omega
  case h_4 item b t old new i hpc =>
    rw [hpc] at hown
    have hlim : s.limit = s.bottom := s.limit_eq hpc
    split_ifs at hstep with hmore <;> cases hstep
    · exact h.of_silent hpc rfl rfl hbot rfl rfl
        ⟨hown.of_eq rfl le_rfl rfl, hmore, rfl⟩
    · have hend : i = b := le_antisymm hown.upto_le (by omega)
      exact h.of_silent hpc rfl rfl hbot rfl rfl
        ((hend ▸ hown).of_eq rfl le_rfl rfl)
  case h_5 item b t old new i moved hpc =>
    rw [hpc] at hown hmem
    obtain ⟨hgrowing, hmore, rfl⟩ := hown
    have hlim : s.limit = s.bottom := s.limit_eq hpc
    have hother : ∀ buf, buf ≠ new →
        update s.heap new ((s.heap new).store i ((s.heap old).load i)) buf = s.heap buf :=
      fun buf hne => update_of_ne hne ..
    refine h.of_owner rfl hlim hbot ?_ ?_ ?_ ?_
    · exact (congrArg Buffer.capacity (hother _ hmem.new_ne.symm)).ge
    · exact fun i _ _ => congrArg (Buffer.load · i) (hother _ hmem.new_ne.symm)
    · exact fun buf hbuf _ => congrArg (Buffer.load · s.top)
        (hother buf fun heq => hmem.unread (heq ▸ hbuf))
    · exact hgrowing.next hmore (hmem.old_eq ▸ hmem.new_ne.symm) _
  case h_6 item b t old new hpc =>
    rw [hpc] at hown hmem
    have hlim : s.limit = s.bottom := s.limit_eq hpc
    have hb := hown.bottom_eq
    have ht := hown.top_le
    have hroom := hown.fits
    have hdoubled := hown.doubled
    have hcur : s.heap old = s.current := by rw [hmem.old_eq, State.current]
    refine h.of_owner rfl hlim hbot ?_ ?_ (fun _ _ _ => rfl) ⟨hb, ?_⟩
    · show s.current.capacity ≤ (s.heap new).capacity
      rw [hdoubled, hcur]
      omega
    · intro i hi hi'
      rw [← hcur]
      exact hown.copied i (by omega) (by omega)
    · show b + 1 < s.top + (s.heap new).capacity
      omega
  case h_7 item b old new hpc =>
    rw [hpc] at hown
    split_ifs at hstep <;> cases hstep <;>
      exact h.of_silent hpc rfl rfl hbot rfl rfl hown
  case h_8 hpc | h_9 hpc =>
    rw [hpc] at hown
    exact h.of_silent hpc rfl rfl hbot rfl rfl hown
  case h_10 item b buf hpc =>
    rw [hpc] at hown hmem
    obtain ⟨hb, hroom⟩ := hown
    have hlim : s.limit = s.bottom := s.limit_eq hpc
    obtain rfl : buf = s.buffer := hmem
    -- the slot of `b` is not the slot of an item
    have hself : update s.heap s.buffer (s.current.store b item) s.buffer =
        s.current.store b item := update_self ..
    have hload : ∀ i, s.top ≤ i → i < s.limit → (s.current.store b item).load i = s.current.load i :=
      fun i hi hi' => Buffer.load_store_of_ne _ (by omega) (by omega) (by omega)
    refine h.of_owner rfl hlim hbot ?_ ?_ ?_ ⟨hb, ?_, ?_⟩
    · exact (congrArg Buffer.capacity hself).ge
    · exact fun i hi hi' => (congrArg (Buffer.load · i) hself).trans (hload i hi hi')
    · intro buf hbuf hlt
      show (update s.heap s.buffer (s.current.store b item) buf).load s.top = _
      rcases eq_or_ne buf s.buffer with rfl | hne
      · rw [hself]
        exact hload s.top le_rfl hlt
      · rw [update_of_ne hne]
    · show b + 1 < s.top + (update s.heap s.buffer (s.current.store b item) s.buffer).capacity
      rw [hself]
      exact hroom
    · show (update s.heap s.buffer (s.current.store b item) s.buffer).load b = item
      rw [hself, Buffer.load_store_self]
  case h_11 item b hpc =>
    rw [hpc] at hown
    obtain ⟨hb, hroom, hitem⟩ := hown
    have hlim : s.limit = s.bottom := s.limit_eq hpc
    have hslot : ∀ i, i ≠ b → update s.slot b s.pushed.length i = s.slot i :=
      fun i hne => update_of_ne hne ..
    have hold : ∀ (k : ℕ) x, s.pushed[k]? = some x → (s.pushed ++ [item])[k]? = some x := by
      intro k x hk
      rw [List.getElem?_append_left (List.getElem?_eq_some_iff.mp hk).1]
      exact hk
    exact
      { top_le := by
          show s.top ≤ b + 1
          omega
        bottom_le := le_rfl
        fits := hroom
        stored := by
          intro i hi hi'
          show (s.pushed ++ [item])[update s.slot b s.pushed.length i]? =
            some (s.current.load i)
          rcases Nat.lt_succ_iff_lt_or_eq.mp hi' with hlt | rfl
          · rw [hslot i hlt.ne]
            exact hold _ _ (h.stored i hi (by omega))
          · rw [update_self, List.getElem?_concat_length, hitem]
        ordered := by
          intro i j hi hij hj
          show update s.slot b s.pushed.length i < update s.slot b s.pushed.length j
          have hj' : j < b + 1 := hj
          rw [hslot i (by omega)]
          rcases Nat.lt_succ_iff_lt_or_eq.mp hj' with hlt | rfl
          · rw [hslot j hlt.ne]
            exact h.ordered i j hi hij (by omega)
          · rw [update_self]
            exact (List.getElem?_eq_some_iff.mp (h.stored i hi (by omega))).1
        owner := trivial
        thief := fun i => (h.thief i).mono le_rfl hold (fun _ hk => hk)
          (fun _ hlt => ⟨show s.top < b + 1 by omega, hslot _ (by omega)⟩)
          (fun _ _ _ _ _ _ => rfl) }
  case h_12 b hpc =>
    rw [hpc] at hown
    have hlim : s.limit = s.bottom := s.limit_eq hpc
    split_ifs at hstep with hzero <;> cases hstep
    · refine h.of_silent hpc rfl rfl hbot rfl rfl ⟨rfl, ?_⟩
      show s.top = s.bottom
      omega
    · refine h.of_silent hpc rfl rfl hbot rfl rfl ?_
      show s.bottom = b - 1 + 1
      omega
  case h_13 b buf hpc =>
    rw [hpc] at hown
    have hlim : s.limit = b + 1 := (s.limit_eq hpc).trans hown
    exact h.of_silent hpc rfl hown (by rw [hlim]; exact Nat.le_succ b) rfl rfl rfl
  case h_14 b buf hpc =>
    rw [hpc] at hown
    have hlim : s.limit = b + 1 := s.limit_eq hpc
    have hb : s.bottom = b := hown
    split_ifs at hstep with hless hlast <;> cases hstep
    · -- the last item is taken, and there is another one
      have hlast : s.pushed[s.slot b]? = some (s.current.load b) :=
        h.stored b hless.le (by omega)
      exact
        { top_le := by
            show s.top ≤ s.bottom
            omega
          bottom_le := le_rfl
          fits := by
            show s.bottom < s.top + s.current.capacity
            omega
          stored := fun i hi hi' => by
            have hi' : i < s.bottom := hi'
            exact h.stored i hi (by omega)
          ordered := fun i j hi hij hj => by
            have hj : j < s.bottom := hj
            exact h.ordered i j hi hij (by omega)
          owner := ⟨hb, hless, hlast⟩
          thief := fun i => (h.thief i).mono le_rfl (fun _ _ hk => hk) (fun _ hk => hk)
            (fun _ _ => ⟨show s.top < s.bottom by omega, rfl⟩) (fun _ _ _ _ _ _ => rfl) }
    · exact h.of_silent hpc rfl rfl hbot rfl rfl ⟨hb, hlast, le_rfl⟩
    · refine h.of_silent hpc rfl rfl hbot rfl rfl ⟨hb, ?_⟩
      show s.top = b + 1
      omega
  case h_15 b t buf taken hpc =>
    rw [hpc] at hown hmem
    obtain rfl : buf = s.buffer := hmem
    cases taken with
    | none =>
      obtain ⟨hb, rfl, ht⟩ := hown
      have hlim : s.limit = t + 1 := s.limit_eq hpc
      rw [if_pos rfl] at hstep
      cases hstep
      refine h.of_silent hpc rfl rfl hbot rfl rfl ⟨hb, rfl, ht, fun htop => ?_⟩
      have htop : s.top = t := htop
      exact h.stored t htop.le (by omega)
    | some k =>
      obtain ⟨hb, hless, hitem⟩ := hown
      rw [if_neg hless.ne] at hstep
      cases hstep
      exact h.of_silent hpc rfl rfl hbot rfl rfl hitem
  case h_16 b t item hpc =>
    rw [hpc] at hown
    obtain ⟨hb, rfl, ht, hitem⟩ := hown
    have hlim : s.limit = t + 1 := s.limit_eq hpc
    split_ifs at hstep with hwon <;> cases hstep
    · exact
        { top_le := le_rfl
          bottom_le := by
            show s.bottom ≤ t + 1
            omega
          fits := Nat.lt_add_of_pos_right s.current.capacity_pos
          stored := fun i hi hi' => by
            have hi : t + 1 ≤ i := hi
            have hi' : i < t + 1 := hi'
            omega
          ordered := fun i j hi hij hj => by
            have hi : t + 1 ≤ i := hi
            have hj : j < t + 1 := hj
            omega
          owner := ⟨hb, rfl, hitem hwon⟩
          thief := fun i => (h.thief i).mono (show s.top ≤ t + 1 by omega) (fun _ _ hk => hk)
            (fun _ hk => hk)
            (fun hsame => by
              have hsame : t + 1 = s.top := hsame
              omega)
            (fun _ _ _ _ _ _ => rfl) }
    · refine h.of_silent hpc rfl rfl hbot rfl rfl ⟨hb, ?_⟩
      show s.top = t + 1
      omega
  case h_17 b item taken hpc =>
    rw [hpc] at hown
    obtain ⟨hb, htop, hitem⟩ := hown
    have hlim : s.limit = b + 1 := s.limit_eq hpc
    exact h.of_silent hpc rfl rfl hlim.ge rfl rfl hitem
  case h_18 b hpc =>
    rw [hpc] at hown
    obtain ⟨hb, htop⟩ := hown
    have hlim : s.limit = b + 1 := s.limit_eq hpc
    exact h.of_silent hpc rfl rfl hlim.ge rfl rfl ⟨rfl, htop⟩
  case h_19 item taken hpc =>
    exact h.of_silent hpc rfl rfl hbot rfl rfl trivial

/-! ### Steps of a thief -/

/-- What the owner knows stays true when `top_` stays, and when a thief takes an item. -/
theorem OwnerOk.mono (h : OwnerOk null s)
    (hown : s'.owner = s.owner) (htop : s.top ≤ s'.top)
    (hmoved : s'.top = s.top ∨ s.top < s.limit) (hbot : s'.bottom = s.bottom)
    (hheap : s'.heap = s.heap) (hbuf : s'.buffer = s.buffer) (hpushed : s'.pushed = s.pushed)
    (hslot : s'.slot = s.slot) : OwnerOk null s' := by
  have hcur : s'.current = s.current := by rw [State.current, hheap, hbuf, State.current]
  unfold OwnerOk at h ⊢
  rw [hown, hbot, hcur, hpushed, hslot, hheap]
  split at h
  case h_3 => exact ⟨h.1, le_trans h.2.1 htop, h.2.2⟩
  case h_4 | h_6 => exact h.of_eq hbot htop hheap
  case h_5 => exact ⟨h.1.of_eq hbot htop hheap, h.2⟩
  case h_7 | h_8 | h_9 => exact ⟨h.1, by omega⟩
  case h_10 => exact ⟨h.1, by omega, h.2.2⟩
  case h_14 => exact ⟨h.1, h.2.1, le_trans h.2.2 htop⟩
  case h_16 => exact ⟨h.1, h.2.1, le_trans h.2.2.1 htop, fun heq => h.2.2.2 (by omega)⟩
  case h_17 b item k hpc =>
    -- nothing is left to steal
    have hlim : s.limit = b + 1 := s.limit_eq hpc
    exact ⟨h.1, by omega, h.2.2⟩
  case h_18 b hpc =>
    have hlim : s.limit = b + 1 := s.limit_eq hpc
    exact ⟨h.1, by omega⟩
  case h_20 item hpc =>
    have hlim : s.limit = s.bottom := s.limit_eq hpc
    exact ⟨h.1, by omega⟩
  all_goals exact h

/-- A thief that goes on without an exchange. -/
theorem Content.of_thief [DecidableEq ι] (h : Content null s) {i : ι}
    (pc : ThiefPc P) (hpc : ThiefOk null s pc) {active : ℕ} {place : ℕ → Place ι}
    {log : List (Return ι P)} :
    Content null { s with
      thief := update s.thief i pc
      activeThieves := active
      place := place
      log := log } :=
  { h with
    owner := h.owner.mono rfl le_rfl (.inl rfl) rfl rfl rfl rfl rfl
    thief := fun j => by
      have hj : ThiefOk null s (update s.thief i pc j) := by
        rcases eq_or_ne j i with rfl | hne
        · rw [update_self]
          exact hpc
        · rw [update_of_ne hne]
          exact h.thief j
      exact hj.mono le_rfl (fun _ _ hk => hk) (fun _ hk => hk) (fun _ hlt => ⟨hlt, rfl⟩)
        (fun _ _ _ _ _ _ => rfl) }

theorem Content.steal [DecidableEq ι] (h : Content null s) {i : ι}
    {item : P} {place : ℕ → Place ι} (hlt : s.top < s.limit)
    (hitem : s.pushed[s.slot s.top]? = some item) :
    Content null { s with
      top := s.top + 1
      thief := update s.thief i (.leave item (some (s.slot s.top)))
      place := place
      stolen := s.stolen ++ [s.slot s.top] } where
  top_le := hlt
  bottom_le := h.bottom_le
  fits := by
    have hfits := h.fits
    show s.limit < s.top + 1 + s.current.capacity
    omega
  stored := fun j hj hj' => h.stored j (Nat.le_of_succ_le hj) hj'
  ordered := fun j k hj hjk hk => h.ordered j k (Nat.le_of_succ_le hj) hjk hk
  owner := h.owner.mono rfl (Nat.le_succ _) (.inr hlt) rfl rfl rfl rfl rfl
  thief := by
    intro j
    show ThiefOk null _ (update s.thief i _ j)
    rcases eq_or_ne j i with rfl | hne
    · rw [update_self]
      exact ⟨hitem, List.mem_append_right _ (List.mem_singleton_self _)⟩
    · rw [update_of_ne hne]
      exact (h.thief j).mono (Nat.le_succ _) (fun _ _ hk => hk)
        (fun _ hk => List.mem_append_left _ hk)
        (fun hsame => absurd (show s.top + 1 = s.top from hsame) (by omega))
        (fun _ _ _ hsame => absurd (show s.top + 1 = s.top from hsame) (by omega))

theorem Content.thiefStep [DecidableEq ι] {i : ι} (h : Content null s)
    (hstep : thiefStep null s i = some s') : Content null s' := by
  have hthief := h.thief i
  unfold ChaseLevDeque.thiefStep at hstep
  split at hstep <;> try cases hstep
  case h_2 hpc =>
    exact h.of_thief (.bottom s.top) (le_refl s.top)
  case h_3 t hpc =>
    rw [hpc] at hthief
    split_ifs at hstep with hless <;> cases hstep
    · have hbot := h.bottom_le
      exact h.of_thief (.buffer t) ⟨hthief, fun _ => by omega⟩
    · exact h.of_thief (.leave null none) rfl
  case h_4 t hpc =>
    rw [hpc] at hthief
    refine h.of_thief (.load t s.buffer) ⟨hthief.1, fun htop => ⟨hthief.2 htop, ?_⟩⟩
    exact h.stored t htop.le (hthief.2 htop)
  case h_5 t buf hpc =>
    rw [hpc] at hthief
    exact h.of_thief (.compare t ((s.heap buf).load t)) hthief
  case h_6 t item hpc =>
    rw [hpc] at hthief
    split_ifs at hstep with hwon
    · subst hwon
      cases hstep
      obtain ⟨hlt, hitem⟩ := hthief.2 rfl
      exact h.steal hlt hitem
    · cases hstep
      exact h.of_thief (.leave null none) rfl
  case h_7 item taken hpc =>
    exact h.of_thief .idle trivial

/-! ### Runs -/

theorem Content.initial (null : P) (capacity : ℕ) :
    Content null (State.initial (ι := ι) null capacity) where
  top_le := le_rfl
  bottom_le := le_rfl
  fits := Nat.lt_add_of_pos_right (Buffer.capacity_pos _)
  stored := fun i _ hi => absurd hi (Nat.not_lt_zero i)
  ordered := fun i j _ _ hj => absurd hj (Nat.not_lt_zero j)
  owner := trivial
  thief := fun _ => trivial

theorem Content.step [DecidableEq ι] {l : Label ι P}
    (h : Content null s) (hm : Memory s) (hstep : step null s l = some s') : Content null s' := by
  cases l with
  | push | pop =>
    simp only [ChaseLevDeque.step] at hstep
    split at hstep <;> cases hstep
    case h_1 hpc =>
      exact h.of_silent hpc rfl rfl h.bottom_le rfl rfl rfl
  | owner => exact h.ownerStep hm hstep
  | steal i =>
    simp only [ChaseLevDeque.step] at hstep
    split at hstep <;> cases hstep
    exact h.of_thief .top trivial
  | thief i => exact h.thiefStep hstep

end Elio.ChaseLevDeque
