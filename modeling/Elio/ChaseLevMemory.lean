/-
**`chase_lev_deque`: no deleted buffer is read.**

The owner deletes the buffers that it has replaced when it finds `active_thieves_` to be zero after
it has published the new one.  A thief that comes later loads the new buffer, so that no thief has
an address that is deleted.

Main definitions:

* `Memory` — what holds of the addresses.

Main results:

* `Memory.step` — **every step keeps the invariant**.
-/

import Elio.ChaseLevDeque
import Mathlib.Data.Finset.Card

set_option autoImplicit false

namespace Elio.ChaseLevDeque

open Function (update update_self update_of_ne)

variable {ι P : Type*}

/-- A thief has loaded the address and not yet read from the buffer. -/
def State.Reads (s : State ι P) (buf : ℕ) : Prop := ∃ i t, s.thief i = .load t buf

/-- A buffer that the owner still fills. -/
structure Unpublished (s : State ι P) (old new : ℕ) : Prop where
  old_eq : old = s.buffer
  new_lt : new < s.fresh
  new_ne : new ≠ s.buffer
  new_kept : s.freed new = false
  unlisted : new ∉ s.oldBuffers
  unread : ¬ s.Reads new

variable {s s' : State ι P}

/-- The addresses of the owner. -/
def OwnerMemory (s : State ι P) : Prop :=
  match s.owner with
  | .growLoad _ _ _ old new _ => Unpublished s old new
  | .growStore _ _ _ old new _ _ => Unpublished s old new
  | .publish _ _ _ old new => Unpublished s old new
  | .retire _ _ old new => new = s.buffer ∧ old ≠ s.buffer ∧ old < s.fresh
  | .reclaim _ _ new rest =>
    new = s.buffer ∧ ∀ buf ∈ rest, buf ≠ s.buffer ∧ buf < s.fresh ∧ ¬ s.Reads buf
  | .pushStore _ _ buf => buf = s.buffer
  | .popBottom _ buf => buf = s.buffer
  | .popTop _ buf => buf = s.buffer
  | .popLoad _ _ buf _ => buf = s.buffer
  | _ => True

/-- What holds of the addresses. -/
structure Memory (s : State ι P) : Prop where
  current_lt : s.buffer < s.fresh
  current_kept : s.freed s.buffer = false
  fresh_kept : ∀ buf, s.fresh ≤ buf → s.freed buf = false
  old : ∀ buf ∈ s.oldBuffers, buf ≠ s.buffer ∧ buf < s.fresh
  owner : OwnerMemory s
  reads : ∀ buf, s.Reads buf → buf < s.fresh ∧ s.freed buf = false
  counted : ∃ inside : Finset ι, (∀ i, i ∈ inside ↔ s.thief i ≠ .idle) ∧
    inside.card = s.activeThieves

/-! ### Steps of the owner -/

theorem Memory.not_reads {s : State ι P} (h : Memory s) (hzero : s.activeThieves = 0) (buf : ℕ) :
    ¬ s.Reads buf := by
  rintro ⟨i, t, hi⟩
  obtain ⟨inside, hmem, hcard⟩ := h.counted
  have hin : i ∈ inside := (hmem i).mpr (by rw [hi]; exact nofun)
  have hpos := Finset.card_pos.mpr ⟨i, hin⟩
  omega

variable {null : P}

theorem Memory.ownerStep [DecidableEq ι] (h : Memory s) (hstep : ownerStep null s = some s') :
    Memory s' := by
  have hown := h.owner
  unfold ChaseLevDeque.ownerStep at hstep
  unfold OwnerMemory at hown
  split at hstep <;> try cases hstep
  case h_2 | h_10 | h_11 | h_17 | h_18 | h_19 =>
    exact { h with owner := trivial }
  case h_3 item b t hpc =>
    split_ifs at hstep with hfull <;> cases hstep
    · have hlt := h.current_lt
      exact
        { current_lt := Nat.lt_succ_of_lt hlt
          current_kept := h.current_kept
          fresh_kept := fun buf hbuf => h.fresh_kept buf (Nat.le_of_succ_le hbuf)
          old := fun buf hbuf => ⟨(h.old buf hbuf).1, Nat.lt_succ_of_lt (h.old buf hbuf).2⟩
          owner := ⟨rfl, Nat.lt_succ_self _, hlt.ne', h.fresh_kept _ le_rfl,
            fun hlisted => (h.old _ hlisted).2.false, fun hreads => (h.reads _ hreads).1.false⟩
          reads := fun buf hbuf => ⟨Nat.lt_succ_of_lt (h.reads buf hbuf).1, (h.reads buf hbuf).2⟩
          counted := h.counted }
    · exact { h with owner := rfl }
  case h_4 item b t old new i hpc =>
    rw [hpc] at hown
    split_ifs at hstep <;> cases hstep <;>
      exact { h with owner := { hown with } }
  case h_5 item b t old new i moved hpc =>
    rw [hpc] at hown
    exact { h with owner := { hown with } }
  case h_6 item b t old new hpc =>
    rw [hpc] at hown
    -- the buffers swap their roles
    exact
      { current_lt := hown.new_lt
        current_kept := hown.new_kept
        fresh_kept := h.fresh_kept
        old := fun buf hbuf =>
          ⟨fun heq => hown.unlisted ((show buf = new from heq) ▸ hbuf), (h.old buf hbuf).2⟩
        owner := ⟨rfl, by rw [hown.old_eq]; exact hown.new_ne.symm, by
          rw [hown.old_eq]; exact h.current_lt⟩
        reads := h.reads
        counted := h.counted }
  case h_7 item b old new hpc =>
    rw [hpc] at hown
    obtain ⟨hnew, hold, hlt⟩ := hown
    -- the old buffer joins the others
    have hlisted : ∀ buf ∈ s.oldBuffers ++ [old], buf ≠ s.buffer ∧ buf < s.fresh := by
      intro buf hbuf
      rcases List.mem_append.mp hbuf with hbuf | hbuf
      · exact h.old buf hbuf
      · rw [List.mem_singleton.mp hbuf]
        exact ⟨hold, hlt⟩
    split_ifs at hstep with hzero <;> cases hstep
    · exact
        { h with
          old := hlisted
          owner := ⟨hnew, fun buf hbuf =>
            ⟨(hlisted buf hbuf).1, (hlisted buf hbuf).2, h.not_reads hzero buf⟩⟩ }
    · exact { h with old := hlisted, owner := hnew }
  case h_8 item b new buf rest hpc =>
    rw [hpc] at hown
    obtain ⟨hnew, hrest⟩ := hown
    obtain ⟨hne, hlt, hunread⟩ := hrest buf List.mem_cons_self
    have hkept : ∀ other, other ≠ buf → update s.freed buf true other = s.freed other :=
      fun other hother => update_of_ne hother ..
    have hfresh : ∀ other, s.fresh ≤ other → update s.freed buf true other = false :=
      fun other hother => (hkept other (by omega)).trans (h.fresh_kept other hother)
    exact
      { h with
        current_kept := (hkept _ hne.symm).trans h.current_kept
        fresh_kept := hfresh
        owner := ⟨hnew, (List.forall_mem_cons.1 hrest).2⟩
        reads := fun other hother =>
          ⟨(h.reads other hother).1, (hkept other fun heq => hunread (heq ▸ hother)).trans
            (h.reads other hother).2⟩ }
  case h_9 item b new hpc =>
    rw [hpc] at hown
    exact { h with old := fun buf hbuf => absurd hbuf List.not_mem_nil, owner := hown.1 }
  case h_12 b hpc =>
    split_ifs at hstep <;> cases hstep
    · exact { h with owner := trivial }
    · exact { h with owner := rfl }
  case h_13 b buf hpc =>
    rw [hpc] at hown
    exact { h with owner := hown }
  case h_14 b buf hpc =>
    rw [hpc] at hown
    split_ifs at hstep <;> cases hstep
    · exact { h with owner := hown }
    · exact { h with owner := hown }
    · exact { h with owner := trivial }
  case h_15 | h_16 =>
    split_ifs at hstep <;> cases hstep <;> exact { h with owner := trivial }

/-! ### Steps of a thief -/

variable {i : ι}

/-- A thief that goes on reads what it read before, or the current buffer. -/
theorem Memory.of_thief [DecidableEq ι] (h : Memory s) {pc : ThiefPc P} {top active : ℕ}
    {place : ℕ → Place ι} {stolen : List ℕ} {log : List (Return ι P)}
    (hpc : ∀ t buf, pc = .load t buf → buf = s.buffer)
    (hcnt : ∃ inside : Finset ι, (∀ j, j ∈ inside ↔ update s.thief i pc j ≠ .idle) ∧
    inside.card = active) :
    Memory { s with
      top := top
      activeThieves := active
      thief := update s.thief i pc
      place := place
      stolen := stolen
      log := log } := by
  have hreads : ∀ buf, (∃ j t, update s.thief i pc j = .load t buf) →
      s.Reads buf ∨ buf = s.buffer := by
    rintro buf ⟨j, t, hj⟩
    rcases eq_or_ne j i with rfl | hne
    · rw [update_self] at hj
      exact .inr (hpc t buf hj)
    · rw [update_of_ne hne] at hj
      exact .inl ⟨j, t, hj⟩
  have hunread : ∀ buf, buf ≠ s.buffer → ¬ s.Reads buf →
      ¬ ∃ j t, update s.thief i pc j = .load t buf := fun buf hne hnot hread =>
    (hreads buf hread).elim hnot hne
  exact
    { h with
      owner := by
        have hs := h.owner
        unfold OwnerMemory at hs ⊢
        dsimp only
        split at hs
        case h_1 | h_2 | h_3 => exact { hs with unread := hunread _ hs.new_ne hs.unread }
        case h_5 =>
          exact ⟨hs.1, fun buf hbuf => ⟨(hs.2 buf hbuf).1, (hs.2 buf hbuf).2.1,
            hunread buf (hs.2 buf hbuf).1 (hs.2 buf hbuf).2.2⟩⟩
        all_goals exact hs
      reads := by
        intro buf hread
        rcases hreads buf hread with hread | rfl
        · exact h.reads buf hread
        · exact ⟨h.current_lt, h.current_kept⟩
      counted := hcnt }

/-- The count does not change while a thief stays inside. -/
theorem Memory.counted_of_inside [DecidableEq ι] {s : State ι P} (h : Memory s) {pc : ThiefPc P}
    (hpre : s.thief i ≠ .idle) (hafter : pc ≠ .idle) :
    ∃ inside : Finset ι, (∀ j, j ∈ inside ↔ update s.thief i pc j ≠ .idle) ∧
      inside.card = s.activeThieves := by
  obtain ⟨inside, hmem, hcard⟩ := h.counted
  refine ⟨inside, fun j => ?_, hcard⟩
  rcases eq_or_ne j i with rfl | hne
  · rw [update_self, hmem]
    exact ⟨fun _ => hafter, fun _ => hpre⟩
  · rw [update_of_ne hne, hmem]

theorem Memory.thiefStep [DecidableEq ι] (h : Memory s) (hstep : thiefStep null s i = some s') :
    Memory s' := by
  unfold ChaseLevDeque.thiefStep at hstep
  split at hstep <;> try cases hstep
  case h_2 hpc | h_5 hpc =>
    exact h.of_thief nofun
      (h.counted_of_inside (by rw [hpc]; exact nofun) nofun)
  case h_3 hpc | h_6 hpc =>
    have hinside : s.thief i ≠ .idle := by
      rw [hpc]
      exact nofun
    split_ifs at hstep <;> cases hstep
    · exact h.of_thief nofun
        (h.counted_of_inside hinside nofun)
    · exact h.of_thief nofun
        (h.counted_of_inside hinside nofun)
  case h_4 t hpc =>
    exact h.of_thief
      (fun _ _ heq => by
        cases heq
        rfl)
      (h.counted_of_inside (by rw [hpc]; exact nofun) nofun)
  case h_7 item taken hpc =>
    refine h.of_thief nofun ?_
    obtain ⟨inside, hmem, hcard⟩ := h.counted
    have hin : i ∈ inside := (hmem i).mpr (by rw [hpc]; exact nofun)
    refine ⟨inside.erase i, fun j => ?_, ?_⟩
    · show j ∈ inside.erase i ↔ update s.thief i .idle j ≠ .idle
      rw [Finset.mem_erase, hmem]
      rcases eq_or_ne j i with rfl | hne
      · rw [update_self]
        exact ⟨fun hboth => absurd rfl hboth.1, nofun⟩
      · rw [update_of_ne hne]
        exact ⟨fun hboth => hboth.2, fun hnot => ⟨hne, hnot⟩⟩
    · show (inside.erase i).card = s.activeThieves - 1
      rw [Finset.card_erase_of_mem hin, hcard]

theorem Memory.enter [DecidableEq ι] {s : State ι P} (h : Memory s) (hidle : s.thief i = .idle) :
    Memory { s with
      activeThieves := s.activeThieves + 1
      thief := update s.thief i .top } := by
  refine h.of_thief nofun ?_
  obtain ⟨inside, hmem, hcard⟩ := h.counted
  have hout : i ∉ inside := fun hin => (hmem i).mp hin hidle
  refine ⟨insert i inside, fun j => ?_, ?_⟩
  · rw [Finset.mem_insert, hmem]
    rcases eq_or_ne j i with rfl | hne
    · rw [update_self]
      exact ⟨fun _ => nofun, fun _ => .inl rfl⟩
    · rw [update_of_ne hne]
      exact ⟨fun hor => hor.resolve_left hne, .inr⟩
  · rw [Finset.card_insert_of_notMem hout, hcard]

/-! ### Runs -/

theorem Memory.initial (null : P) (capacity : ℕ) : Memory (State.initial (ι := ι) null capacity) where
  current_lt := Nat.one_pos
  current_kept := rfl
  fresh_kept := fun _ _ => rfl
  old := fun _ hbuf => absurd hbuf List.not_mem_nil
  owner := trivial
  reads := by
    rintro buf ⟨i, t, hi⟩
    cases hi
  counted := ⟨∅, fun i => ⟨fun hi => absurd hi (Finset.notMem_empty i), nofun⟩, rfl⟩

theorem Memory.step [DecidableEq ι] {l : Label ι P} (h : Memory s) (hstep : step null s l = some s')
    : Memory s' := by
  cases l with
  | push | pop =>
    simp only [ChaseLevDeque.step] at hstep
    split at hstep <;> cases hstep
    exact { h with owner := trivial }
  | owner => exact h.ownerStep hstep
  | steal i =>
    simp only [ChaseLevDeque.step] at hstep
    split at hstep <;> cases hstep
    case h_1 hidle =>
      exact h.enter hidle
  | thief i => exact h.thiefStep hstep

end Elio.ChaseLevDeque
