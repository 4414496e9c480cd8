/-
**The shared mutex: queues and hand-overs.**

The steps of `Elio/SharedMutex.lean` that change a queue, and those that write to a second
operation: `claim_reader_locked` and `claim_writer_locked` select the waiter at the head of a queue,
and `schedule_wake_state` hands a selected waiter to the scheduler.  With them, every step keeps the
invariant of `Elio/SharedMutexInvariant.lean`.

Main definitions:

* `Pair` — what a step that writes to a second operation leaves alone.

Main results:

* `Inv.selected` — a selected waiter is suspended and live;
* `step_inv` — **every step keeps the invariant.**
-/

import Elio.SharedMutexInvariant

set_option autoImplicit false

namespace Elio.SharedMutex

open List WakeState

variable {ι : Type*} {s s' : State ι} {i : ι} {out : Outcome}

attribute [local grind] State.OpOk Op.Ok

attribute [local grind] Op.cancellable Call.isShared Cs.isEntry Cs.sharedEarly Cs.lockEarly
  Pc.isLocked Pc.unpublished Pc.published Pc.reader Pc.writer Pc.publishing Pc.unlinking
  Cs.ungranted Pc.ungranted Pc.snapshot State.InTransit wasCancelled claimNotification setHandle
  unblockAfterPublish notificationWasSelected Op.awaitResume Op.grant Op.handOver

/-! ### The first state -/

theorem initial_inv : Inv (State.initial : State ι) where
  op j := by
    constructor <;> simp [State.initial, Op.fresh, Pc.isLocked, Pc.reader, Pc.writer, Pc.snapshot,
      Pc.published, Pc.publishing, Pc.unlinking, wasCancelled]
  schedule j w more out hj := by simp [State.initial, Op.fresh] at hj
  transit j r v out hj := by simp [State.initial, Op.fresh] at hj
  pending := rfl
  nodupReaders := nodup_nil
  nodupWriters := nodup_nil

theorem Pc.isLocked_of_publishing {p : Pc ι} (h : p.publishing = true) : p.isLocked = true := by
  unfold Pc.publishing at h
  split at h <;> simp_all [Pc.isLocked]

variable {reading writing : Prop}

/-- A linked waiter of another operation, while `i` holds `internal_mutex_`, is suspended unless its
cancellation won. -/
theorem Op.Ok.parked_of_linked {o : Op ι} (ho : o.Ok False reading writing)
    (hpc : o.pc = .parked ∨ o.pc.publishing = true ∨ o.pc.unlinking = true)
    (hsel : o.rejects = false) : o.pc = .parked ∧ o.wake.wasCancelled = false := by
  have hlive : o.wake.wasCancelled = false := by
    by_contra hc
    rw [Bool.not_eq_false] at hc
    simp [Op.rejects, ho.cancelled hc, claimNotification_of_wasCancelled hc] at hsel
  refine ⟨?_, hlive⟩
  rcases hpc with hpark | hpublishing | hunlinking
  · exact hpark
  · exact (ho.mutex.2 (Pc.isLocked_of_publishing hpublishing)).elim
  · rw [ho.unlinking hunlinking] at hlive
    cases hlive

section

variable (h : Inv s)

include h

/-- An operation that works on the queues is in neither of them. -/
theorem Inv.unlinked {c : Cs ι} (hpc : (s.ops i).pc = .locked c)
    (hc : (Pc.locked c).publishing = false ∧ (Pc.locked c).unlinking = false) :
    i ∉ s.readerWaiters ∧ i ∉ s.writerWaiters := by
  refine ⟨fun hl => ?_, fun hl => ?_⟩
  · have hlink := ((h.op i).reading hl).2.2.2
    simp [hpc, hc] at hlink
  · have hlink := ((h.op i).writing hl).2.2.2
    simp [hpc, hc] at hlink

/-! ### Selecting a waiter -/

/-- The other operations are outside `internal_mutex_` while `i` holds it. -/
theorem Inv.ok_of_held (hmut : s.internalMutex = some i) {j : ι} (hji : j ≠ i) :
    (s.ops j).Ok False (j ∈ s.readerWaiters) (j ∈ s.writerWaiters) := by
  have hj := h.op j
  have hnot : ¬s.internalMutex = some j := by
    rw [hmut]
    exact fun heq => hji (Option.some.inj heq).symm
  unfold State.OpOk at hj
  rwa [eq_false hnot] at hj

theorem Inv.selected (hmut : s.internalMutex = some i) {w : ι} (hwi : w ≠ i)
    (hlink : w ∈ s.readerWaiters ∨ w ∈ s.writerWaiters) (hsel : (s.ops w).rejects = false) :
    (s.ops w).pc = .parked ∧ (s.ops w).wake.wasCancelled = false := by
  refine (h.ok_of_held hmut hwi).parked_of_linked ?_ hsel
  rcases hlink with hl | hl
  · exact ((h.op w).reading hl).2.2.2
  · exact ((h.op w).writing hl).2.2.2

omit h in
/-- No operation is in both queues. -/
theorem Op.Ok.not_both {o : Op ι} {held : Prop} (ho : o.Ok held reading writing) (hr : reading) :
    ¬writing := by
  intro hw
  have hboth := (ho.reading hr).1
  rw [(ho.writing hw).1] at hboth
  cases hboth

end

/-! ### Steps that write to a second operation -/

/-- What a step of `i` under `internal_mutex_` that also writes to `w` leaves alone. -/
structure Pair {ι : Type*} (i w : ι) (s s' : State ι) : Prop where
  held : s.internalMutex = some i
  ne : w ≠ i
  ops : ∀ j, j ≠ i → j ≠ w → s'.ops j = s.ops j
  unlocked : s'.internalMutex = none ∨ s'.internalMutex = some i
  reading : ∀ j, j ∈ s'.readerWaiters → j ∈ s.readerWaiters
  writing : ∀ j, j ∈ s'.writerWaiters → j ∈ s.writerWaiters
  handed : ∀ j, (s.ops j).handed = true → (s'.ops j).handed = true
  pc : (s'.ops w).pc = (s.ops w).pc
  schedule : ∀ v more out, (s'.ops i).pc = .schedule v more out →
    (s'.ops v).handed = true ∧ v ≠ i
  finish : ∀ r v out, (s'.ops i).pc = .locked (.finishCas (some r) v out) → s'.InTransit r

/-- **A step that writes to a second operation keeps the invariant** when it accounts for both
records and for the queues. -/
theorem Inv.pair (h : Inv s) (i w : ι) (p : Pair i w s s') (hoki : s'.OpOk i) (hokw : s'.OpOk w)
    (hpend : s'.pendingWriters = s'.writerWaiters.length)
    (hreaders : s'.readerWaiters.Nodup) (hwriters : s'.writerWaiters.Nodup) : Inv s' where
  op j := by
    by_cases hji : j = i
    · exact hji ▸ hoki
    · by_cases hjw : j = w
      · exact hjw ▸ hokw
      · have hj := h.ok_of_held p.held hji
        have hnot : ¬s'.internalMutex = some j := by
          rcases p.unlocked with hfree | hheld
          · simp [hfree]
          · rw [hheld]
            exact fun heq => hji (Option.some.inj heq).symm
        unfold State.OpOk
        rw [p.ops j hji hjw, eq_false hnot]
        refine { hj with
          reading := fun hl => hj.reading (p.reading j hl)
          writing := fun hl => hj.writing (p.writing j hl)
          linked := fun hpc => ?_ }
        exact (hj.mutex.2 (by rw [hpc]; rfl)).elim
  schedule j v more out hj := by
    by_cases hji : j = i
    · exact hji ▸ p.schedule v more out (hji ▸ hj)
    · have hold : (s.ops j).pc = .schedule v more out := by
        by_cases hjw : j = w
        · rw [hjw, p.pc, ← hjw] at hj
          exact hj
        · rwa [p.ops j hji hjw] at hj
      exact (h.schedule j v more out hold).imp_left (p.handed v)
  transit j r v out hj := by
    by_cases hji : j = i
    · exact p.finish r v out (hji ▸ hj)
    · -- only the holder of `internal_mutex_` can be there
      have hold : (s.ops j).pc = .locked (.finishCas (some r) v out) := by
        by_cases hjw : j = w
        · rw [hjw, p.pc, ← hjw] at hj
          exact hj
        · rwa [p.ops j hji hjw] at hj
      exact ((h.ok_of_held p.held hji).mutex.2 (by rw [hold]; rfl)).elim
  pending := hpend
  nodupReaders := hreaders
  nodupWriters := hwriters

/-- A waiter that is suspended and live, after it was selected. -/
theorem Op.Ok.grant_ok {o : Op ι} (ho : o.Ok False reading writing) (hpc : o.pc = .parked)
    (hlive : o.wake.wasCancelled = false) (hsel : o.rejects = false) :
    o.grant.Ok False False False := by
  have hclaim := @claimNotification_of_selected o.wake
  constructor <;> grind [Op.rejects]

/-- The same, when `state_` counts it as well. -/
theorem Op.Ok.handOver_ok {o : Op ι} (ho : o.Ok False reading writing) (hpc : o.pc = .parked)
    (hlive : o.wake.wasCancelled = false) (hsel : o.rejects = false) :
    o.handOver.Ok False False False := by
  have hclaim := @claimNotification_of_selected o.wake
  constructor <;> grind [Op.rejects]

section

variable (h : Inv s)

include h

variable {rest : List ι}

/-- A step that drops the head of the queue of readers, a cancelled one. -/
theorem drop_reader_inv {r : ι} (hcons : s.readerWaiters = r :: rest) :
    Inv { s with readerWaiters := rest } :=
  { h with
    op := fun j =>
      { h.op j with
        reading := fun hl => (h.op j).reading (by rw [hcons]; exact mem_cons_of_mem r hl) }
    nodupReaders := (nodup_cons.1 (hcons ▸ h.nodupReaders)).2 }

/-- A step of the holder of `internal_mutex_` that drops the head of the queue of writers. -/
theorem drop_writer_inv (hmut : s.internalMutex = some i)
    (hi : (s.ops i).pc ≠ .locked .lockUnblock) {w : ι} (hcons : s.writerWaiters = w :: rest) :
    Inv { s with writerWaiters := rest, pendingWriters := s.pendingWriters - 1 } :=
  { h with
    op := fun j =>
      { h.op j with
        writing := fun hl => (h.op j).writing (by rw [hcons]; exact mem_cons_of_mem w hl)
        linked := fun hpc => by
          have hj := (h.op j).mutex.2 (by rw [hpc]; rfl)
          rw [hmut] at hj
          exact absurd (Option.some.inj hj ▸ hpc) hi }
    pending := by simp [h.pending, hcons]
    nodupWriters := (nodup_cons.1 (hcons ▸ h.nodupWriters)).2 }

/-! ### The hand-overs -/

/-- The holder of `internal_mutex_` is not waiting for a hand-over. -/
theorem Inv.grantPending_of_held (hmut : s.internalMutex = some i) :
    (s.ops i).grantPending = false := by
  by_contra hgrant
  have hlocked := (h.op i).mutex.1 hmut
  rw [((h.op i).grant (by simpa using hgrant)).1] at hlocked
  simp [Pc.isLocked] at hlocked

/-- A reader that is selected is not the holder of `internal_mutex_`. -/
theorem Inv.transit_ne (hmut : s.internalMutex = some i) {r : ι} (htransit : s.InTransit r) :
    r ≠ i := by
  rintro rfl
  have hgrant := h.grantPending_of_held hmut
  rw [htransit.1] at hgrant
  cases hgrant

variable [DecidableEq ι]

/-- The holder of `internal_mutex_` hands the lock to the reader `r` at the head of the queue and
leaves. -/
theorem handReader_inv (hmut : s.internalMutex = some i)
    (hout : i ∉ s.readerWaiters ∧ i ∉ s.writerWaiters) {r : ι} (hcons : s.readerWaiters = r :: rest)
    (hsel : (s.ops r).rejects = false) (v : BitVec 64) (more : Bool) (out : Outcome) :
    Inv (({ s with readerWaiters := rest, state := v }.release.modify r Op.handOver).goto i
      (.schedule r more out)) := by
  have hi := h.op i
  have hlink : r ∈ s.readerWaiters := by simp [hcons]
  have hri : r ≠ i := fun heq => hout.1 (heq ▸ hlink)
  have hr := h.ok_of_held hmut hri
  obtain ⟨hpc, hlive⟩ := h.selected hmut hri (.inl hlink) hsel
  have hok := hr.handOver_ok hpc hlive hsel
  have hrest : r ∉ rest := (nodup_cons.1 (hcons ▸ h.nodupReaders)).1
  have hwriting := hr.not_both hlink
  refine h.pair i r ?_ ?_ ?_ ?_ ?_ ?_
  · constructor <;> grind -ext
  · clear hok hr
    constructor <;> grind -ext
  · unfold State.OpOk
    simpa [hri, hrest, hwriting] using hok
  · simpa using h.pending
  · exact (nodup_cons.1 (hcons ▸ h.nodupReaders)).2
  · exact h.nodupWriters

/-- The holder of `internal_mutex_` hands the lock to the writer `w` at the head of the queue and
leaves. -/
theorem handWriter_inv (hmut : s.internalMutex = some i)
    (hout : i ∉ s.readerWaiters ∧ i ∉ s.writerWaiters) {w : ι} (hcons : s.writerWaiters = w :: rest)
    (hsel : (s.ops w).rejects = false) (v : BitVec 64) (more : Bool) (out : Outcome) :
    Inv (({ s with
        writerWaiters := rest
        pendingWriters := s.pendingWriters - 1
        state := v }.release.modify w Op.handOver).goto i (.schedule w more out)) := by
  have hi := h.op i
  have hlink : w ∈ s.writerWaiters := by simp [hcons]
  have hwi : w ≠ i := fun heq => hout.2 (heq ▸ hlink)
  have hw := h.ok_of_held hmut hwi
  obtain ⟨hpc, hlive⟩ := h.selected hmut hwi (.inr hlink) hsel
  have hok := hw.handOver_ok hpc hlive hsel
  have hrest : w ∉ rest := (nodup_cons.1 (hcons ▸ h.nodupWriters)).1
  have hread : w ∉ s.readerWaiters := fun hl => hw.not_both hl hlink
  refine h.pair i w ?_ ?_ ?_ ?_ ?_ ?_
  · constructor <;> grind -ext
  · clear hok hw
    constructor <;> grind -ext
  · unfold State.OpOk
    simpa [hwi, hrest, hread] using hok
  · simp [h.pending, hcons]
  · exact h.nodupReaders
  · exact (nodup_cons.1 (hcons ▸ h.nodupWriters)).2

/-- The locations from which `claim_writer_locked` is called, and where they go on. -/
def Cs.ClaimsWriter (c next : Cs ι) (out : Outcome) : Prop :=
  c = .lastReaderClaim out ∧ next = .finishLoad out ∨
    c = .unlockWriters out ∧ next = .unlockReaders out

omit h [DecidableEq ι] in
theorem unlinked_of_claimsWriter {c next : Cs ι} (hc : c.ClaimsWriter next out) :
    (Pc.locked c).publishing = false ∧ (Pc.locked c).unlinking = false := by
  rcases hc with ⟨rfl, -⟩ | ⟨rfl, -⟩ <;> exact ⟨rfl, rfl⟩

theorem finishClaim_inv {v : BitVec 64} (hpc : (s.ops i).pc = .locked (.finishClaim v out)) :
    Inv (finishClaim s i v out) := by
  have hi := h.op i
  have hmut := h.inside hpc
  have hout := h.unlinked hpc ⟨rfl, rfl⟩
  unfold finishClaim
  split
  next =>
    refine h.quiet i ?_ ?_ <;> constructor <;> grind -linarith -ext
  next r rest hcons =>
    split
    next => exact drop_reader_inv h hcons
    next hsel =>
      have hsel : (s.ops r).rejects = false := by simpa using hsel
      have hlink : r ∈ s.readerWaiters := by simp [hcons]
      have hri : r ≠ i := fun heq => hout.1 (heq ▸ hlink)
      have hr := h.ok_of_held hmut hri
      have hread := hr.reading hlink
      obtain ⟨hpark, hlive⟩ := h.selected hmut hri (.inl hlink) hsel
      have hok := hr.grant_ok hpark hlive hsel
      have hrest : r ∉ rest := (nodup_cons.1 (hcons ▸ h.nodupReaders)).1
      have hwriting := hr.not_both hlink
      have hmi : ¬s.internalMutex = some r := by
        rw [hmut]
        exact fun heq => hri (Option.some.inj heq).symm
      refine h.pair i r ?_ ?_ ?_ ?_ ?_ ?_
      · clear hok hr
        constructor <;> grind -linarith -ext
      · clear hok hr
        constructor <;> grind -linarith -ext
      · unfold State.OpOk
        simpa [hri, hrest, hwriting, hmi] using hok
      · simpa using h.pending
      · exact (nodup_cons.1 (hcons ▸ h.nodupReaders)).2
      · exact h.nodupWriters

section

attribute [local simp] State.OpOk Op.ok_iff change_iff quiet_iff Op.cancellable Cs.isEntry
  Cs.sharedEarly Cs.lockEarly Pc.isLocked Pc.unpublished Pc.published Pc.reader Pc.writer
  Pc.publishing Pc.unlinking Cs.ungranted Pc.ungranted Pc.snapshot State.InTransit

theorem claimWriter_inv {c next : Cs ι} (hpc : (s.ops i).pc = .locked c)
    (hc : c.ClaimsWriter next out) : Inv (claimWriter s i out next) := by
  cases h.op i
  have hmut := h.inside hpc
  have hout := h.unlinked hpc (unlinked_of_claimsWriter hc)
  unfold claimWriter
  split
  next =>
    rcases hc with ⟨rfl, rfl⟩ | ⟨rfl, rfl⟩
    all_goals
      refine h.quiet i ?_ ?_ <;> simp_all +contextual [@eq_comm _ i]
  next w rest hcons =>
    split
    next =>
      refine drop_writer_inv h hmut ?_ hcons
      rcases hc with ⟨rfl, -⟩ | ⟨rfl, -⟩ <;> simp [hpc]
    next hsel =>
      exact handWriter_inv h hmut hout hcons (by simpa using hsel) _ _ _

/-- The locations from which a reader is claimed and handed the lock at once. -/
theorem claimReader_inv {c : Cs ι} (hpc : (s.ops i).pc = .locked c)
    (hc : c = .unlockReaders out ∨ c = .wakeClaim out) : Inv (actLocked s i c) := by
  cases h.op i
  have hmut := h.inside hpc
  rcases hc with rfl | rfl
  all_goals
    have hout := h.unlinked hpc ⟨rfl, rfl⟩
    simp only [actLocked, unlockReaders, wakeClaim]
    split
    next =>
      refine h.quiet i ?_ ?_ <;> simp_all +contextual [@eq_comm _ i]
    next r rest hcons =>
      split
      next => exact drop_reader_inv h hcons
      next hsel => exact handReader_inv h hmut hout hcons (by simpa using hsel) _ _ _

theorem finishCas_inv {reader : Option ι} {v : BitVec 64}
    (hpc : (s.ops i).pc = .locked (.finishCas reader v out)) :
    Inv (finishCas s i reader v out) := by
  cases h.op i
  have hmut := h.inside hpc
  unfold finishCas
  split
  next =>
    cases reader with
    | none => refine h.quiet i ?_ ?_ <;> simp_all +contextual [@eq_comm _ i]
    | some r =>
      have htransit := h.transit i r v out hpc
      have hri := h.transit_ne hmut htransit
      have hir := hri.symm
      have hr := h.ok_of_held hmut hri
      refine h.pair i r ?_ ?_ ?_ (by simpa using h.pending) h.nodupReaders h.nodupWriters
      · refine ⟨hmut, hri, fun j hji hjr => by simp [hji, hjr], .inl rfl, fun _ => id, fun _ => id,
          fun j hj => ?_, by simp [hri], fun w more o hw => ?_, by simp⟩
        · by_cases hji : j = i <;> by_cases hjr : j = r <;> simp_all
        · obtain ⟨rfl, -⟩ : r = w ∧ _ := by simpa using hw
          simp [hri]
      · simp_all
      · obtain ⟨hparked, hlive, hwait⟩ := hr.grant htransit.1
        have hread : r ∉ s.readerWaiters := fun hl => by
          simpa [htransit.1] using (hr.reading hl).2.1
        have hwrite : r ∉ s.writerWaiters := fun hl => by
          simpa [htransit.1] using (hr.writing hl).2.1
        have hold := hr.parked hparked
        simp_all
  next => refine h.quiet i ?_ ?_ <;> simp_all +contextual

theorem scheduleSelected_inv (hhanded : (s.ops i).handed = true) :
    Inv (s.modify i fun o => { o with wake := o.wake.scheduleSelected.1 }) := by
  have hi := h.op i
  have hspec := (s.ops i).wake.scheduleSelected_spec
  have hsched := h.schedule i
  have hpc := (s.ops i).pc.ungranted_of
  refine h.quiet i (by simp_all +contextual) ?_
  constructor <;> grind -ext [State.OpOk, Op.Ok]

theorem schedule_inv {w : ι} {more : Bool} (hpc : (s.ops i).pc = .schedule w more out) :
    Inv (scheduleWakeState s i w more out) := by
  obtain ⟨hhanded, hwi⟩ := h.schedule i w more out hpc
  -- the waiter is scheduled first, then the caller moves on
  cases h.op i
  have hiw := hwi.symm
  unfold scheduleWakeState
  split_ifs <;> refine (scheduleSelected_inv h hhanded).quiet i ?_ ?_ <;> simp_all +contextual

/-! ### Steps that change a queue -/

theorem sharedPush_inv (hpc : (s.ops i).pc = .locked .sharedPush) : Inv (sharedPush s i) := by
  have hi := h.op i
  obtain ⟨hread, -⟩ := h.unlinked hpc ⟨rfl, rfl⟩
  have hnodup : (s.readerWaiters ++ [i]).Nodup := by simpa using Nodup.concat hread h.nodupReaders
  unfold sharedPush
  rcases hi.published (by rw [hpc]; rfl) with ⟨hwake, hc⟩ | hwake | ⟨hwake, hc⟩ <;> split_ifs <;>
    refine h.change i ?_ ?_ h.pending hnodup h.nodupWriters <;> cases hi <;> simp_all +contextual
      [setHandle, wasCancelled, notificationWasSelected, @eq_comm _ i]

theorem sharedUnblock_inv (hpc : (s.ops i).pc = .locked .sharedUnblock) :
    Inv (sharedUnblock s i) := by
  have hi := h.op i
  obtain ⟨hc, hs, hwake | hwake⟩ := hi.publishing (by rw [hpc]; rfl)
  · rw [sharedUnblock, if_pos (by rw [hwake]; rfl)]
    refine h.quiet i ?_ ?_ <;> cases hi <;> simp_all +contextual [unblockAfterPublish,
      wasCancelled, notificationWasSelected, @eq_comm _ i]
  · rw [sharedUnblock, if_neg (by rw [hwake]; simp [unblockAfterPublish])]
    refine h.change i ?_ ?_ h.pending (h.nodupReaders.erase i) h.nodupWriters <;> cases hi <;>
      simp_all +contextual [h.nodupReaders.mem_erase_iff, Op.awaitResume, wasCancelled,
        @eq_comm _ i]

theorem sharedUnlink_inv (hpc : (s.ops i).pc = .locked .sharedUnlink) : Inv (sharedUnlink s i) := by
  cases h.op i
  unfold sharedUnlink
  refine h.change i ?_ ?_ h.pending (h.nodupReaders.erase i) h.nodupWriters <;>
    simp_all +contextual [h.nodupReaders.mem_erase_iff, @eq_comm _ i]

theorem lockRetry_inv (hpc : (s.ops i).pc = .locked .lockRetry) : Inv (lockRetry s i) := by
  have hi := h.op i
  obtain ⟨-, hwrite⟩ := h.unlinked hpc ⟨rfl, rfl⟩
  have hnodup : (s.writerWaiters ++ [i]).Nodup := by simpa using Nodup.concat hwrite h.nodupWriters
  have hpend := h.pending
  unfold lockRetry lockAcquired
  split_ifs
  iterate 2
    refine h.quiet i ?_ ?_ <;> cases hi <;> simp_all +contextual [Op.awaitResume, @eq_comm _ i]
  all_goals
    rcases hi.published (by rw [hpc]; rfl) with ⟨hwake, hc⟩ | hwake | ⟨hwake, hc⟩ <;>
      refine h.change i ?_ ?_ ?_ h.nodupReaders hnodup <;> cases hi <;> simp_all +contextual
        [lockPush, setHandle, wasCancelled, notificationWasSelected,
          @eq_comm _ i]

theorem lockUnblock_inv (hpc : (s.ops i).pc = .locked .lockUnblock) : Inv (lockUnblock s i) := by
  have hi := h.op i
  have hlength := length_erase_of_mem (hi.linked hpc)
  have hpend := h.pending
  obtain ⟨hc, hs, hwake | hwake⟩ := hi.publishing (by rw [hpc]; rfl)
  · rw [lockUnblock, if_pos (by rw [hwake]; rfl)]
    refine h.quiet i ?_ ?_ <;> cases hi <;> simp_all +contextual [unblockAfterPublish,
      wasCancelled, notificationWasSelected, @eq_comm _ i]
  · rw [lockUnblock, if_neg (by rw [hwake]; simp [unblockAfterPublish])]
    refine h.change i ?_ ?_ ?_ h.nodupReaders (h.nodupWriters.erase i) <;> cases hi <;>
      simp_all +contextual [h.nodupWriters.mem_erase_iff, wasCancelled]

theorem lockUnlink_inv (hpc : (s.ops i).pc = .locked .lockUnlink) : Inv (lockUnlink s i) := by
  cases h.op i
  have hpend := h.pending
  unfold lockUnlink
  split_ifs with hlink
  · have hlength := length_erase_of_mem hlink
    refine h.change i ?_ ?_ ?_ h.nodupReaders (h.nodupWriters.erase i) <;>
      simp_all +contextual [h.nodupWriters.mem_erase_iff]
  · refine h.quiet i ?_ ?_ <;> simp_all +contextual [@eq_comm _ i]

end

/-! ### Every reachable state -/

theorem actLocked_inv {c : Cs ι} (hpc : (s.ops i).pc = .locked c) : Inv (actLocked s i c) := by
  cases c with
  | sharedCheck | sharedLoad | sharedClaim => exact sharedSection_inv h hpc (by simp)
  | sharedCas v => exact sharedCas_inv h hpc
  | sharedPush => exact sharedPush_inv h hpc
  | sharedUnblock => exact sharedUnblock_inv h hpc
  | sharedUnlink => exact sharedUnlink_inv h hpc
  | lockCheck | lockCas | lockOr | lockClaim => exact lockSection_inv h hpc (by simp)
  | lockRetry => exact lockRetry_inv h hpc
  | lockUnblock => exact lockUnblock_inv h hpc
  | lockUnlink => exact lockUnlink_inv h hpc
  | lastReader out | finishLoad out | finishAnd out | wake out | wakeCas v out =>
    exact @releaseSection_inv _ _ _ _ out h _ hpc (by simp)
  | lastReaderClaim out => exact claimWriter_inv h hpc (.inl ⟨rfl, rfl⟩)
  | unlockWriters out => exact claimWriter_inv h hpc (.inr ⟨rfl, rfl⟩)
  | unlockReaders out | wakeClaim out => exact @claimReader_inv _ _ _ out h _ _ hpc (by simp)
  | finishClaim v out => exact finishClaim_inv h hpc
  | finishCas reader v out => exact finishCas_inv h hpc

theorem act_inv (hact : act s i = some s') : Inv s' := by
  have hsame := hact
  unfold act at hact
  split at hact <;> try cases hact
  case h_3 hpc | h_4 hpc | h_8 hpc => exact unpublished_inv h hsame (by simp [hpc])
  case h_5 hpc | h_6 hpc => exact tryLockShared_inv h hsame (by simp [hpc])
  case h_9 hpc | h_10 hpc => exact suspend_inv h hsame (by simp [hpc])
  case h_7 hpc => exact claim_inv h hpc
  case h_11 c hpc =>
    split at hact <;> cases hact
    exact enter_inv h hpc ‹_›
  case h_12 c hpc => exact actLocked_inv h hpc
  case h_13 hpc =>
    split at hact <;> cases hact
    exact resume_inv h hpc ‹_›
  case h_14 hpc => exact holding_inv h hpc
  case h_15 out hpc => exact unlockShared_inv h hpc
  case h_16 w more out hpc => exact schedule_inv h hpc

theorem step_inv {l : Label ι} (hl : step s l = some s') : Inv s' := by
  cases l with
  | act i => exact act_inv h hl
  | start i c | cancel i | scheduleCancel i =>
    rw [step] at hl
    split_ifs at hl with hpc
    cases hl
    first
    | exact start_inv h c hpc
    | exact cancel_inv h hpc.1 hpc.2
    | exact scheduleCancel_inv h hpc

end

end Elio.SharedMutex
