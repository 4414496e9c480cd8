/-
**Writing a part of a response.**

Whatever becomes of a response that is being sent, the transport has taken some bytes from the front
of what it was to be given: the header block, the body in batches with their framing, and the
ending. This module says which, for all calls of the writer and all things that may go wrong in
them.  The bytes of the body among them are the ones that the writer has counted.

Main definitions:

* `payloadTake` — the bytes of the body among the first bytes of some vectors;
* `frames`, `script` — what is to be given to the transport;
* `Sent` — the transport has taken some bytes of it.

Main results:

* `sendVectors_sent`, `writeLoop_sent` — the loops, however they end;
* `sendCalls_sent` — **what is on the wire, however the sending has ended**;
* `sendCalls_ok` — **what a successful reply has put on the wire**.
-/

import Elio.BodyWriter

set_option autoImplicit false

namespace Elio.Http

open List

/-! ### Vectors -/

/-- The bytes of the body among the first `k` bytes of the vectors. -/
def payloadTake : ℕ → List (Bool × Bytes) → Bytes
  | _, [] => []
  | k, (payload, bytes) :: vectors =>
    (if payload then bytes.take k else []) ++ payloadTake (k - bytes.length) vectors

theorem vectorBytes_append (vectors vectors' : List (Bool × Bytes)) :
    vectorBytes (vectors ++ vectors') = vectorBytes vectors ++ vectorBytes vectors' := by
  rw [vectorBytes, map_append, flatten_append]
  rfl

/-- The bytes of the vectors, each with the mark of its vector. -/
def marked (vectors : List (Bool × Bytes)) : List (Bool × UInt8) :=
  vectors.flatMap fun vector => vector.2.map (vector.1, ·)

/-- The bytes that are marked as bytes of the body. -/
def bodyOf (bytes : List (Bool × UInt8)) : Bytes := (bytes.filter Prod.fst).map Prod.snd

theorem marked_cons (payload : Bool) (bytes : Bytes) (vectors : List (Bool × Bytes)) :
    marked ((payload, bytes) :: vectors) = bytes.map (payload, ·) ++ marked vectors := rfl

theorem marked_append (vectors vectors' : List (Bool × Bytes)) :
    marked (vectors ++ vectors') = marked vectors ++ marked vectors' := flatMap_append

theorem bodyOf_append (bytes bytes' : List (Bool × UInt8)) :
    bodyOf (bytes ++ bytes') = bodyOf bytes ++ bodyOf bytes' := by
  rw [bodyOf, filter_append, map_append]
  rfl

theorem bodyOf_map_mk (payload : Bool) (bytes : Bytes) :
    bodyOf (bytes.map (payload, ·)) = if payload then bytes else [] := by
  cases payload <;> simp [bodyOf, filter_map, Function.comp_def]

theorem map_snd_marked (vectors : List (Bool × Bytes)) :
    (marked vectors).map Prod.snd = vectorBytes vectors := by
  rw [marked, map_flatMap, flatMap_def, vectorBytes]
  simp

theorem length_marked (vectors : List (Bool × Bytes)) :
    (marked vectors).length = (vectorBytes vectors).length := by
  rw [← map_snd_marked, length_map]

theorem payloadTake_eq (k : ℕ) (vectors : List (Bool × Bytes)) :
    payloadTake k vectors = bodyOf ((marked vectors).take k) := by
  induction vectors generalizing k with
  | nil => rw [marked, flatMap_nil, take_nil]; rfl
  | cons vector vectors ih =>
    rw [payloadTake, ih, marked_cons, take_append, bodyOf_append, ← map_take, bodyOf_map_mk,
      length_map]

theorem payloadTake_zero (vectors : List (Bool × Bytes)) : payloadTake 0 vectors = [] := by
  rw [payloadTake_eq, take_zero]
  rfl

theorem payloadTake_append (k : ℕ) (vectors vectors' : List (Bool × Bytes)) :
    payloadTake k (vectors ++ vectors') =
      payloadTake k vectors ++ payloadTake (k - (vectorBytes vectors).length) vectors' := by
  rw [payloadTake_eq, payloadTake_eq, payloadTake_eq, marked_append, take_append, bodyOf_append,
    length_marked]

/-- Bytes behind the vectors do not count. -/
theorem payloadTake_all {k : ℕ} {vectors : List (Bool × Bytes)}
    (h : (vectorBytes vectors).length ≤ k) : payloadTake k vectors = bodyOf (marked vectors) := by
  rw [payloadTake_eq, take_of_length_le (length_marked vectors ▸ h)]

/-- The transport takes bytes from the front of the vectors. -/
theorem marked_advanceVectors (progress : ℕ) (vectors : List (Bool × Bytes)) :
    marked (advanceVectors progress vectors).2.1 = (marked vectors).drop progress := by
  induction vectors generalizing progress with
  | nil => simp [advanceVectors, marked]
  | cons vector vectors ih =>
    obtain ⟨payload, bytes⟩ := vector
    rw [advanceVectors, marked_cons]
    by_cases hzero : progress = 0
    · rw [hzero]
      rfl
    · rw [if_neg hzero]
      by_cases hall : min progress bytes.length = bytes.length
      · simp only [hall, if_true]
        have hnil : bytes.drop progress = [] := drop_eq_nil_of_le (by omega)
        rw [ih, drop_append, length_map, ← map_drop, hnil]
        rfl
      · have hmin : min progress bytes.length = progress := by omega
        rw [hmin] at hall ⊢
        simp only [hall, if_false]
        rw [marked_cons, drop_append_of_le_length (by rw [length_map]; omega), map_drop]

theorem vectorBytes_advanceVectors (progress : ℕ) (vectors : List (Bool × Bytes)) :
    vectorBytes (advanceVectors progress vectors).2.1 = (vectorBytes vectors).drop progress := by
  rw [← map_snd_marked, marked_advanceVectors, map_drop, map_snd_marked]

/-- The writer counts the bytes of the body that the transport has taken, and those that it says to
have taken beyond the vectors. -/
theorem advanceVectors_counts (k : ℕ) (vectors : List (Bool × Bytes)) :
    (advanceVectors k vectors).1 = (payloadTake k vectors).length ∧
      (advanceVectors k vectors).2.2 = k - (vectorBytes vectors).length := by
  induction vectors generalizing k with
  | nil => exact ⟨rfl, rfl⟩
  | cons vector vectors ih =>
    obtain ⟨payload, bytes⟩ := vector
    rw [advanceVectors, payloadTake, vectorBytes_cons]
    by_cases hzero : k = 0
    · rw [if_pos hzero, hzero, take_zero, Nat.zero_sub, Nat.zero_sub, payloadTake_zero, ite_self]
      exact ⟨rfl, rfl⟩
    · rw [if_neg hzero, length_append, length_append]
      have hlen : (if payload then bytes.take k else []).length =
          if payload then min k bytes.length else 0 := by
        split_ifs
        · exact length_take
        · rfl
      by_cases hall : min k bytes.length = bytes.length
      · simp only [hall, if_true]
        rw [hlen, hall, (ih _).1, (ih _).2, Nat.sub_sub]
        exact ⟨rfl, rfl⟩
      · have hrest : k - bytes.length = 0 := by omega
        simp only [hall, if_false]
        rw [hlen, hrest, payloadTake_zero]
        exact ⟨rfl, by omega⟩

theorem payloadTake_add (j k : ℕ) (vectors : List (Bool × Bytes)) :
    payloadTake (j + k) vectors =
      payloadTake j vectors ++ payloadTake k (advanceVectors j vectors).2.1 := by
  rw [payloadTake_eq, payloadTake_eq, payloadTake_eq, marked_advanceVectors, take_add,
    bodyOf_append]

/-- The transport has taken the first `k` bytes of the vectors. -/
structure Sent (vectors : List (Bool × Bytes)) (k : ℕ) (wire wire' : Bytes)
    (confirmed confirmed' : ℕ) : Prop where
  le : k ≤ (vectorBytes vectors).length
  wire : wire' = wire ++ (vectorBytes vectors).take k
  confirmed : confirmed' = confirmed + (payloadTake k vectors).length

theorem Sent.none (vectors : List (Bool × Bytes)) (wire : Bytes) (confirmed : ℕ) :
    Sent vectors 0 wire wire confirmed confirmed :=
  ⟨Nat.zero_le _, (append_nil _).symm, by rw [payloadTake_zero]; rfl⟩

variable {wire wire' content : Bytes} {vectors : List (Bool × Bytes)} {c c' : ℕ}

theorem Sent.append {vectors' : List (Bool × Bytes)} {k' : ℕ} {wire'' : Bytes} {c'' : ℕ}
    (h : Sent vectors (vectorBytes vectors).length wire wire' c c')
    (h' : Sent vectors' k' wire' wire'' c' c'') :
    Sent (vectors ++ vectors') ((vectorBytes vectors).length + k') wire wire'' c c'' := by
  refine ⟨?_, ?_, ?_⟩
  · rw [vectorBytes_append, length_append]
    exact Nat.add_le_add_left h'.le _
  · rw [h'.wire, h.wire, vectorBytes_append, take_length, take_length_add_append,
      append_assoc]
  · have hall : payloadTake ((vectorBytes vectors).length + k') vectors =
        payloadTake (vectorBytes vectors).length vectors := by
      rw [payloadTake_all (Nat.le_add_right _ _), payloadTake_all le_rfl]
    rw [h'.confirmed, h.confirmed, payloadTake_append, hall, Nat.add_sub_cancel_left,
      length_append, Nat.add_assoc]

variable {k : ℕ}

theorem Sent.more (h : Sent vectors k wire wire' c c') (vectors' : List (Bool × Bytes)) :
    Sent (vectors ++ vectors') k wire wire' c c' := by
  refine ⟨?_, ?_, ?_⟩
  · rw [vectorBytes_append, length_append]
    exact h.le.trans (Nat.le_add_right _ _)
  · rw [h.wire, vectorBytes_append, take_append_of_le_length h.le]
  · rw [h.confirmed, payloadTake_append, Nat.sub_eq_zero_of_le h.le, payloadTake_zero,
      append_nil]

variable {events events' : List TransportEvent}

/-- **The loop over the vectors of a batch**, however it ends. -/
theorem sendVectors_sent {confirmed : ℕ} {written : Written}
    (h : sendVectors events vectors confirmed wire = some written) :
    ∃ k, Sent vectors k wire written.wire confirmed written.confirmed ∧
      (written.outcome = .pending → k = (vectorBytes vectors).length) := by
  induction events generalizing vectors confirmed wire with
  | nil =>
    cases vectors with
    | nil =>
      cases h
      exact ⟨0, .none _ _ _, fun _ => rfl⟩
    | cons vector vectors => cases h
  | cons event events ih =>
    cases vectors with
    | nil =>
      cases h
      exact ⟨0, .none _ _ _, fun _ => rfl⟩
    | cons vector vectors =>
      -- an outcome that is not `pending` ends the loop
      have hend : ∀ outcome rest,
          some (⟨confirmed, wire, outcome, rest⟩ : Written) = some written →
          outcome ≠ .pending →
          ∃ k, Sent (vector :: vectors) k wire written.wire confirmed written.confirmed ∧
            (written.outcome = .pending → k = (vectorBytes (vector :: vectors)).length) := by
        intro outcome rest hw hne
        cases hw
        exact ⟨0, .none _ _ _, fun hpend => absurd hpend hne⟩
      rw [sendVectors.eq_def] at h
      cases event with
      | interrupted => exact ih h
      | failed | cancelled | timedOut => exact hend _ _ h nofun
      | sent count =>
        cases count with
        | zero => exact hend _ _ h nofun
        | succ count =>
          simp only at h
          split_ifs at h with hover
          · -- more than there was: the transport has taken all of it, and that is an error
            cases h
            rw [(advanceVectors_counts _ _).2] at hover
            refine ⟨_, ⟨le_rfl, ?_, ?_⟩, nofun⟩
            · rw [take_of_length_le (by omega), take_length]
            · rw [(advanceVectors_counts _ _).1, payloadTake_all (by omega), payloadTake_all le_rfl]
          · rw [(advanceVectors_counts _ _).2] at hover
            obtain ⟨k, hsent, hall⟩ := ih h
            have hbytes := vectorBytes_advanceVectors (count + 1) (vector :: vectors)
            have hle := hsent.le
            rw [hbytes, length_drop] at hle hall
            have htake : (vectorBytes (vector :: vectors)).take (count + 1 + k) =
                (vectorBytes (vector :: vectors)).take (count + 1) ++
                  ((vectorBytes (vector :: vectors)).drop (count + 1)).take k :=
              take_add
            refine ⟨count + 1 + k, ⟨by omega, ?_, ?_⟩, fun hp => by have := hall hp; omega⟩
            · rw [hsent.wire, hbytes, htake, append_assoc]
            · rw [hsent.confirmed, payloadTake_add,
                (advanceVectors_counts _ _).1, length_append, Nat.add_assoc]

/-! ### Batches -/

/-- What the transport is to be given for one batch. -/
def frame (chunked payload : Bool) (batch : List Bytes) : List (Bool × Bytes) :=
  let vectors := batch.map fun bytes => (payload, bytes)
  if chunked then (false, toHex batch.flatten.length ++ crlf) :: (vectors ++ [(false, crlf)])
  else vectors

/-- What the transport is to be given for some batches. -/
def frames (chunked payload : Bool) (batches : List (List Bytes)) : List (Bool × Bytes) :=
  (batches.map (frame chunked payload)).flatten

theorem frames_append (chunked payload : Bool) (batches batches' : List (List Bytes)) :
    frames chunked payload (batches ++ batches') =
      frames chunked payload batches ++ frames chunked payload batches' := by
  rw [frames, map_append, flatten_append]
  rfl

/-- Batches of the bytes that an operation was given, from the front. -/
structure Batched (batches : List (List Bytes)) (content : Bytes) : Prop where
  content : batches.flatten.flatten <+: content
  batch : ∀ batch ∈ batches, batch.flatten ≠ [] ∧ batch.flatten.length ≤ maxBatch

theorem Batched.nil (content : Bytes) : Batched [] content :=
  ⟨List.nil_prefix, forall_mem_nil _⟩

variable {batches : List (List Bytes)}

theorem Batched.append {batches' : List (List Bytes)} {content' : Bytes}
    (h : Batched batches content) (hall : batches.flatten.flatten = content)
    (h' : Batched batches' content') : Batched (batches ++ batches') (content ++ content') := by
  refine ⟨?_, fun batch hbatch => ?_⟩
  · rw [flatten_append, flatten_append, hall]
    exact prefix_append_right_inj _ |>.2 h'.content
  · rcases mem_append.1 hbatch with hbatch | hbatch
    · exact h.batch batch hbatch
    · exact h'.batch batch hbatch

theorem vectorBytes_frame (chunked payload : Bool) (batch : List Bytes) :
    vectorBytes (frame chunked payload batch) =
      if chunked then chunkOf batch.flatten else batch.flatten := by
  have hplain : vectorBytes (batch.map fun bytes => (payload, bytes)) = batch.flatten := by
    rw [vectorBytes, map_map]
    exact congrArg flatten (map_id batch)
  rw [frame]
  cases chunked with
  | false => exact hplain
  | true =>
    simp only [if_true]
    rw [vectorBytes_cons, vectorBytes_append, hplain]
    rfl

/-- The frames of some batches are the coding of their bytes. -/
theorem encoded_frames (chunked payload : Bool) (h : Batched batches content) :
    Encoded chunked batches.flatten.flatten (vectorBytes (frames chunked payload batches)) := by
  have hall := h.batch
  clear h
  induction batches with
  | nil => exact .nil chunked
  | cons batch batches ih =>
    have hrest := ih (forall_mem_cons.1 hall).2
    have hsplit : vectorBytes (frames chunked payload (batch :: batches)) =
        vectorBytes (frame chunked payload batch) ++ vectorBytes (frames chunked payload batches) :=
      vectorBytes_append _ _
    rw [hsplit, vectorBytes_frame, flatten_cons, flatten_append]
    refine Encoded.append ?_ hrest
    cases chunked with
    | false => exact .plain rfl rfl
    | true =>
      refine .chunks [batch.flatten] rfl ?_ ?_ ?_
      · intro piece hpiece
        rw [mem_singleton.1 hpiece]
        exact hall batch (mem_cons_self ..)
      · rw [flatten_singleton]
      · rw [map_singleton, flatten_singleton]
        rfl

theorem payloadTake_of_plain (h : ∀ vector ∈ vectors, vector.1 = false) (k : ℕ) :
    payloadTake k vectors = [] := by
  rw [payloadTake_eq, bodyOf, map_eq_nil_iff, filter_eq_nil_iff]
  intro byte hbyte
  obtain ⟨vector, hvector, hbyte⟩ := mem_flatMap.1 (mem_of_mem_take hbyte)
  obtain ⟨_, -, rfl⟩ := mem_map.1 hbyte
  simp [h vector hvector]

theorem payloadTake_prefix {k' : ℕ} (h : k ≤ k') (vectors : List (Bool × Bytes)) :
    payloadTake k vectors <+: payloadTake k' vectors := by
  rw [payloadTake_eq, payloadTake_eq]
  exact ((take_prefix_take_left h).filter _).map _

theorem payloadTake_frames (chunked : Bool) (batches : List (List Bytes))
    (hk : (vectorBytes (frames chunked true batches)).length ≤ k) :
    payloadTake k (frames chunked true batches) = batches.flatten.flatten := by
  have hplain : ∀ batch : List Bytes,
      bodyOf (marked (batch.map fun bytes => (true, bytes))) = batch.flatten := by
    intro batch
    induction batch with
    | nil => rfl
    | cons bytes batch ih =>
      rw [map_cons, marked_cons, bodyOf_append, bodyOf_map_mk]
      exact congrArg (bytes ++ ·) ih
  have hframe : ∀ batch : List Bytes, bodyOf (marked (frame chunked true batch)) = batch.flatten := by
    intro batch
    rw [frame]
    cases chunked with
    | false => exact hplain batch
    | true =>
      rw [if_pos rfl, marked_cons, bodyOf_append, bodyOf_map_mk, marked_append, bodyOf_append, hplain]
      exact append_nil _
  rw [payloadTake_all hk]
  clear hk
  induction batches with
  | nil => rfl
  | cons batch batches ih =>
    have hsplit : frames chunked true (batch :: batches) =
        frame chunked true batch ++ frames chunked true batches := rfl
    rw [hsplit, marked_append, bodyOf_append, hframe, ih, flatten_cons, flatten_append]

theorem vectorBytes_plain (h : Batched batches content) :
    vectorBytes (frames false false batches) = batches.flatten.flatten := by
  cases encoded_frames false false h with
  | plain _ h => exact h
  | chunks _ h => cases h

/-- Bytes that are not of the body are sent as they are, and not counted. -/
theorem Sent.plain (h : Sent (frames false false batches) k wire wire' c c')
    (hbatched : Batched batches content) : Sent [(false, content)] k wire wire' c c' := by
  have hbytes := vectorBytes_plain hbatched
  have hplain : ∀ vector ∈ frames false false batches, vector.1 = false := by
    intro vector hvector
    rw [frames, mem_flatten] at hvector
    obtain ⟨l, hl, hvector⟩ := hvector
    obtain ⟨batch, -, rfl⟩ := mem_map.1 hl
    obtain ⟨bytes, -, rfl⟩ := mem_map.1 hvector
    rfl
  have hone : vectorBytes [(false, content)] = content := append_nil _
  obtain ⟨rest, hrest⟩ := hbatched.content
  have hle := h.le
  rw [hbytes] at hle
  refine ⟨?_, ?_, ?_⟩
  · rw [hone, ← hrest, length_append]
    exact hle.trans (Nat.le_add_right _ _)
  · rw [h.wire, hone, hbytes, ← hrest, take_append_of_le_length hle]
  · rw [h.confirmed, payloadTake_of_plain hplain]
    rfl

/-- **The loop of `perform`**, however it ends. -/
theorem writeLoop_sent {chunked payload : Bool} {bound : ℕ}
    {buffers : List Bytes} {remaining confirmed : ℕ} {written : Written}
    (h : writeLoop chunked payload bound events buffers remaining confirmed wire = some written)
    (hrem : remaining = buffers.flatten.length) :
    ∃ batches k, Sent (frames chunked payload batches) k wire written.wire confirmed
        written.confirmed ∧ Batched batches buffers.flatten ∧
      (written.outcome = .pending → k = (vectorBytes (frames chunked payload batches)).length ∧
        batches.flatten.flatten = buffers.flatten) := by
  induction bound generalizing events buffers remaining confirmed wire with
  | zero => cases h
  | succ bound ih =>
    rw [writeLoop] at h
    by_cases hzero : remaining = 0
    · rw [if_pos hzero] at h
      cases h
      have hnil : buffers.flatten = [] := length_eq_zero_iff.1 (hrem ▸ hzero)
      exact ⟨[], 0, .none _ _ _, .nil _, fun _ => ⟨rfl, hnil.symm⟩⟩
    · rw [if_neg hzero] at h
      have hne : buffers.flatten ≠ [] := by
        intro hnil
        rw [hnil] at hrem
        exact hzero hrem
      obtain ⟨hflat, hsize, hmax, hpiece⟩ := fillBatch_spec (if chunked then 63 else 64)
        (if chunked then 1 else 0) 0 (by split_ifs <;> decide) (by decide) buffers
      generalize fillBatch (if chunked then 63 else 64) (if chunked then 1 else 0) 0 buffers =
        filled at h hflat hsize hmax hpiece
      obtain ⟨vectors, batch, rest⟩ := filled
      simp only [Nat.zero_add] at h hflat hsize hmax hpiece
      subst hsize
      have hbatched : Batched [vectors] vectors.flatten := by
        refine ⟨?_, fun batch hbatch => ?_⟩
        · rw [flatten_singleton]
        · rw [mem_singleton.1 hbatch]
          exact ⟨hpiece hne, hmax⟩
      have hone : frames chunked payload [vectors] = frame chunked payload vectors :=
        append_nil _
      cases hsend : sendVectors events (frame chunked payload vectors) confirmed wire with
      | none =>
        rw [frame] at hsend
        rw [hsend] at h
        cases h
      | some sent =>
        obtain ⟨k, hsent, hall⟩ := sendVectors_sent hsend
        rw [frame] at hsend
        rw [hsend] at h
        simp only at h
        rw [← hone] at hsent hall
        split_ifs at h with hok
        · have hlen : remaining - vectors.flatten.length = rest.flatten.length := by
            rw [hrem, ← hflat, length_append, Nat.add_sub_cancel_left]
          obtain ⟨batches, k', hsent', hbatched', hdone⟩ := ih h hlen
          rw [hall hok] at hsent
          refine ⟨[vectors] ++ batches, (vectorBytes (frames chunked payload [vectors])).length + k',
            ?_, ?_, fun hp => ?_⟩
          · rw [frames_append]
            exact hsent.append hsent'
          · rw [← hflat]
            exact hbatched.append (by rw [flatten_singleton]) hbatched'
          · obtain ⟨hk', hcont⟩ := hdone hp
            rw [frames_append, vectorBytes_append, length_append, hk', ← hflat, ← hcont,
              flatten_append, flatten_append, flatten_singleton]
            exact ⟨rfl, rfl⟩
        · cases h
          refine ⟨[vectors], k, hsent, ⟨?_, hbatched.batch⟩, fun hp => absurd hp hok⟩
          rw [← hflat]
          exact hbatched.content.trans (prefix_append _ _)

/-! ### Operations -/

namespace BodyWriter

/-- What an operation has done, however it ended. -/
structure Attempted (w w' : BodyWriter) (op : WriterOperation) (buffers : List Bytes)
    (wire wire' : Bytes) (batches : List (List Bytes)) (k : ℕ) : Prop where
  framing : w'.framing = w.framing
  expected : w'.expected = w.expected
  sent : Sent (frames (op = .body && w.framing = .chunked) (op = .body) batches) k wire wire'
    w.confirmed w'.confirmed
  batched : Batched batches buffers.flatten
  done : w'.ok = true →
    k = (vectorBytes (frames (op = .body && w.framing = .chunked) (op = .body) batches)).length ∧
      batches.flatten.flatten = buffers.flatten
  reported : w.result.confirmedBodyBytes = w.confirmed →
    w'.result.confirmedBodyBytes = w'.confirmed
  bound : op = .body → ∀ n ∈ w.expected, w.confirmed ≤ n →
    w.confirmed + batches.flatten.flatten.length ≤ n

/-- An operation that was stopped before it began. -/
theorem Attempted.fail {w : BodyWriter} (hsound : w.Sound) (op : WriterOperation)
    (buffers : List Bytes) (wire : Bytes) {error : SendErrc} (herr : error ≠ .none)
    (errno : Errno) : Attempted w (w.fail error errno) op buffers wire wire [] 0 := by
  have hok := (fail_failed hsound error herr errno).2
  have hfields : (w.fail error errno).framing = w.framing ∧
      (w.fail error errno).expected = w.expected ∧
      (w.fail error errno).confirmed = w.confirmed ∧
      (w.result.confirmedBodyBytes = w.confirmed →
        (w.fail error errno).result.confirmedBodyBytes = w.confirmed) := by
    rw [BodyWriter.fail]
    split_ifs
    · exact ⟨rfl, rfl, rfl, fun h => h⟩
    · exact ⟨rfl, rfl, rfl, fun _ => rfl⟩
  obtain ⟨hframe, hexp, hconf, hreported⟩ := hfields
  exact
    { framing := hframe
      expected := hexp
      sent := by rw [hconf]; exact .none _ _ _
      batched := .nil _
      done := fun h => by rw [hok] at h; cases h
      reported := fun h => by rw [hconf]; exact hreported h
      bound := fun _ _ _ hle => hle }

theorem conclude_fields {w : BodyWriter} (hphase : w.phase ≠ .failed) (op : WriterOperation)
    (written : Written) :
    (w.conclude op written).framing = w.framing ∧ (w.conclude op written).expected = w.expected ∧
      (w.conclude op written).confirmed = written.confirmed ∧
      (w.conclude op written).result.confirmedBodyBytes = written.confirmed := by
  cases hout : written.outcome with
  | pending =>
    simp only [conclude, hout]
    exact ⟨trivial, trivial, trivial, trivial⟩
  | cancelled | timedOut | error errno =>
    simp only [conclude, hout, fail, if_neg hphase]
    exact ⟨trivial, trivial, trivial, trivial⟩

/-- **What an operation has done**, however it ended. -/
theorem perform_attempted {w w' : BodyWriter} (hsound : w.Sound) {buffers : List Bytes}
    {op : WriterOperation} {cancelled : Bool} {events events' : List TransportEvent}
    {wire wire' : Bytes}
    (h : w.perform buffers op cancelled events wire = some (w', wire', events')) :
    ∃ batches k, Attempted w w' op buffers wire wire' batches k := by
  -- the early returns are failures that write nothing
  have hfail : ∀ error errno, error ≠ SendErrc.none →
      some (w.fail error errno, wire, events) = some (w', wire', events') →
      ∃ batches k, Attempted w w' op buffers wire wire' batches k := by
    intro error errno herr hret
    cases hret
    exact ⟨[], 0, .fail hsound op buffers wire herr errno⟩
  rw [perform] at h
  split_ifs at h with h1 h2 h3 h4 h5 h6 h7
  · -- a failure before
    have hsame : w.fail .invalidState .none = w := by rw [BodyWriter.fail, if_pos h1]
    exact hfail .invalidState .none (by simp) (by rw [hsame]; exact h)
  · exact hfail .invalidState _ (by simp) h
  · exact hfail .cancelled _ (by simp) h
  · exact hfail .invalidResponse _ (by simp) h
  · exact hfail .lengthMismatch _ (by simp) h
  · exact hfail .invalidResponse _ (by simp) h
  · exact hfail .lengthMismatch _ (by simp) h
  · rw [Option.map_eq_some_iff] at h
    obtain ⟨written, hloop, heq⟩ := h
    obtain ⟨rfl, rfl, -⟩ := heq
    obtain ⟨batches, k, hsent, hbatched, hdone⟩ := writeLoop_sent hloop rfl
    obtain ⟨hwire, hconf⟩ := claimSuccess_same (buffers.flatten.length ≠ 0) written
    obtain ⟨hframe, hexp, hcnt, hreported⟩ := conclude_fields h1 op
      (claimSuccess (buffers.flatten.length ≠ 0) written)
    have hpend := (conclude_spec hsound h1 op
      (claimSuccess (buffers.flatten.length ≠ 0) written)).2
    refine ⟨batches, k,
      { framing := hframe
        expected := hexp
        sent := by rw [hwire, hcnt, hconf]; exact hsent
        batched := hbatched
        done := fun hok => hdone (claimSuccess_pending (hpend hok)).1
        reported := fun _ => by rw [hreported, hcnt]
        bound := ?_ }⟩
    rintro rfl n hn hle
    rw [Option.mem_def] at hn
    have htot : buffers.flatten.length ≤ n - w.confirmed := by simpa [hn] using h5
    have hprefix := hbatched.content.length_le
    omega

/-- An operation that sends no body sends its buffers as they are. -/
theorem Attempted.plain {w w' : BodyWriter} {op : WriterOperation} {content wire wire' : Bytes}
    {batches : List (List Bytes)} (h : Attempted w w' op [content] wire wire' batches k)
    (hop : op ≠ .body) :
    Sent [(false, content)] k wire wire' w.confirmed w'.confirmed ∧ w'.confirmed = w.confirmed ∧
      (w'.ok = true → k = content.length) := by
  have hbatched := h.batched
  have hsent := h.sent
  have hdone := h.done
  rw [flatten_singleton] at hbatched
  simp only [hop, decide_false, Bool.false_and, flatten_singleton] at hsent hdone
  have hplain := hsent.plain hbatched
  refine ⟨hplain, ?_, fun hok => ?_⟩
  · rw [hplain.confirmed]
    rfl
  · obtain ⟨hk, hall⟩ := hdone hok
    rw [hk, vectorBytes_plain hbatched, hall]

end BodyWriter

variable {calls : List (List Bytes × Bool)} {w : BodyWriter}

open BodyWriter in
/-- **What calls one after another have done**, however they ended. -/
theorem performAll_attempted {w' : BodyWriter} (hsound : w.Sound)
    (h : performAll w calls events wire = some (w', wire', events')) :
    w'.Sound ∧
      ∃ batches k, Attempted w w' .body (calls.map Prod.fst).flatten wire wire' batches k := by
  induction calls generalizing w events wire with
  | nil =>
    rw [performAll] at h
    obtain ⟨rfl, heq⟩ := Prod.mk.inj (Option.some.inj h)
    obtain ⟨rfl, -⟩ := Prod.mk.inj heq
    exact ⟨hsound, [], 0,
      { framing := rfl
        expected := rfl
        sent := .none _ _ _
        batched := .nil _
        done := fun _ => ⟨rfl, rfl⟩
        reported := fun h => h
        bound := fun _ _ _ hle => hle }⟩
  | cons call calls ih =>
    obtain ⟨buffers, cancelled⟩ := call
    rw [performAll] at h
    cases hfst : w.perform buffers .body cancelled events wire with
    | none =>
      rw [hfst] at h
      cases h
    | some result =>
      obtain ⟨w1, wire1, events1⟩ := result
      rw [hfst] at h
      simp only at h
      have hsound1 := (perform_spec hsound hfst).1
      obtain ⟨batches, k, h1⟩ := perform_attempted hsound hfst
      have hsplit : (((buffers, cancelled) :: calls).map Prod.fst).flatten =
          buffers ++ (calls.map Prod.fst).flatten := rfl
      rw [hsplit]
      by_cases hok1 : w1.ok = true
      · obtain ⟨hsound', batches', k', h2⟩ := ih hsound1 h
        obtain ⟨hk, hcont⟩ := h1.done hok1
        subst hk
        have hsent' := h2.sent
        have hdone' := h2.done
        rw [h1.framing] at hsent' hdone'
        have hconf : w1.confirmed = w.confirmed + batches.flatten.flatten.length := by
          have hcnt := h1.sent.confirmed
          have hall := payloadTake_frames (w.framing = .chunked) batches le_rfl
          simp only [decide_true, Bool.true_and] at hcnt
          rw [hcnt, hall]
        refine ⟨hsound', batches ++ batches', _,
          { framing := h2.framing.trans h1.framing
            expected := h2.expected.trans h1.expected
            sent := by rw [frames_append]; exact h1.sent.append hsent'
            batched := by
              rw [flatten_append]
              exact h1.batched.append hcont h2.batched
            done := fun hok => ?_
            reported := fun hr => h2.reported (h1.reported hr)
            bound := fun _ n hn hle => ?_ }⟩
        · obtain ⟨hk', hcontent'⟩ := hdone' hok
          rw [frames_append, vectorBytes_append, length_append, hk', flatten_append,
            flatten_append, flatten_append, hcont, hcontent']
          exact ⟨rfl, rfl⟩
        · have hle1 := h1.bound rfl n hn hle
          have hle2 := h2.bound rfl n (by rw [h1.expected]; exact hn) (by omega)
          rw [flatten_append, flatten_append, length_append]
          omega
      · -- the failure stays, and nothing follows
        have hbad : w1.ok = false := by simpa using hok1
        rw [performAll_failed (hsound1.2 hbad)] at h
        obtain ⟨rfl, heq⟩ := Prod.mk.inj (Option.some.inj h)
        obtain ⟨rfl, -⟩ := Prod.mk.inj heq
        refine ⟨hsound1, batches, k,
          { h1 with
            batched := ⟨?_, h1.batched.batch⟩
            done := fun hok => absurd hok hok1 }⟩
        rw [flatten_append]
        exact h1.batched.content.trans (prefix_append _ _)

/-! ### One reply -/

/-- The headers and the calls, up to the ending. -/
def afterCalls (plan : ResponsePlan) (entries : List (Bytes × Bytes)) (cancelled : Bool)
    (calls : List (List Bytes × Bool)) (events : List TransportEvent) :
    Option (BodyWriter × Bytes × List TransportEvent) := do
  let (w, wire, events) ← (BodyWriter.create plan).perform [plan.headerBlock entries] .headers
    cancelled events []
  performAll w calls events wire

/-- `send_response` is the calls and the ending: calls behind headers that failed have no effect. -/
theorem sendCalls_eq (plan : ResponsePlan) (entries : List (Bytes × Bytes)) (cancelled : Bool)
    (calls : List (List Bytes × Bool)) (produced : SendResult) (finishCancelled : Bool)
    (events : List TransportEvent) :
    sendCalls plan entries cancelled calls produced finishCancelled events =
      (afterCalls plan entries cancelled calls events).bind fun (w, wire, events) =>
        if produced.error ≠ .none then some (w.fail produced.error produced.transportError, wire)
        else if !w.ok then some (w, wire)
        else (w.perform [ending w.framing] .finish finishCancelled events wire).bind
          fun (w, wire, _) => some (w, wire) := by
  rw [sendCalls, afterCalls]
  cases hhead : (BodyWriter.create plan).perform [plan.headerBlock entries] .headers cancelled events
      [] with
  | none => rfl
  | some result =>
    obtain ⟨w, wire, events⟩ := result
    simp only [Option.bind_eq_bind, Option.bind_some]
    by_cases hok : (!w.ok) = true
    · have hsound := (BodyWriter.perform_spec (BodyWriter.sound_create plan) hhead).1
      have hfailed : w.phase = .failed := hsound.2 (by simpa using hok)
      rw [performAll_failed hfailed, Option.bind_some]
      simp only [BodyWriter.fail, if_pos hfailed, if_pos hok, ite_self]
    · rw [if_neg hok]

theorem performAll_append (w : BodyWriter) (calls calls' : List (List Bytes × Bool))
    (events : List TransportEvent) (wire : Bytes) :
    performAll w (calls ++ calls') events wire =
      (performAll w calls events wire).bind fun (w, wire, events) =>
        performAll w calls' events wire := by
  induction calls generalizing w events wire with
  | nil => rfl
  | cons call calls ih =>
    obtain ⟨buffers, cancelled⟩ := call
    rw [cons_append, performAll, performAll]
    cases w.perform buffers .body cancelled events wire with
    | none => rfl
    | some result => exact ih result.1 result.2.2 result.2.1

/-- What the transport is to be given before the ending. -/
def opening (plan : ResponsePlan) (entries : List (Bytes × Bytes)) (batches : List (List Bytes)) :
    List (Bool × Bytes) :=
  (false, plan.headerBlock entries) :: frames (plan.framing = .chunked) true batches

/-- What the transport is to be given. -/
def script (plan : ResponsePlan) (entries : List (Bytes × Bytes)) (batches : List (List Bytes)) :
    List (Bool × Bytes) :=
  opening plan entries batches ++ [(false, ending plan.framing)]

/-- What is known of the reply between its calls and its ending. -/
structure Opened (plan : ResponsePlan) (entries : List (Bytes × Bytes)) (content : Bytes)
    (w : BodyWriter) (wire : Bytes) (batches : List (List Bytes)) (k : ℕ) : Prop where
  sound : w.Sound
  framing : w.framing = plan.framing
  sent : Sent (opening plan entries batches) k [] wire 0 w.confirmed
  batched : Batched batches content
  done : w.ok = true → k = (vectorBytes (opening plan entries batches)).length ∧
    batches.flatten.flatten = content
  reported : w.result.confirmedBodyBytes = w.confirmed
  bound : ∀ n ∈ plan.expectedBodyBytes, batches.flatten.flatten.length ≤ n

variable {plan : ResponsePlan} {entries : List (Bytes × Bytes)} {cancelled : Bool}

theorem afterCalls_opened
    (h : afterCalls plan entries cancelled calls events = some (w, wire, events')) :
    w.expected = plan.expectedBodyBytes ∧ ∃ batches k,
      Opened plan entries (calls.map Prod.fst).flatten.flatten w wire batches k := by
  obtain ⟨⟨w1, wire1, events1⟩, hhead, hbody⟩ := Option.bind_eq_some_iff.1 h
  dsimp only at hbody
  have hsound1 := (BodyWriter.perform_spec (BodyWriter.sound_create plan) hhead).1
  obtain ⟨batches, k, h1⟩ := BodyWriter.perform_attempted (BodyWriter.sound_create plan) hhead
  have hone : vectorBytes [(false, plan.headerBlock entries)] = plan.headerBlock entries :=
    append_nil _
  obtain ⟨hsent1, hzero, hfull⟩ := h1.plain nofun
  obtain ⟨hsound, batches', k', h2⟩ := performAll_attempted hsound1 hbody
  have hexp : w1.expected = plan.expectedBodyBytes := h1.expected
  refine ⟨h2.expected.trans hexp, ?_⟩
  by_cases hok1 : w1.ok = true
  · -- the header block is on the wire, and nothing of the body is counted
    have hk := hfull hok1
    rw [← hone] at hk
    subst hk
    replace hzero : w1.confirmed = 0 := hzero
    have hframe : w1.framing = plan.framing := h1.framing
    have hsent' := h2.sent
    have hdone' := h2.done
    simp only [decide_true, Bool.true_and, hframe] at hsent' hdone'
    refine ⟨batches', _,
      { sound := hsound
        framing := h2.framing.trans hframe
        sent := hsent1.append hsent'
        batched := h2.batched
        done := fun hok => ?_
        reported := h2.reported (h1.reported rfl)
        bound := fun n hn => ?_ }⟩
    · obtain ⟨hk', hcontent'⟩ := hdone' hok
      refine ⟨?_, hcontent'⟩
      rw [hone, opening, vectorBytes_cons, length_append, hk']
    · have hle := h2.bound rfl n (by rw [hexp]; exact hn) (by rw [hzero]; exact Nat.zero_le _)
      rwa [hzero, Nat.zero_add] at hle
  · -- headers that failed: the calls had no effect
    have hbad : w1.ok = false := by simpa using hok1
    rw [performAll_failed (hsound1.2 hbad)] at hbody
    cases hbody
    exact ⟨[], k,
      { sound := hsound1
        framing := h1.framing
        sent := hsent1
        batched := .nil _
        done := fun hok => absurd hok hok1
        reported := h1.reported rfl
        bound := fun _ _ => Nat.zero_le _ }⟩

/-- What is known of a reply, however it ended. -/
structure Transmitted (plan : ResponsePlan) (entries : List (Bytes × Bytes)) (content : Bytes)
    (produced : SendResult) (w : BodyWriter) (wire : Bytes) (batches : List (List Bytes)) (k : ℕ) :
    Prop where
  sent : Sent (script plan entries batches) k [] wire 0 w.confirmed
  batched : Batched batches content
  reported : w.result.confirmedBodyBytes = w.confirmed
  bound : ∀ n ∈ plan.expectedBodyBytes, batches.flatten.flatten.length ≤ n
  ended : (vectorBytes (opening plan entries batches)).length < k →
    produced.error = .none ∧ batches.flatten.flatten = content

variable {produced : SendResult}

/-- **What is on the wire, however the sending has ended**: a part of the header block, the coded
batches of a part of the content, and the ending, from the front; and the ending is begun only when
the content is there and the producer is content. -/
theorem sendCalls_sent {finishCancelled : Bool}
    (h : sendCalls plan entries cancelled calls produced finishCancelled events = some (w, wire)) :
    ∃ batches k,
      Transmitted plan entries (calls.map Prod.fst).flatten.flatten produced w wire batches k := by
  rw [sendCalls_eq] at h
  obtain ⟨⟨w1, wire1, events1⟩, hcalls, hend⟩ := Option.bind_eq_some_iff.1 h
  obtain ⟨-, batches, k, h1⟩ := afterCalls_opened hcalls
  dsimp only at hend
  -- without an ending
  have hopen : ∀ w' : BodyWriter, w'.confirmed = w1.confirmed →
      w'.result.confirmedBodyBytes = w'.confirmed →
      Transmitted plan entries (calls.map Prod.fst).flatten.flatten produced w' wire1 batches k := by
    intro w' hconf hreported
    exact
      { sent := by rw [hconf]; exact h1.sent.more _
        batched := h1.batched
        reported := hreported
        bound := h1.bound
        ended := fun hlt => absurd h1.sent.le (Nat.not_le_of_lt hlt) }
  by_cases hprod : produced.error ≠ .none
  · rw [if_pos hprod] at hend
    cases hend
    have hfailed := BodyWriter.Attempted.fail h1.sound .finish [] [] hprod
      produced.transportError
    have hconf : (w1.fail produced.error produced.transportError).confirmed = w1.confirmed := by
      rw [hfailed.sent.confirmed]
      rfl
    exact ⟨batches, k, hopen _ hconf (hfailed.reported h1.reported)⟩
  · rw [if_neg hprod] at hend
    by_cases hok : (!w1.ok) = true
    · rw [if_pos hok] at hend
      cases hend
      exact ⟨batches, k, hopen _ rfl h1.reported⟩
    · rw [if_neg hok] at hend
      obtain ⟨⟨w2, wire2, events2⟩, hfinish, heq⟩ := Option.bind_eq_some_iff.1 hend
      obtain ⟨rfl, rfl⟩ : w2 = w ∧ wire2 = wire := by simpa using heq
      obtain ⟨batches2, k2, h2⟩ := BodyWriter.perform_attempted h1.sound hfinish
      obtain ⟨hk, hcont⟩ := h1.done (by simpa using hok)
      subst hk
      have hsent2 := (h2.plain nofun).1
      rw [h1.framing] at hsent2
      exact ⟨batches, _,
        { sent := h1.sent.append hsent2
          batched := h1.batched
          reported := h2.reported h1.reported
          bound := h1.bound
          ended := fun _ => ⟨not_not.1 hprod, hcont⟩ }⟩

/-- **What a successful reply has put on the wire**: the header block, the body in the coding of the
plan, and the ending; and the body is as long as the plan expects. -/
theorem sendCalls_ok {finishCancelled : Bool}
    (h : sendCalls plan entries cancelled calls produced finishCancelled events = some (w, wire))
    (hok : w.ok = true) :
    ∃ encoded, wire = plan.headerBlock entries ++ encoded ++ ending plan.framing ∧
      Encoded (plan.framing = .chunked) (calls.map Prod.fst).flatten.flatten encoded ∧
      ∀ expected ∈ plan.expectedBodyBytes,
        (calls.map Prod.fst).flatten.flatten.length = expected := by
  rw [sendCalls_eq] at h
  obtain ⟨⟨w1, wire1, events1⟩, hcalls, hend⟩ := Option.bind_eq_some_iff.1 h
  obtain ⟨hsame, batches, k, h1⟩ := afterCalls_opened hcalls
  dsimp only at hend
  split_ifs at hend with hprod hok1
  · cases hend
    rw [(BodyWriter.fail_failed h1.sound _ hprod _).2] at hok
    cases hok
  · cases hend
    simp [hok] at hok1
  · obtain ⟨⟨w2, wire2, events2⟩, hfinish, heq⟩ := Option.bind_eq_some_iff.1 hend
    obtain ⟨rfl, rfl⟩ : w2 = w ∧ wire2 = wire := by simpa using heq
    obtain ⟨batches2, k2, h2⟩ := BodyWriter.perform_attempted h1.sound hfinish
    obtain ⟨hsent2, -, hk2⟩ := h2.plain nofun
    obtain ⟨hk, hcont⟩ := h1.done (by simpa using hok1)
    have hone : vectorBytes [(false, ending w1.framing)] = ending w1.framing := append_nil _
    refine ⟨vectorBytes (frames (plan.framing = .chunked) true batches), ?_,
      hcont ▸ encoded_frames _ true h1.batched, fun expected hexp => ?_⟩
    · rw [hsent2.wire, hk2 hok, hone, take_length, h1.sent.wire, hk, take_length, h1.framing]
      rfl
    · -- the ending has compared the bytes that were counted
      have htot := (BodyWriter.perform_spec h1.sound hfinish).2 hok rfl expected
        (hsame ▸ hexp)
      have hbody : payloadTake k (opening plan entries batches) = batches.flatten.flatten := by
        rw [hk, opening, payloadTake, if_neg nofun, nil_append, vectorBytes_cons,
          length_append, Nat.add_sub_cancel_left, payloadTake_frames _ _ le_rfl]
      rw [← htot, h1.sent.confirmed, hbody, hcont, Nat.zero_add]

theorem sendReply_ok {reply : Reply}
    (h : sendReply reply plan entries cancelled events = some (w, wire)) (hok : w.ok = true) :
    ∃ encoded, wire = plan.headerBlock entries ++ encoded ++ ending plan.framing ∧
      Encoded (plan.framing = .chunked) (reply.calls plan).flatten.flatten encoded ∧
      ∀ expected ∈ plan.expectedBodyBytes,
        (reply.calls plan).flatten.flatten.length = expected := by
  have hcalls := sendCalls_ok h hok
  have hbuffers : ((reply.calls plan).map fun buffers => (buffers, cancelled)).map Prod.fst =
      reply.calls plan := by
    rw [map_map]
    exact map_id _
  rwa [hbuffers] at hcalls

/-- **After the first failure no further byte is written, and the first error stays.** -/
theorem sendCalls_of_failed
    (h : afterCalls plan entries cancelled calls events = some (w, wire, events'))
    (hfailed : w.ok = false) (calls' : List (List Bytes × Bool)) (produced : SendResult)
    (finishCancelled : Bool) :
    sendCalls plan entries cancelled (calls ++ calls') produced finishCancelled events =
      some (w, wire) := by
  obtain ⟨-, _, _, hopened⟩ := afterCalls_opened h
  have hphase : w.phase = .failed := hopened.sound.2 hfailed
  have hmore : afterCalls plan entries cancelled (calls ++ calls') events =
      some (w, wire, events') := by
    rw [afterCalls] at h ⊢
    obtain ⟨⟨w1, wire1, events1⟩, hhead, hbody⟩ := Option.bind_eq_some_iff.1 h
    simp only [hhead, Option.bind_eq_bind, Option.bind_some, performAll_append, hbody]
    exact performAll_failed hphase calls' events' wire
  rw [sendCalls_eq, hmore, Option.bind_some]
  dsimp only
  rw [hfailed, BodyWriter.fail, if_pos hphase]
  simp only [Bool.not_false, if_true, ite_self]

/-- **A producer that reports an error is the end**, and its error is reported unless there was one
before. -/
theorem sendCalls_of_producerError
    (h : afterCalls plan entries cancelled calls events = some (w, wire, events'))
    (hprod : produced.error ≠ .none) (finishCancelled : Bool) :
    sendCalls plan entries cancelled calls produced finishCancelled events =
      some (w.fail produced.error produced.transportError, wire) := by
  rw [sendCalls_eq, h]
  exact if_pos hprod

end Elio.Http
