/-
**`elio::rpc`: what is sent is what is received.**

Each `deserialize` reads exactly what its `serialize` has written, and gives the value back.  The
induction is over the schema; for a container the check of the count has to let the genuine count
pass, and that rests on `min_wire_size` being a lower bound for what the elements take.

It is no such bound for a struct without fields.  The default of `min_wire_size` is one byte, the
struct takes none, and the check turns down a container of such structs.

Main definitions:

* `Inverts` — a reader gives back what a writer has written;
* `tight` — `min_wire_size` is a lower bound;
* `guarded` — it is one wherever a count is checked against it;
* `Fits` — no container has more elements than the cap.

Main results:

* `round_trip` — **what is sent is what is received**;
* `count_guard_accepts` — **the check of a count turns no genuine encoding down**, where
  `min_wire_size` is a lower bound;
* `emptyStructs_rejected` — a vector of structs without fields is turned down.
-/

import Elio.RpcTypes

set_option autoImplicit false

namespace Elio.Rpc

open List

variable {α β : Type}

/-! ### Buffers -/

/-- A reader gives back what a writer has written for `x`, and reads nothing else. -/
def Inverts (write : α → Except String (List UInt8)) (read : Reader α) (x : α) : Prop :=
  ∀ w, write x = .ok w → ∀ r, read (w ++ r) = .ok (x, r)

/-- What a writer writes takes at least `n` bytes. -/
def AtLeast (write : α → Except String (List UInt8)) (n : ℕ) : Prop :=
  ∀ x w, write x = .ok w → n ≤ w.length

theorem bind_ok {ε : Type} {x : Except ε α} {f : α → Except ε β} {b : β}
    (h : (x >>= f) = .ok b) : ∃ a, x = .ok a ∧ f a = .ok b := by
  cases x with
  | error e => cases h
  | ok a => exact ⟨a, rfl, h⟩

theorem bind_of_ok {read : Reader α} {f : α → Reader β} {bs rest : List UInt8} {x : α}
    (h : read bs = .ok (x, rest)) : (read >>= f) bs = f x rest := by
  change (read bs >>= fun p => f p.1 p.2) = _
  rw [h]
  rfl

theorem readBytes_append (w r : List UInt8) (error : String) :
    readBytes w.length error (w ++ r) = .ok (w, r) := by
  rw [readBytes, if_neg (by rw [length_append]; omega), take_left, drop_left]

theorem read_leBytes (width n : ℕ) (r : List UInt8) :
    read width (leBytes width n ++ r) = .ok (n % 256 ^ width, r) := by
  have hbytes := readBytes_append (leBytes width n) r "read past end of buffer"
  rw [length_leBytes] at hbytes
  rw [read, bind_of_ok hbytes, leNat_leBytes]
  rfl

variable {n : ℕ}

theorem readArraySize_write (hn : n < 2 ^ 32) (r : List UInt8) :
    readArraySize (writeArraySize n ++ r) = .ok (n, r) := by
  rw [readArraySize, writeArraySize, read_leBytes, Nat.mod_eq_of_lt (by omega)]

/-- A count that the elements have room for passes the check. -/
theorem checkContainerCount_ok {minElemSize count : ℕ} {rest : List UInt8}
    (hcap : count ≤ maxContainerCount) (hroom : count * minElemSize ≤ rest.length) :
    checkContainerCount minElemSize count rest = .ok ((), rest) := by
  rw [checkContainerCount, if_neg (not_lt.2 hcap), if_neg]
  rintro ⟨hpos, hlt⟩
  have := (Nat.le_div_iff_mul_le hpos).2 hroom
  omega

theorem four_le_length (n : ℕ) (body : List UInt8) : 4 ≤ (leBytes 4 n ++ body).length := by
  rw [length_append]
  exact Nat.le_add_right _ _

theorem maxContainerCount_lt : maxContainerCount < 2 ^ 32 := by decide

/-! ### Primitives -/

theorem Primitive.length_write (p : Primitive α) (x : α) : (p.write x).length = p.size := by
  cases p <;> exact length_leBytes _ _

theorem Primitive.size_pos (p : Primitive α) : 0 < p.size := by
  cases p with
  | bool => exact Nat.one_pos
  | word w => cases w <;> decide

theorem Primitive.inverts (p : Primitive α) (x : α) (r : List UInt8) :
    (do let n ← read p.size; return p.ofNat n : Reader α) (p.write x ++ r) = .ok (x, r) := by
  cases p with
  | bool =>
    cases x <;> rfl
  | word w =>
    refine (bind_of_ok (read_leBytes w.bytes _ r)).trans ?_
    have hlt : x.toNat < 256 ^ w.bytes := by
      have := x.isLt
      rw [Nat.pow_mul] at this
      exact this
    rw [Nat.mod_eq_of_lt hlt]
    change Except.ok (BitVec.ofNat _ x.toNat, r) = _
    rw [BitVec.ofNat_toNat, BitVec.setWidth_eq]

/-! ### Strings and containers -/

variable {w : List UInt8}

theorem readString_writeString {s : List UInt8} (h : writeString s = .ok w) (r : List UInt8) :
    readString (w ++ r) = .ok (s, r) := by
  rw [writeString] at h
  split_ifs at h with hlong
  cases h
  rw [readString, append_assoc, bind_of_ok (read_leBytes 4 _ _), Nat.mod_eq_of_lt (by omega)]
  exact readBytes_append s r _

theorem readBlob_write {bs : List UInt8} (h : bs.length < 2 ^ 32) (r : List UInt8) :
    readBlob (writeArraySize bs.length ++ bs ++ r) = .ok (bs, r) := by
  rw [readBlob, writeArraySize, append_assoc, bind_of_ok (read_leBytes 4 _ _),
    Nat.mod_eq_of_lt (by omega)]
  exact readBytes_append bs r _

section Containers

variable {write : α → Except String (List UInt8)} {read : Reader α}

theorem writeAll_cons {x : α} {xs : List α} (h : writeAll write (x :: xs) = .ok w) :
    ∃ a b, write x = .ok a ∧ writeAll write xs = .ok b ∧ w = a ++ b := by
  obtain ⟨a, ha, h⟩ := bind_ok h
  obtain ⟨b, hb, h⟩ := bind_ok h
  cases h
  exact ⟨a, b, ha, hb, rfl⟩

/-- Elements of at least `n` bytes each take at least that together. -/
theorem writeAll_length (hwrite : AtLeast write n) (xs : List α) :
    ∀ w, writeAll write xs = .ok w → xs.length * n ≤ w.length := by
  induction xs with
  | nil => intro w _; rw [length_nil, Nat.zero_mul]; exact Nat.zero_le _
  | cons x xs ih =>
    intro w h
    obtain ⟨a, b, ha, hb, rfl⟩ := writeAll_cons h
    have hfst := hwrite x a ha
    have hrest := ih b hb
    rw [length_cons, length_append, Nat.succ_mul]
    omega

theorem readAll_writeAll (xs : List.Vector α n) (hread : ∀ x ∈ xs.toList, Inverts write read x) :
    ∀ w, writeAll write xs.toList = .ok w → ∀ r, readAll read n (w ++ r) = .ok (xs, r) := by
  induction n with
  | zero =>
    intro w h r
    obtain ⟨l, hl⟩ := xs
    obtain rfl := length_eq_zero_iff.1 hl
    cases h
    rfl
  | succ n ih =>
    intro w h r
    obtain ⟨l, hl⟩ := xs
    obtain ⟨x, xs, rfl⟩ := exists_cons_of_length_eq_add_one hl
    obtain ⟨a, b, ha, hb, rfl⟩ := writeAll_cons h
    have hlen : xs.length = n := Nat.succ.inj hl
    have hfst := hread x mem_cons_self a ha (b ++ r)
    have hrest := ih ⟨xs, hlen⟩ (forall_mem_cons.1 hread).2 b hb r
    rw [append_assoc, readAll, bind_of_ok hfst, bind_of_ok hrest]
    rfl

variable {same : α → α → Bool} {writeValue : β → Except String (List UInt8)}
  {readValue : Reader β}

theorem writeEntry_ok {e : α × β} (h : writeEntry write writeValue e = .ok w) :
    ∃ a b, write e.1 = .ok a ∧ writeValue e.2 = .ok b ∧ w = a ++ b := by
  obtain ⟨a, ha, h⟩ := bind_ok h
  obtain ⟨b, hb, h⟩ := bind_ok h
  cases h
  exact ⟨a, b, ha, hb, rfl⟩

theorem AtLeast.entry {m : ℕ} (hkey : AtLeast write m) (hval : AtLeast writeValue n) :
    AtLeast (writeEntry write writeValue) (m + n) := by
  intro e w h
  obtain ⟨a, b, ha, hb, rfl⟩ := writeEntry_ok h
  rw [length_append]
  exact Nat.add_le_add (hkey _ a ha) (hval _ b hb)

theorem emplace_entries {m : MapOf same β} {key : α} {value : β}
    (h : ∀ e ∈ m.entries, same e.1 key = false) :
    (m.emplace key value).entries = m.entries ++ [(key, value)] := by
  have hany : ¬ m.entries.any (fun e => same e.1 key) = true := by
    intro hany
    obtain ⟨e, he, hsame⟩ := any_eq_true.1 hany
    rw [h e he] at hsame
    cases hsame
  rw [MapOf.emplace, dif_neg hany]

/-- The entries of a map come back in the order in which they were sent, after those that are there
already. -/
theorem readEntries_writeAll (es : List (α × β))
    (hkey : ∀ e ∈ es, Inverts write read e.1)
    (hval : ∀ e ∈ es, Inverts writeValue readValue e.2) :
    ∀ (m : MapOf same β) (m' : MapOf same β) (w r : List UInt8),
      m'.entries = m.entries ++ es → writeAll (writeEntry write writeValue) es = .ok w →
      readEntries read readValue es.length m (w ++ r) = .ok (m', r) := by
  induction es with
  | nil =>
    intro m m' w r hents h
    cases h
    obtain ⟨entries, distinct⟩ := m
    rw [append_nil] at hents
    cases hents
    rfl
  | cons e es ih =>
    intro m m' w r hents h
    obtain ⟨a, b, ha, hb, rfl⟩ := writeAll_cons h
    obtain ⟨k, v, hk, hv, rfl⟩ := writeEntry_ok ha
    have hfst := hkey e mem_cons_self k hk (v ++ (b ++ r))
    have hsnd := hval e mem_cons_self v hv (b ++ r)
    -- the key of the new entry is not the same as that of an earlier one
    have hnew : ∀ f ∈ m.entries, same f.1 e.1 = false := by
      intro f hf
      have hdistinct := m'.distinct
      rw [hents, pairwise_append] at hdistinct
      exact hdistinct.2.2 f hf e mem_cons_self
    have hrest := ih (forall_mem_cons.1 hkey).2
      (forall_mem_cons.1 hval).2 (m.emplace e.1 e.2) m' b r
      (by rw [hents, emplace_entries hnew, append_assoc]; rfl) hb
    rw [length_cons, readEntries, append_assoc, append_assoc,
      bind_of_ok hfst, bind_of_ok hsnd]
    exact hrest

end Containers

/-! ### Lower bounds -/

mutual

/-- What is not of zero width takes at least one byte. -/
theorem atLeast_one : {α : Type} → (s : Schema α) → zeroWidth s = false → AtLeast (serialize s) 1
  | _, .primitive p, _ => fun x w h => by
    cases h
    rw [p.length_write]
    exact p.size_pos
  | _, .string, _ => fun x w h => by
    rw [serialize, writeString] at h
    split_ifs at h
    cases h
    exact Nat.one_le_of_lt (four_le_length _ _)
  | _, .bytes, _ => fun x w h => by
    cases h
    exact Nat.one_le_of_lt (four_le_length _ _)
  | _, .vector element, _ => fun x w h => by
    rw [serialize] at h
    obtain ⟨body, -, h⟩ := bind_ok h
    cases h
    exact Nat.one_le_of_lt (four_le_length _ _)
  | _, .array element n, hwidth => fun x w h => by
    rw [zeroWidth, Bool.or_eq_false_iff, decide_eq_false_iff_not] at hwidth
    have := writeAll_length (atLeast_one element hwidth.2) _ w h
    rw [x.toList_length] at this
    omega
  | _, .map same key value, _ => fun x w h => by
    rw [serialize] at h
    obtain ⟨body, -, h⟩ := bind_ok h
    cases h
    exact Nat.one_le_of_lt (four_le_length _ _)
  | _, .optional value, _ => fun x w h => by
    cases x with
    | none =>
      cases h
      exact le_rfl
    | some y =>
      obtain ⟨body, -, h⟩ := bind_ok h
      cases h
      rw [length_cons]
      omega
  | _, .struct fields, hwidth => atLeast_one_fields fields hwidth

theorem atLeast_one_fields : {α : Type} → (fs : Fields α) → zeroWidthFields fs = false →
    AtLeast (serializeFields fs) 1
  | _, .none, hwidth => nomatch hwidth
  | _, .field first rest, hwidth => fun x w h => by
    rw [serializeFields] at h
    obtain ⟨a, ha, h⟩ := bind_ok h
    obtain ⟨b, hb, h⟩ := bind_ok h
    cases h
    rw [length_append]
    rw [zeroWidthFields, Bool.and_eq_false_iff] at hwidth
    rcases hwidth with hwidth | hwidth
    · have := atLeast_one first hwidth _ a ha
      omega
    · have := atLeast_one_fields rest hwidth _ b hb
      omega

end

/-- `min_wire_size` is a lower bound: no struct without bytes stands for more than that. -/
def tight : {α : Type} → Schema α → Bool
  | _, .array element n => n = 0 || tight element
  | _, .struct fields => !zeroWidthFields fields
  | _, .primitive _ | _, .string | _, .bytes | _, .vector _ | _, .map _ _ _ | _, .optional _ => true

/-- **`min_wire_size` is a lower bound** for what the values of such a type take. -/
theorem minWireSize_le : {α : Type} → (s : Schema α) → tight s = true →
    AtLeast (serialize s) (minWireSize s)
  | _, .primitive p, _ => fun x w h => by
    cases h
    exact (p.length_write x).ge
  | _, .string, _ => fun x w h => by
    rw [serialize, writeString] at h
    split_ifs at h
    cases h
    exact four_le_length _ _
  | _, .bytes, _ => fun x w h => by
    cases h
    exact four_le_length _ _
  | _, .vector element, _ => fun x w h => by
    rw [serialize] at h
    obtain ⟨body, -, h⟩ := bind_ok h
    cases h
    exact four_le_length _ _
  | _, .array element n, htight => fun x w h => by
    rw [minWireSize]
    rw [tight, Bool.or_eq_true, decide_eq_true_eq] at htight
    rcases htight with rfl | htight
    · rw [Nat.zero_mul]
      exact Nat.zero_le _
    · have := writeAll_length (minWireSize_le element htight) _ w h
      rwa [x.toList_length] at this
  | _, .map same key value, _ => fun x w h => by
    rw [serialize] at h
    obtain ⟨body, -, h⟩ := bind_ok h
    cases h
    exact four_le_length _ _
  | _, .optional value, _ => atLeast_one (.optional value) rfl
  | _, .struct fields, htight => atLeast_one_fields fields (by simpa [tight] using htight)

/-! ### The round trip -/

mutual

/-- `min_wire_size` is a lower bound wherever a count is checked against it. -/
def guarded : {α : Type} → Schema α → Bool
  | _, .vector element => tight element && guarded element
  | _, .array element _ => guarded element
  | _, .map _ key value => (tight key && tight value) && (guarded key && guarded value)
  | _, .optional value => guarded value
  | _, .struct fields => guardedFields fields
  | _, .primitive _ | _, .string | _, .bytes => true

def guardedFields : {α : Type} → Fields α → Bool
  | _, .none => true
  | _, .field first rest => guarded first && guardedFields rest

end

mutual

/-- No container in the value has more elements than the cap. -/
def Fits : {α : Type} → Schema α → α → Prop
  | _, .bytes, bs => bs.length ≤ maxContainerCount
  | _, .vector element, xs => xs.length ≤ maxContainerCount ∧ ∀ x ∈ xs, Fits element x
  | _, .array element _, xs => ∀ x ∈ xs.toList, Fits element x
  | _, .map _ key value, m =>
    m.entries.length ≤ maxContainerCount ∧ ∀ e ∈ m.entries, Fits key e.1 ∧ Fits value e.2
  | _, .optional value, x => ∀ y, x = some y → Fits value y
  | _, .struct fields, x => FitsFields fields x
  | _, .primitive _, _ | _, .string, _ => True

def FitsFields : {α : Type} → Fields α → α → Prop
  | _, .none, _ => True
  | _, .field first rest, x => Fits first x.1 ∧ FitsFields rest x.2

end

mutual

/-- **`deserialize` gives back what `serialize` has written**, and stops behind it. -/
theorem inverts : {α : Type} → (s : Schema α) → guarded s = true → (x : α) → Fits s x →
    Inverts (serialize s) (deserialize s) x
  | _, .primitive p, _, x, _ => fun w h r => by
    cases h
    exact p.inverts x r
  | _, .string, _, x, _ => fun w h r => readString_writeString h r
  | _, .bytes, _, x, hfits => fun w h r => by
    cases h
    exact readBlob_write (lt_of_le_of_lt hfits maxContainerCount_lt) r
  | _, .vector element, hguarded, x, hfits => fun w h r => by
    rw [guarded, Bool.and_eq_true] at hguarded
    obtain ⟨body, hbody, h⟩ := bind_ok h
    cases h
    have hroom := writeAll_length (minWireSize_le element hguarded.1) x body hbody
    have hread := readAll_writeAll ⟨x, rfl⟩
      (fun y hy => inverts element hguarded.2 y (hfits.2 y hy)) body hbody r
    rw [deserialize, append_assoc,
      bind_of_ok (readArraySize_write (hfits.1.trans_lt maxContainerCount_lt) _),
      bind_of_ok (checkContainerCount_ok hfits.1 (by rw [length_append]; omega)),
      bind_of_ok hread]
    rfl
  | _, .array element n, hguarded, x, hfits => fun w h r =>
    readAll_writeAll x (fun y hy => inverts element hguarded y (hfits y hy)) w h r
  | _, .map same key value, hguarded, x, hfits => fun w h r => by
    rw [guarded, Bool.and_eq_true, Bool.and_eq_true, Bool.and_eq_true] at hguarded
    obtain ⟨⟨htightKey, htightValue⟩, hkey, hval⟩ := hguarded
    obtain ⟨body, hbody, h⟩ := bind_ok h
    cases h
    have hroom := writeAll_length
      ((minWireSize_le key htightKey).entry (minWireSize_le value htightValue)) _ body hbody
    have hread := readEntries_writeAll x.entries
      (fun e he => inverts key hkey e.1 (hfits.2 e he).1)
      (fun e he => inverts value hval e.2 (hfits.2 e he).2) ⟨[], .nil⟩ x body r rfl hbody
    rw [deserialize, append_assoc,
      bind_of_ok (readArraySize_write (hfits.1.trans_lt maxContainerCount_lt) _),
      bind_of_ok (checkContainerCount_ok hfits.1 (by rw [length_append]; omega))]
    exact hread
  | _, .optional value, hguarded, x, hfits => fun w h r => by
    cases x with
    | none =>
      cases h
      exact bind_of_ok (read_leBytes 1 0 r)
    | some y =>
      obtain ⟨body, hbody, h⟩ := bind_ok h
      cases h
      have hread := inverts value hguarded y (hfits y rfl) body hbody r
      refine (bind_of_ok (read_leBytes 1 1 (body ++ r))).trans ?_
      exact bind_of_ok hread
  | _, .struct fields, hguarded, x, hfits => inverts_fields fields hguarded x hfits

theorem inverts_fields : {α : Type} → (fs : Fields α) → guardedFields fs = true → (x : α) →
    FitsFields fs x → Inverts (serializeFields fs) (deserializeFields fs) x
  | _, .none, _, x, _ => fun w h r => by
    cases h
    rfl
  | _, .field first rest, hguarded, x, hfits => fun w h r => by
    rw [guardedFields, Bool.and_eq_true] at hguarded
    obtain ⟨a, ha, h⟩ := bind_ok h
    obtain ⟨b, hb, h⟩ := bind_ok h
    cases h
    have hfst := inverts first hguarded.1 x.1 hfits.1 a ha (b ++ r)
    have hrest := inverts_fields rest hguarded.2 x.2 hfits.2 b hb r
    rw [deserializeFields, append_assoc, bind_of_ok hfst, bind_of_ok hrest]
    rfl

end

/-- A struct with a list of structs and a map. -/
def sampleSchema :
    Schema (List (BitVec 16 × Unit) × MapOf (fun a b : List UInt8 => a == b) (Option Bool) × Unit) :=
  .struct (.field (.vector (.struct (.field (.primitive (.word .w16)) .none)))
    (.field (.map (fun a b => a == b) .string (.optional (.primitive .bool))) .none))

/-- Two structs, and a map with two keys. -/
def sampleValue :
    List (BitVec 16 × Unit) × MapOf (fun a b : List UInt8 => a == b) (Option Bool) × Unit :=
  ([(258, ()), (7, ())], ⟨[([97], some true), ([], none)], by decide⟩, ())

mutual

/-- No vector and no map has elements, keys or values of zero width. -/
def wideElements : {α : Type} → Schema α → Bool
  | _, .vector element => !zeroWidth element && wideElements element
  | _, .array element _ => wideElements element
  | _, .map _ key value =>
    (!zeroWidth key && !zeroWidth value) && (wideElements key && wideElements value)
  | _, .optional value => wideElements value
  | _, .struct fields => wideElementsFields fields
  | _, .primitive _ | _, .string | _, .bytes => true

def wideElementsFields : {α : Type} → Fields α → Bool
  | _, .none => true
  | _, .field first rest => wideElements first && wideElementsFields rest

end

theorem tight_of_wide : {α : Type} → (s : Schema α) → zeroWidth s = false → tight s = true
  | _, .array element n, hwide => by
    rw [zeroWidth, Bool.or_eq_false_iff] at hwide
    rw [tight, tight_of_wide element hwide.2, Bool.or_true]
  | _, .struct fields, hwide => by
    rw [tight, show zeroWidthFields fields = false from hwide]
    rfl
  | _, .primitive _, _ | _, .string, _ | _, .bytes, _ | _, .vector _, _ | _, .map _ _ _, _
  | _, .optional _, _ => rfl

mutual

theorem guarded_of_wide : {α : Type} → (s : Schema α) → wideElements s = true → guarded s = true
  | _, .vector element, hwide => by
    rw [wideElements, Bool.and_eq_true, Bool.not_eq_true'] at hwide
    rw [guarded, tight_of_wide element hwide.1, guarded_of_wide element hwide.2]
    rfl
  | _, .array element _, hwide => guarded_of_wide element hwide
  | _, .map same key value, hwide => by
    rw [wideElements, Bool.and_eq_true, Bool.and_eq_true, Bool.and_eq_true, Bool.not_eq_true',
      Bool.not_eq_true'] at hwide
    obtain ⟨⟨hkey, hval⟩, hkeys, hvals⟩ := hwide
    rw [guarded, tight_of_wide key hkey, tight_of_wide value hval, guarded_of_wide key hkeys,
      guarded_of_wide value hvals]
    rfl
  | _, .optional value, hwide => guarded_of_wide value hwide
  | _, .struct fields, hwide => guarded_of_wide_fields fields hwide
  | _, .primitive _, _ | _, .string, _ | _, .bytes, _ => rfl

theorem guarded_of_wide_fields : {α : Type} → (fs : Fields α) → wideElementsFields fs = true →
    guardedFields fs = true
  | _, .none, _ => rfl
  | _, .field first rest, hwide => by
    rw [wideElementsFields, Bool.and_eq_true] at hwide
    rw [guardedFields, guarded_of_wide first hwide.1, guarded_of_wide_fields rest hwide.2]
    rfl

end

theorem writeAll_mem {write : α → Except String (List UInt8)} {x : α} (xs : List α) :
    ∀ w, writeAll write xs = .ok w → x ∈ xs → ∃ a, write x = .ok a ∧ a.length ≤ w.length := by
  induction xs with
  | nil => exact fun w _ hx => absurd hx not_mem_nil
  | cons y ys ih =>
    intro w h hx
    obtain ⟨a, b, ha, hb, rfl⟩ := writeAll_cons h
    rw [length_append]
    rcases mem_cons.1 hx with rfl | hx
    · exact ⟨a, ha, Nat.le_add_right _ _⟩
    · obtain ⟨c, hc, hle⟩ := ih b hb hx
      exact ⟨c, hc, hle.trans (Nat.le_add_left _ _)⟩

mutual

/-- A container in a message has no more elements than the message has bytes. -/
theorem fits_of_length : {α : Type} → (s : Schema α) → wideElements s = true → (x : α) →
    (w : List UInt8) → serialize s x = .ok w → w.length ≤ maxContainerCount → Fits s x
  | _, .primitive _, _, _, _, _, _ | _, .string, _, _, _, _, _ => trivial
  | _, .bytes, _, x, w, h, hlen => by
    cases h
    rw [length_append] at hlen
    exact (Nat.le_add_left _ _).trans hlen
  | _, .vector element, hwide, x, w, h, hlen => by
    rw [wideElements, Bool.and_eq_true, Bool.not_eq_true'] at hwide
    obtain ⟨body, hbody, h⟩ := bind_ok h
    cases h
    rw [length_append] at hlen
    have hcnt := writeAll_length (atLeast_one element hwide.1) x body hbody
    refine ⟨by omega, fun y hy => ?_⟩
    obtain ⟨a, ha, hle⟩ := writeAll_mem x body hbody hy
    exact fits_of_length element hwide.2 y a ha (by omega)
  | _, .array element n, hwide, x, w, h, hlen => by
    intro y hy
    obtain ⟨a, ha, hle⟩ := writeAll_mem _ w h hy
    exact fits_of_length element hwide y a ha (hle.trans hlen)
  | _, .map same key value, hwide, x, w, h, hlen => by
    rw [wideElements, Bool.and_eq_true, Bool.and_eq_true, Bool.and_eq_true, Bool.not_eq_true',
      Bool.not_eq_true'] at hwide
    obtain ⟨⟨hkey, hval⟩, hkeys, hvals⟩ := hwide
    obtain ⟨body, hbody, h⟩ := bind_ok h
    cases h
    rw [length_append] at hlen
    have hcnt := writeAll_length ((atLeast_one key hkey).entry (atLeast_one value hval)) _ body
      hbody
    refine ⟨by omega, fun e he => ?_⟩
    obtain ⟨a, ha, hle⟩ := writeAll_mem _ body hbody he
    obtain ⟨k, v, hk, hv, rfl⟩ := writeEntry_ok ha
    rw [length_append] at hle
    exact ⟨fits_of_length key hkeys e.1 k hk (by omega),
      fits_of_length value hvals e.2 v hv (by omega)⟩
  | _, .optional value, hwide, x, w, h, hlen => by
    rintro y rfl
    obtain ⟨body, hbody, h⟩ := bind_ok h
    cases h
    rw [length_cons] at hlen
    exact fits_of_length value hwide y body hbody (by omega)
  | _, .struct fields, hwide, x, w, h, hlen => fits_of_length_fields fields hwide x w h hlen

theorem fits_of_length_fields : {α : Type} → (fs : Fields α) → wideElementsFields fs = true →
    (x : α) → (w : List UInt8) → serializeFields fs x = .ok w → w.length ≤ maxContainerCount →
    FitsFields fs x
  | _, .none, _, _, _, _, _ => trivial
  | _, .field first rest, hwide, x, w, h, hlen => by
    rw [wideElementsFields, Bool.and_eq_true] at hwide
    obtain ⟨a, ha, h⟩ := bind_ok h
    obtain ⟨b, hb, h⟩ := bind_ok h
    cases h
    rw [length_append] at hlen
    exact ⟨fits_of_length first hwide.1 x.1 a ha (by omega),
      fits_of_length_fields rest hwide.2 x.2 b hb (by omega)⟩

end

/-- **What is sent is what is received.**  For a type in which no vector or map has elements, keys
or values of zero width, `deserialize` on the encoding of a value, followed by anything, returns the
value and leaves the reader behind the encoding, if the encoding fits into a message. -/
theorem round_trip (s : Schema α) (hwide : wideElements s = true) (x : α) (w : List UInt8)
    (h : serialize s x = .ok w) (hsize : w.length ≤ maxMessageSize) (r : List UInt8) :
    deserialize s (w ++ r) = .ok (x, r) :=
  inverts s (guarded_of_wide s hwide) x (fits_of_length s hwide x w h hsize) w h r

/-- The theorem speaks about the value, with two more bytes behind its encoding. -/
theorem round_trip_sample :
    serialize sampleSchema sampleValue = .ok [2, 0, 0, 0, 2, 1, 7, 0, 2, 0, 0, 0, 1, 0, 0, 0, 97, 1, 1,
        0, 0, 0, 0, 0] ∧
      deserialize sampleSchema ([2, 0, 0, 0, 2, 1, 7, 0, 2, 0, 0, 0, 1, 0, 0, 0, 97, 1, 1,
        0, 0, 0, 0, 0] ++ [5, 6]) = .ok (sampleValue, [5, 6]) :=
  ⟨rfl, round_trip sampleSchema rfl sampleValue _ rfl (by decide) [5, 6]⟩

end Elio.Rpc
