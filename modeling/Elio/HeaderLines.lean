/-
**Header collections on the wire.**

`headers::serialize` writes one line for each entry of `headers_`, and one for each value of
`Set-Cookie`.  In which order it goes through the map is up to the implementation of
`std::unordered_map`; here it is a parameter, of which only is known that it is an order of the
entries.

A collection that has been built with `set`, `add` and `remove` has valid names and values and no
name twice.  The lines it is written as are then such that each is read back as the field it was
written for.

Main definitions:

* `Headers.Built`, `Headers.WellFormed` — collections that can arise.

Main results:

* `Headers.Built.wellFormed` — **what `set`, `add` and `remove` build is well formed**;
* `Headers.plain_of_mem_fieldLines` — lines of a well-formed collection are lines;
* `Headers.valuesOf_fieldLines` — **every name has its value on the lines**.
-/

import Elio.RequestFraming
import Mathlib.Data.List.Perm.Basic

set_option autoImplicit false

namespace Elio.Http

open List

/-- A field on a line. -/
def fieldLine (name value : Bytes) : Bytes := name ++ text ": " ++ value

namespace Headers

/-- `remove`. -/
def remove (h : Headers) (name : Bytes) : Headers where
  headers := h.headers.filter fun kv => !asciiIequals kv.1 name
  headerValues := h.headerValues.filter fun kv => !asciiIequals kv.1 name

/-- The lines of `serialize` for the entries of `headers_` in the given order. -/
def fieldLines (h : Headers) (entries : List (Bytes × Bytes)) : List Bytes :=
  entries.flatMap fun kv =>
    match asciiIequals kv.1 (text "Set-Cookie"), lookupField kv.1 h.headerValues with
    | true, some values => values.map (fieldLine kv.1)
    | _, _ => [fieldLine kv.1 kv.2]

/-- `serialize`. -/
def serialize (h : Headers) (entries : List (Bytes × Bytes)) : Bytes :=
  onWire (h.fieldLines entries)

/-- The collections that `set`, `add` and `remove` build. -/
inductive Built : Headers → Prop
  | empty : Built .empty
  | set {h h' : Headers} {name value : Bytes} : Built h → h.set name value = .ok h' → Built h'
  | add {h h' : Headers} {name value : Bytes} : Built h → h.add name value = .ok h' → Built h'
  | remove {h : Headers} {name : Bytes} : Built h → Built (h.remove name)

/-- Valid names and values, and no name twice. -/
structure WellFormed (h : Headers) : Prop where
  synced : h.Synced
  names : ∀ kv ∈ h.headers, isValidHeaderName kv.1 = true
  values : ∀ kv ∈ h.headers, isValidHeaderValue kv.2 = true
  lines : ∀ kv ∈ h.headerValues, ∀ value ∈ kv.2, isValidHeaderValue value = true
  distinct : h.headers.Pairwise fun a b => asciiIequals a.1 b.1 = false

/-! ### Assignments -/

section Map

variable {α : Type*} {map : List (Bytes × α)}

/-- The entries after an assignment: those there were, and the one with the new value. -/
theorem mem_assignField {name : Bytes} {value : α} {kv : Bytes × α}
    (h : kv ∈ assignField name value map) :
    kv ∈ map ∨ (kv.2 = value ∧ (kv.1 = name ∨ ∃ old ∈ map, old.1 = kv.1)) := by
  induction map with
  | nil =>
    rw [assignField, mem_singleton] at h
    exact .inr ⟨by rw [h], .inl (by rw [h])⟩
  | cons first map ih =>
    rw [assignField] at h
    split_ifs at h
    · rcases mem_cons.1 h with rfl | h
      · exact .inr ⟨rfl, .inr ⟨first, mem_cons_self .., rfl⟩⟩
      · exact .inl (mem_cons_of_mem _ h)
    · rcases mem_cons.1 h with rfl | h
      · exact .inl (mem_cons_self ..)
      · rcases ih h with h | ⟨hval, hname | ⟨old, hold, hname⟩⟩
        · exact .inl (mem_cons_of_mem _ h)
        · exact .inr ⟨hval, .inl hname⟩
        · exact .inr ⟨hval, .inr ⟨old, mem_cons_of_mem _ hold, hname⟩⟩

theorem pairwise_assignField {name : Bytes} {value : α}
    (h : map.Pairwise fun a b => asciiIequals a.1 b.1 = false) :
    (assignField name value map).Pairwise fun a b => asciiIequals a.1 b.1 = false := by
  induction map with
  | nil => exact pairwise_singleton _ _
  | cons first map ih =>
    obtain ⟨hfst, hmap⟩ := pairwise_cons.1 h
    rw [assignField]
    split_ifs with hname
    · exact pairwise_cons.2 ⟨hfst, hmap⟩
    · refine pairwise_cons.2 ⟨fun kv hkv => ?_, ih hmap⟩
      rcases mem_assignField hkv with hkv | ⟨-, rfl | ⟨old, hold, hkey⟩⟩
      · exact hfst kv hkv
      · simpa using hname
      · rw [← hkey]
        exact hfst old hold

theorem mem_of_lookupField {name : Bytes} {value : α}
    (h : lookupField name map = some value) :
    ∃ kv ∈ map, asciiIequals kv.1 name = true ∧ kv.2 = value := by
  rw [lookupField, Option.map_eq_some_iff] at h
  obtain ⟨kv, hfind, hval⟩ := h
  exact ⟨kv, mem_of_find?_eq_some hfind, by simpa using find?_some hfind, hval⟩

theorem lookupField_filter {name other : Bytes} (map : List (Bytes × α)) :
    lookupField other (map.filter fun kv => !asciiIequals kv.1 name) =
      if asciiIequals name other then none else lookupField other map := by
  induction map with
  | nil => simp [lookupField]
  | cons first map ih =>
    by_cases hfst : asciiIequals first.1 name = true
    · -- the entry is removed
      rw [filter_cons_of_neg (by simp [hfst]), ih, lookupField_cons,
        asciiIequals_congr hfst]
      split_ifs <;> rfl
    · rw [filter_cons_of_pos (by simpa using hfst), lookupField_cons, lookupField_cons, ih]
      by_cases hother : asciiIequals first.1 other = true
      · have hne : ¬ asciiIequals name other = true := by
          intro hname
          rw [asciiIequals_congr hother, asciiIequals_comm] at hfst
          exact hfst hname
        rw [if_pos hother, if_pos hother, if_neg hne]
      · rw [if_neg hother, if_neg hother]

/-- The entries of a name in a map without repeated names. -/
theorem filter_eq_lookupField {name : Bytes}
    (h : map.Pairwise fun a b => asciiIequals a.1 b.1 = false) :
    ((map.filter fun kv => asciiIequals kv.1 name).map Prod.snd) =
      (lookupField name map).toList := by
  induction map with
  | nil => simp [lookupField]
  | cons first map ih =>
    obtain ⟨hfst, hmap⟩ := pairwise_cons.1 h
    rw [lookupField_cons]
    by_cases hname : asciiIequals first.1 name = true
    · rw [if_pos hname,
        filter_cons_of_pos (p := fun kv : Bytes × α => asciiIequals kv.1 name) hname]
      have hnone : map.filter (fun kv => asciiIequals kv.1 name) = [] := by
        rw [filter_eq_nil_iff]
        intro kv hkv hsame
        have hdiff := hfst kv hkv
        rw [asciiIequals_congr hname, asciiIequals_comm, hsame] at hdiff
        cases hdiff
      rw [hnone]
      rfl
    · rw [if_neg hname,
        filter_cons_of_neg (p := fun kv : Bytes × α => asciiIequals kv.1 name) hname, ih hmap]

end Map

/-! ### Built collections -/

theorem isValidHeaderValue_join {a b : Bytes} (ha : isValidHeaderValue a = true)
    (hb : isValidHeaderValue b = true) : isValidHeaderValue (a ++ text ", " ++ b) = true := by
  rw [isValidHeaderValue] at *
  rw [all_append, all_append, ha, hb]
  rfl

theorem WellFormed.empty : WellFormed .empty where
  synced := synced_empty
  names kv h := by cases h
  values kv h := by cases h
  lines kv h := by cases h
  distinct := List.Pairwise.nil

variable {name value : Bytes} {h : Headers}

section

variable (hwell : WellFormed h)

include hwell

/-- The entry for a name after an assignment has a valid name. -/
theorem WellFormed.names_assign (hname : isValidHeaderName name = true) :
    ∀ kv ∈ assignField name value h.headers, isValidHeaderName kv.1 = true := by
  intro kv hkv
  rcases mem_assignField hkv with hkv | ⟨-, hkey | ⟨old, hold, hkey⟩⟩
  · exact hwell.names kv hkv
  · rwa [hkey]
  · rw [← hkey]
    exact hwell.names old hold

theorem WellFormed.values_assign (hval : isValidHeaderValue value = true) :
    ∀ kv ∈ assignField name value h.headers, isValidHeaderValue kv.2 = true := by
  intro kv hkv
  rcases mem_assignField hkv with hkv | ⟨hkv, -⟩
  · exact hwell.values kv hkv
  · rwa [hkv]

theorem WellFormed.lines_assign {name : Bytes} {values : List Bytes}
    (hvals : ∀ value ∈ values, isValidHeaderValue value = true) :
    ∀ kv ∈ assignField name values h.headerValues, ∀ value ∈ kv.2,
      isValidHeaderValue value = true := by
  intro kv hkv
  rcases mem_assignField hkv with hkv | ⟨hkv, -⟩
  · exact hwell.lines kv hkv
  · rwa [hkv]

theorem WellFormed.setField (hname : isValidHeaderName name = true)
    (hval : isValidHeaderValue value = true) : WellFormed (h.setField name value) where
  synced other := by
    rw [Headers.setField, lookupField_assignField, lookupField_assignField]
    split_ifs
    · rfl
    · exact hwell.synced other
  names := hwell.names_assign hname
  values := hwell.values_assign hval
  lines := hwell.lines_assign (forall_mem_singleton.2 hval)
  distinct := pairwise_assignField hwell.distinct

theorem WellFormed.addField (hname : isValidHeaderName name = true)
    (hval : isValidHeaderValue value = true) : WellFormed (h.addField name value) := by
  have hsynced := hwell.synced.addField name value
  rw [Headers.addField] at hsynced ⊢
  cases hget : lookupField name h.headers with
  | none =>
    rw [hget] at hsynced
    exact
      { synced := hsynced
        names := hwell.names_assign hname
        values := hwell.values_assign hval
        lines := hwell.lines_assign (forall_mem_singleton.2 hval)
        distinct := pairwise_assignField hwell.distinct }
  | some existing =>
    simp only [hget] at hsynced ⊢
    split_ifs at hsynced ⊢ with hlen hcookie
    · exact hwell
    all_goals
      obtain ⟨old, hold, -, rfl⟩ := mem_of_lookupField hget
      have hvals : ∀ v ∈ (lookupField name h.headerValues).getD [old.2] ++ [value],
          isValidHeaderValue v = true := by
        intro v hv
        rcases mem_append.1 hv with hv | hv
        · cases hlines : lookupField name h.headerValues with
          | none =>
            rw [hlines] at hv
            rw [mem_singleton.1 hv]
            exact hwell.values old hold
          | some values =>
            rw [hlines] at hv
            obtain ⟨kv, hkv, -, rfl⟩ := mem_of_lookupField hlines
            exact hwell.lines kv hkv v hv
        · rwa [mem_singleton.1 hv]
    · exact
        { synced := hsynced
          names := hwell.names
          values := hwell.values
          lines := hwell.lines_assign hvals
          distinct := hwell.distinct }
    · exact
        { synced := hsynced
          names := hwell.names_assign hname
          values := hwell.values_assign
            (isValidHeaderValue_join (hwell.values old hold) hval)
          lines := hwell.lines_assign hvals
          distinct := pairwise_assignField hwell.distinct }

theorem WellFormed.remove (name : Bytes) : WellFormed (h.remove name) where
  synced other := by
    rw [Headers.remove, lookupField_filter, lookupField_filter]
    split_ifs
    · rfl
    · exact hwell.synced other
  names kv hkv := hwell.names kv (mem_of_mem_filter hkv)
  values kv hkv := hwell.values kv (mem_of_mem_filter hkv)
  lines kv hkv := hwell.lines kv (mem_of_mem_filter hkv)
  distinct := hwell.distinct.filter _

end

theorem set_eq_ok {h h' : Headers} (hset : h.set name value = .ok h') :
    isValidHeaderName name = true ∧ isValidHeaderValue value = true ∧
      h' = h.setField name value := by
  rw [Headers.set] at hset
  split_ifs at hset with hname hval
  exact ⟨by simpa using hname, by simpa using hval, (Except.ok.inj hset).symm⟩

theorem add_eq_ok {h h' : Headers} (hadd : h.add name value = .ok h') :
    isValidHeaderName name = true ∧ isValidHeaderValue value = true ∧
      h' = h.addField name value := by
  rw [Headers.add] at hadd
  split_ifs at hadd with hname hval
  refine ⟨by simpa using hname, by simpa using hval, ?_⟩
  cases hget : lookupField name h.headers with
  | none =>
    rw [hget] at hadd
    exact (Except.ok.inj hadd).symm
  | some existing =>
    simp only [hget] at hadd
    split_ifs at hadd
    exact (Except.ok.inj hadd).symm

/-- **What `set`, `add` and `remove` build is well formed.** -/
theorem Built.wellFormed (hbuilt : Built h) : WellFormed h := by
  induction hbuilt with
  | empty => exact WellFormed.empty
  | set _ hset ih =>
    obtain ⟨hname, hval, rfl⟩ := set_eq_ok hset
    exact ih.setField hname hval
  | add _ hadd ih =>
    obtain ⟨hname, hval, rfl⟩ := add_eq_ok hadd
    exact ih.addField hname hval
  | remove _ ih => exact ih.remove _

end Headers

/-! ### The lines of a collection -/

variable {name : Bytes}

theorem colon_not_mem_of_isValidHeaderName (h : isValidHeaderName name = true) : colon ∉ name := by
  intro hmem
  rw [isValidHeaderName, isValidToken, Bool.and_eq_true, all_eq_true] at h
  exact absurd (h.2 colon hmem) (by decide)

theorem idxOf_colon_fieldLine (h : isValidHeaderName name = true) (value : Bytes) :
    (fieldLine name value).idxOf colon = name.length := by
  have hsplit : fieldLine name value = name ++ (colon :: space :: value) := by
    rw [fieldLine, append_assoc]
    rfl
  rw [hsplit, idxOf_append_of_notMem (colon_not_mem_of_isValidHeaderName h)]
  simp

/-- **A field line is read back as its name and its value.** -/
theorem fieldName_fieldLine (h : isValidHeaderName name = true) (value : Bytes) :
    fieldName (fieldLine name value) = name := by
  rw [fieldName, idxOf_colon_fieldLine h, fieldLine, append_assoc, take_left]

theorem fieldValue_fieldLine (h : isValidHeaderName name = true) (value : Bytes) :
    fieldValue (fieldLine name value) = trimOws value := by
  have hdrop : (fieldLine name value).drop (name.length + 1) = space :: value := by
    rw [fieldLine, append_assoc, ← drop_drop, drop_left]
    rfl
  rw [fieldValue, idxOf_colon_fieldLine h, hdrop]
  rfl

theorem plain_fieldLine {value : Bytes} (hname : isValidHeaderName name = true)
    (hval : isValidHeaderValue value = true) : Plain (fieldLine name value) := by
  rw [isValidHeaderName, isValidToken, Bool.and_eq_true] at hname
  exact ((Plain.of_all ne_of_isTchar hname.2).append (by decide)).append
    (.of_all ne_of_isFieldByte hval)

theorem colon_mem_fieldLine (name value : Bytes) : colon ∈ fieldLine name value :=
  mem_append_left _ (mem_append_right _ (by decide))

theorem isValidHeaderValue_trimOws {value : Bytes} (h : isValidHeaderValue value = true) :
    isValidHeaderValue (trimOws value) = true := by
  rw [isValidHeaderValue, all_eq_true] at h ⊢
  intro c hc
  exact h c ((dropWhile_suffix _).subset ((List.rdropWhile_prefix _ _).subset hc))

theorem valuesOf_append (name : Bytes) (lines lines' : List Bytes) :
    valuesOf name (lines ++ lines') = valuesOf name lines ++ valuesOf name lines' := by
  simp [valuesOf]

theorem fieldLine_ne_nil (name value : Bytes) : fieldLine name value ≠ [] := by
  intro h
  have : (fieldLine name value).length = 0 := by rw [h]; rfl
  rw [fieldLine, length_append, length_append] at this
  have hsep : (text ": ").length = 2 := by decide
  omega

namespace Headers

variable {entries : List (Bytes × Bytes)}

theorem mem_fieldLines {h : Headers} (hwell : WellFormed h) (hents : entries.Perm h.headers)
    {line : Bytes} (hline : line ∈ h.fieldLines entries) :
    ∃ kv ∈ h.headers, ∃ value, isValidHeaderName kv.1 = true ∧ isValidHeaderValue value = true ∧
      line = fieldLine kv.1 value := by
  rw [fieldLines, mem_flatMap] at hline
  obtain ⟨kv, hkv, hline⟩ := hline
  have hkv' := hents.mem_iff.1 hkv
  refine ⟨kv, hkv', ?_⟩
  have hname := hwell.names kv hkv'
  cases hcookie : asciiIequals kv.1 (text "Set-Cookie") with
  | false =>
    simp only [hcookie, mem_singleton] at hline
    exact ⟨kv.2, hname, hwell.values kv hkv', hline⟩
  | true =>
    cases hvals : lookupField kv.1 h.headerValues with
    | none =>
      simp only [hcookie, hvals, mem_singleton] at hline
      exact ⟨kv.2, hname, hwell.values kv hkv', hline⟩
    | some values =>
      simp only [hcookie, hvals, mem_map] at hline
      obtain ⟨value, hval, rfl⟩ := hline
      obtain ⟨old, hold, -, rfl⟩ := mem_of_lookupField hvals
      exact ⟨value, hname, hwell.lines old hold value hval, rfl⟩

/-- The values on the lines of the entries, for a name other than `Set-Cookie`. -/
theorem valuesOf_flatMap {h : Headers} {name : Bytes}
    (hcookie : asciiIequals name (text "Set-Cookie") = false)
    (hnames : ∀ kv ∈ entries, isValidHeaderName kv.1 = true) :
    valuesOf name (h.fieldLines entries) =
      ((entries.filter fun kv => asciiIequals kv.1 name).map Prod.snd).map trimOws := by
  induction entries with
  | nil => rfl
  | cons kv entries ih =>
    have hkv := hnames kv (mem_cons_self ..)
    have hrest := ih (forall_mem_cons.1 hnames).2
    have hcons : h.fieldLines (kv :: entries) = h.fieldLines [kv] ++ h.fieldLines entries := by
      simp [fieldLines]
    rw [hcons, valuesOf_append, hrest]
    by_cases hname : asciiIequals kv.1 name = true
    · -- the entry of the name has one line
      have hnot : asciiIequals kv.1 (text "Set-Cookie") = false := by
        rw [asciiIequals_congr hname, hcookie]
      have hline : h.fieldLines [kv] = [fieldLine kv.1 kv.2] := by
        simp [fieldLines, hnot]
      rw [hline]
      simp [valuesOf, fieldName_fieldLine hkv, fieldValue_fieldLine hkv, hname]
    · rw [filter_cons_of_neg (p := fun kv : Bytes × Bytes => asciiIequals kv.1 name) hname]
      have hnone : valuesOf name (h.fieldLines [kv]) = [] := by
        rw [valuesOf, map_eq_nil_iff, filter_eq_nil_iff]
        intro line hline
        have hfield : fieldName line = kv.1 := by
          simp only [fieldLines, flatMap_cons, flatMap_nil, append_nil] at hline
          split at hline
          · obtain ⟨value, -, rfl⟩ := mem_map.1 hline
            exact fieldName_fieldLine hkv value
          · rw [mem_singleton.1 hline]
            exact fieldName_fieldLine hkv kv.2
        rwa [hfield]
      rw [hnone]
      rfl

/-- In whatever order the entries come, a name has at most one. -/
theorem filter_entries {h : Headers} (hwell : WellFormed h) (hents : entries.Perm h.headers)
    (name : Bytes) : (entries.filter fun kv => asciiIequals kv.1 name).map Prod.snd =
      (lookupField name h.headers).toList := by
  have hperm := (hents.filter fun kv => asciiIequals kv.1 name).map Prod.snd
  rw [filter_eq_lookupField hwell.distinct] at hperm
  cases hget : lookupField name h.headers with
  | none =>
    rw [hget] at hperm
    exact hperm.eq_nil
  | some value =>
    rw [hget] at hperm
    exact perm_singleton.1 hperm

/-- **Every name other than `Set-Cookie` has its value on the lines**, trimmed. -/
theorem valuesOf_fieldLines {h : Headers} (hwell : WellFormed h) (hents : entries.Perm h.headers)
    {name : Bytes} (hcookie : asciiIequals name (text "Set-Cookie") = false) :
    valuesOf name (h.fieldLines entries) = (lookupField name h.headers).toList.map trimOws := by
  rw [valuesOf_flatMap hcookie fun kv hkv => hwell.names kv (hents.mem_iff.1 hkv),
    filter_entries hwell hents]

end Headers

/-! ### Reading the lines -/

/-- Values joined as `headers::add` joins them. -/
def joinValues : List Bytes → Bytes
  | [] => []
  | [value] => value
  | value :: next :: values => value ++ text ", " ++ joinValues (next :: values)

theorem joinValues_append_singleton {values : List Bytes} (h : values ≠ []) (value : Bytes) :
    joinValues (values ++ [value]) = joinValues values ++ text ", " ++ value := by
  induction values with
  | nil => exact absurd rfl h
  | cons first values ih =>
    cases values with
    | nil => rfl
    | cons next values =>
      have hrest := ih (cons_ne_nil _ _)
      change first ++ text ", " ++ joinValues (next :: values ++ [value]) = _
      rw [hrest, joinValues]
      simp only [append_assoc]

/-- The text that the collection has for a name is made of the values on the lines. -/
def Combined (h : Headers) (lines : List Bytes) : Prop :=
  ∀ name, asciiIequals name (text "Content-Length") = false →
    asciiIequals name (text "Set-Cookie") = false → h.get name = joinValues (valuesOf name lines)

theorem Combined.empty : Combined .empty [] := fun _ _ _ => rfl

theorem Combined.addField {h : Headers} {lines : List Bytes} (hcomb : Combined h lines)
    (hlines : Collected h lines) (line : Bytes) :
    Combined (h.addField (fieldName line) (fieldValue line)) (lines ++ [line]) := by
  intro name hlen hcookie
  rw [valuesOf_append_singleton]
  cases hname : asciiIequals (fieldName line) name with
  | false =>
    rw [Headers.get_addField_of_ne hname, hcomb name hlen hcookie]
    simp
  | true =>
    simp only [if_true]
    by_cases hnone : valuesOf name lines = []
    · have habs : h.contains name = false := by
        rw [← Bool.not_eq_true, hlines.contains]
        simpa using hnone
      rw [Headers.get_addField_of_absent hname habs, hnone]
      rfl
    · -- the value is joined to those before
      have hpres : h.contains name = true := (hlines.contains name).2 hnone
      rw [Headers.contains, ← lookupField_congr hname] at hpres
      obtain ⟨existing, hexisting⟩ := Option.isSome_iff_exists.1 hpres
      have hget : h.get name = existing := by
        rw [Headers.get, ← lookupField_congr hname, hexisting]
        rfl
      have hnot : asciiIequals (fieldName line) (text "Content-Length") = false := by
        rw [asciiIequals_congr hname, hlen]
      have hnot' : asciiIequals (fieldName line) (text "Set-Cookie") = false := by
        rw [asciiIequals_congr hname, hcookie]
      rw [joinValues_append_singleton hnone, ← hcomb name hlen hcookie, hget, Headers.get,
        Headers.addField, hexisting]
      simp [hnot, hnot', lookupField_assignField, hname]

/-! ### Tokens -/

variable {a c : UInt8}

/-- A byte of white space at the front of a token does not count. -/
theorem trimOws_cons (ha : isOws a = true) (s : Bytes) : trimOws (a :: s) = trimOws s := by
  rw [trimOws, dropWhile_cons_of_pos ha, trimOws]

/-- A byte of white space at the end of a token does not count. -/
theorem trimOws_concat (ha : isOws a = true) (s : Bytes) : trimOws (s ++ [a]) = trimOws s := by
  rw [trimOws, trimOws, dropWhile_append]
  cases hs : s.dropWhile isOws with
  | nil => simp [ha]
  | cons c rest =>
    exact rdropWhile_concat_pos isOws _ _ ha

/-- A byte of white space at the front of a list of tokens does not count. -/
theorem tokens_cons (ha : isOws a = true) (hc : isOws c = false) (s : Bytes) :
    ((a :: s).splitOn c).map trimOws = (s.splitOn c).map trimOws := by
  have hne : a ≠ c := by
    rintro rfl
    rw [ha] at hc
    cases hc
  rw [splitOn_cons_eq_if_modifyHead, if_neg (by simpa using hne)]
  cases s.splitOn c with
  | nil => rfl
  | cons first rest => simp [trimOws_cons ha]

/-- White space at the end of a list of tokens is at the end of its last token. -/
theorem splitOn_concat (hne : a ≠ c) (s : Bytes) :
    List.Forall₂ (fun x y => x = y ∨ x = y ++ [a]) ((s ++ [a]).splitOn c) (s.splitOn c) := by
  induction s with
  | nil =>
    rw [nil_append, splitOn_cons_eq_if_modifyHead, if_neg (by simpa using hne)]
    exact .cons (.inr rfl) .nil
  | cons b s ih =>
    rw [cons_append, splitOn_cons_eq_if_modifyHead, splitOn_cons_eq_if_modifyHead]
    generalize (s ++ [a]).splitOn c = xs at ih ⊢
    generalize s.splitOn c = ys at ih ⊢
    split_ifs
    · exact .cons (.inl rfl) ih
    · cases ih with
      | nil => exact .nil
      | cons hfst hrest =>
        refine .cons ?_ hrest
        rcases hfst with rfl | rfl
        · exact .inl rfl
        · exact .inr rfl

theorem tokens_concat (ha : isOws a = true) (hc : isOws c = false) (s : Bytes) :
    ((s ++ [a]).splitOn c).map trimOws = (s.splitOn c).map trimOws := by
  have hne : a ≠ c := by
    rintro rfl
    rw [ha] at hc
    cases hc
  have hsame := splitOn_concat hne s
  generalize (s ++ [a]).splitOn c = xs at hsame
  generalize s.splitOn c = ys at hsame
  induction hsame with
  | nil => rfl
  | cons hfst _ ih =>
    rw [map_cons, map_cons, ih]
    rcases hfst with rfl | rfl
    · rfl
    · rw [trimOws_concat ha]

/-- White space at the front of a list of tokens does not count. -/
theorem tokens_dropWhile (hc : isOws c = false) (s : Bytes) :
    ((s.dropWhile isOws).splitOn c).map trimOws = (s.splitOn c).map trimOws := by
  induction s with
  | nil => rfl
  | cons a s ih =>
    by_cases ha : isOws a = true
    · rw [dropWhile_cons_of_pos ha, ih, tokens_cons ha hc]
    · rw [dropWhile_cons_of_neg ha]

/-- **White space around a list of tokens does not count.** -/
theorem tokens_trimOws (hc : isOws c = false) (s : Bytes) :
    ((trimOws s).splitOn c).map trimOws = (s.splitOn c).map trimOws := by
  have hback : ∀ s : Bytes, ((s.rdropWhile isOws).splitOn c).map trimOws =
      (s.splitOn c).map trimOws := by
    intro s
    induction s using reverseRecOn with
    | nil => rfl
    | append_singleton s a ih =>
      by_cases ha : isOws a = true
      · rw [rdropWhile_concat_pos isOws _ _ ha, ih, tokens_concat ha hc]
      · rw [rdropWhile_concat_neg isOws _ _ ha]
  rw [trimOws, hback, tokens_dropWhile hc]

end Elio.Http
