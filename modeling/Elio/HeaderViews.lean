/-
**The two views of a header collection.**

`headers_` has one text for each name and `header_values_` the values of its lines.  Whatever is
called, with whatever names and values, the two belong together (`Headers.Views`): the text is the
values joined, but for `Set-Cookie`, where it is the first value, and `Content-Length`, which has
one value only.

Main definitions:

* `Headers.Call`, `Headers.call` — the calls that change a collection;
* `Headers.Views` — the relation of the two maps.

Main results:

* `Headers.views_agree` — **the two views never diverge**, and `serialize` writes a line for each
  name.
-/

import Elio.HeaderLines

set_option autoImplicit false

namespace Elio.Http.Headers

open List

/-- The calls that change a collection. -/
inductive Call where
  | set (name value : Bytes)
  | add (name value : Bytes)
  | remove (name : Bytes)
  | clear
  deriving DecidableEq, Repr

/-- A call.  `set` and `add` check before they write, so that a collection is as it was when they
throw. -/
def call (h : Headers) : Call → Headers
  | .set name value => (h.set name value).toOption.getD h
  | .add name value => (h.add name value).toOption.getD h
  | .remove name => h.remove name
  | .clear => empty

/-- The collection after some calls. -/
def ofCalls (calls : List Call) : Headers := calls.foldl call empty

/-- The text and the values of a name. -/
def Agree (name combined : Bytes) (values : List Bytes) : Prop :=
  if asciiIequals name (text "Set-Cookie") then values.head? = some combined
  else if asciiIequals name (text "Content-Length") then values = [combined]
  else values ≠ [] ∧ combined = joinValues values

/-- The two maps have the same names, and the text and the values of each agree. -/
def Views (h : Headers) : Prop :=
  ∀ name, lookupField name h.headers = none ∧ lookupField name h.headerValues = none ∨
    ∃ combined values, lookupField name h.headers = some combined ∧
      lookupField name h.headerValues = some values ∧ Agree name combined values

/-! ### Calls -/

section Views

variable {h : Headers} {name value : Bytes}

theorem agree_singleton (name value : Bytes) : Agree name value [value] := by
  unfold Agree
  split_ifs
  · rfl
  · rfl
  · exact ⟨cons_ne_nil _ _, rfl⟩

theorem views_empty : Views empty := fun _ => .inl ⟨rfl, rfl⟩

theorem Views.setField (hviews : h.Views) : (h.setField name value).Views := by
  intro other
  rw [Headers.setField, lookupField_assignField, lookupField_assignField]
  split_ifs
  · exact .inr ⟨value, [value], rfl, rfl, agree_singleton other value⟩
  · exact hviews other

theorem Views.addField (hviews : h.Views) : (h.addField name value).Views := by
  rcases hviews name with ⟨hnone, -⟩ | ⟨existing, values, hget, hvals, hagree⟩
  · rw [Headers.addField, hnone]
    exact hviews.setField
  by_cases hlen : asciiIequals name (text "Content-Length") = true
  · rw [addField_contentLength_of_present hlen]
    · exact hviews
    · rw [contains, ← lookupField_congr hlen, hget]
      rfl
  intro other
  rw [Headers.addField, hget, hvals]
  simp only [hlen, Bool.false_eq_true, if_false, Option.getD_some, lookupField_assignField]
  by_cases hother : asciiIequals name other = true
  · -- the name itself
    have hsame := asciiIequals_congr hother
    rw [← lookupField_congr hother]
    rw [Agree] at hagree
    split_ifs at hagree ⊢ with hcookie
    · refine .inr ⟨existing, _, hget, rfl, ?_⟩
      rw [Agree, ← hsame, if_pos hcookie, head?_append, hagree]
      rfl
    · refine .inr ⟨existing ++ text ", " ++ value, _, ?_, rfl, ?_⟩
      · rw [lookupField_assignField, if_pos (asciiIequals_iff.2 rfl)]
      · rw [Agree, ← hsame, ← hsame, if_neg hcookie, if_neg hlen,
          joinValues_append_singleton hagree.1, hagree.2]
        exact ⟨by simp, rfl⟩
  · split_ifs
    · exact hviews other
    · rw [lookupField_assignField, if_neg hother]
      exact hviews other

theorem Views.remove (hviews : h.Views) (name : Bytes) : (h.remove name).Views := by
  intro other
  rw [Headers.remove, lookupField_filter, lookupField_filter]
  split_ifs
  · exact .inl ⟨rfl, rfl⟩
  · exact hviews other

/-- **A call keeps the views together.** -/
theorem Views.call (hbuilt : h.Built) (hviews : h.Views) (c : Call) :
    (h.call c).Built ∧ (h.call c).Views := by
  cases c with
  | set name value =>
    rw [Headers.call]
    cases hset : h.set name value with
    | error e => exact ⟨hbuilt, hviews⟩
    | ok h' =>
      refine ⟨hbuilt.set hset, ?_⟩
      rw [(set_eq_ok hset).2.2]
      exact hviews.setField
  | add name value =>
    rw [Headers.call]
    cases hadd : h.add name value with
    | error e => exact ⟨hbuilt, hviews⟩
    | ok h' =>
      refine ⟨hbuilt.add hadd, ?_⟩
      rw [(add_eq_ok hadd).2.2]
      exact hviews.addField
  | remove name => exact ⟨hbuilt.remove, hviews.remove name⟩
  | clear => exact ⟨.empty, views_empty⟩

end Views

/-! ### The lines -/

section Lines

variable {h : Headers} {entries : List (Bytes × Bytes)}

/-- The names and the values on the lines of `serialize`. -/
def fields (h : Headers) (entries : List (Bytes × Bytes)) : List (Bytes × Bytes) :=
  entries.flatMap fun kv =>
    (if asciiIequals kv.1 (text "Set-Cookie") then h.getAll kv.1 else [kv.2]).map (Prod.mk kv.1)

/-- A name of the collection has values. -/
theorem Views.values (hviews : h.Views) {kv : Bytes × Bytes} (hkv : kv ∈ h.headers) :
    ∃ values, lookupField kv.1 h.headerValues = some values := by
  rcases hviews kv.1 with ⟨hnone, -⟩ | ⟨combined, values, -, hvals, -⟩
  · have hsome : (lookupField kv.1 h.headers).isSome = true := by
      rw [lookupField, Option.isSome_map, find?_isSome]
      exact ⟨kv, hkv, asciiIequals_iff.2 rfl⟩
    rw [hnone] at hsome
    cases hsome
  · exact ⟨values, hvals⟩

theorem fieldLines_eq (hviews : h.Views) (hents : entries.Perm h.headers) :
    h.fieldLines entries = (h.fields entries).map fun f => fieldLine f.1 f.2 := by
  rw [fields, map_flatMap]
  refine flatMap_congr fun kv hkv => ?_
  obtain ⟨values, hvals⟩ := hviews.values (hents.mem_iff.1 hkv)
  rw [getAll, hvals]
  cases asciiIequals kv.1 (text "Set-Cookie") <;> simp

/-- **One line for each name**, and one for each value of `Set-Cookie`. -/
theorem filter_fields (hviews : h.Views) (hwell : h.WellFormed) (hents : entries.Perm h.headers)
    (name : Bytes) : ((h.fields entries).filter fun f => asciiIequals f.1 name).map Prod.snd =
      if asciiIequals name (text "Set-Cookie") then h.getAll name
      else (lookupField name h.headers).toList := by
  have hone := filter_entries hwell hents name
  have hfilter : ((h.fields entries).filter fun f => asciiIequals f.1 name).map Prod.snd =
      (entries.filter fun kv => asciiIequals kv.1 name).flatMap fun kv =>
        if asciiIequals name (text "Set-Cookie") then h.getAll name else [kv.2] := by
    rw [fields]
    clear hone hents
    induction entries with
    | nil => rfl
    | cons kv entries ih =>
      rw [flatMap_cons, filter_append, map_append, ih]
      cases hkv : asciiIequals kv.1 name with
      | false => simp [hkv, filter_map, Function.comp_def]
      | true =>
        have hall : h.getAll kv.1 = h.getAll name := by
          rw [getAll, getAll, lookupField_congr hkv, lookupField_congr hkv]
        simp [hkv, filter_map, Function.comp_def, asciiIequals_congr hkv, hall]
  rw [hfilter]
  rcases hviews name with ⟨hnone, hemp⟩ | ⟨combined, values, hget, -⟩
  · rw [hnone] at hone ⊢
    rw [map_eq_nil_iff.1 hone, getAll, hemp, hnone]
    simp
  · rw [hget] at hone ⊢
    obtain ⟨kv, hkv, hval⟩ := map_eq_singleton_iff.1 hone
    rw [hkv]
    simp [hval]

/-- The lines have valid names and values. -/
theorem valid_of_mem_fields (hviews : h.Views) (hwell : h.WellFormed)
    (hents : entries.Perm h.headers) {f : Bytes × Bytes} (hf : f ∈ h.fields entries) :
    isValidHeaderName f.1 = true ∧ isValidHeaderValue f.2 = true := by
  obtain ⟨kv, hkv, hf⟩ := mem_flatMap.1 hf
  have hkv := hents.mem_iff.1 hkv
  obtain ⟨value, hval, rfl⟩ := mem_map.1 hf
  refine ⟨hwell.names kv hkv, ?_⟩
  split_ifs at hval
  · obtain ⟨values, hvals⟩ := hviews.values hkv
    rw [getAll, hvals] at hval
    obtain ⟨old, hold, -, rfl⟩ := mem_of_lookupField hvals
    exact hwell.lines old hold value hval
  · rw [mem_singleton.1 hval]
    exact hwell.values kv hkv

end Lines

/-- **The two views never diverge.**  Every name has its values in both maps or in none; its text is
the values joined, the first value for `Set-Cookie`, and the only one for `Content-Length`.  Each
name is on one line, each `Set-Cookie` value on its own, and no name and no value has a byte that
ends a line. -/
theorem views_agree (calls : List Call) :
    (∀ name, (lookupField name (ofCalls calls).headers).isSome =
        (lookupField name (ofCalls calls).headerValues).isSome) ∧
      (∀ name, asciiIequals name (text "Set-Cookie") = false →
        asciiIequals name (text "Content-Length") = false →
        (ofCalls calls).get name = joinValues ((ofCalls calls).getAll name)) ∧
      (∀ name, asciiIequals name (text "Set-Cookie") = true →
        (ofCalls calls).get name = ((ofCalls calls).getAll name).headD []) ∧
      (∀ name, asciiIequals name (text "Content-Length") = true →
        (ofCalls calls).contains name = true →
        (ofCalls calls).getAll name = [(ofCalls calls).get name]) ∧
      ∀ entries, entries.Perm (ofCalls calls).headers →
        ∃ lines : List (Bytes × Bytes),
          (ofCalls calls).serialize entries =
            onWire (lines.map fun f => f.1 ++ text ": " ++ f.2) ∧
          (∀ f ∈ lines, ∀ c ∈ f.1 ++ f.2, c ≠ cr ∧ c ≠ lf ∧ c ≠ 0) ∧
          ∀ name, (lines.filter fun f => asciiIequals f.1 name).map Prod.snd =
            if asciiIequals name (text "Set-Cookie") then (ofCalls calls).getAll name
            else if (ofCalls calls).contains name then [(ofCalls calls).get name] else [] := by
  obtain ⟨hbuilt, hviews⟩ : (ofCalls calls).Built ∧ (ofCalls calls).Views :=
    foldlRecOn (motive := fun h => h.Built ∧ h.Views) calls call ⟨.empty, views_empty⟩
      fun _ h c _ => h.2.call h.1 c
  generalize ofCalls calls = h at hbuilt hviews ⊢
  have hwell := hbuilt.wellFormed
  refine ⟨hwell.synced, fun name hcookie hlength => ?_, fun name hcookie => ?_,
    fun name hlength hpresent => ?_, fun entries hentries => ⟨h.fields entries, ?_, ?_, ?_⟩⟩
  · rcases hviews name with ⟨hnone, hempty⟩ | ⟨combined, values, hlookup, hvalues, hagree⟩
    · rw [get, getAll, hnone, hempty]
      rfl
    · rw [Agree, hcookie, hlength] at hagree
      rw [get, getAll, hlookup, hvalues]
      exact hagree.2
  · rcases hviews name with ⟨hnone, hempty⟩ | ⟨combined, values, hlookup, hvalues, hagree⟩
    · rw [get, getAll, hnone, hempty]
      rfl
    · rw [Agree, if_pos hcookie] at hagree
      rw [get, getAll, hlookup, hvalues, headD_eq_head?_getD, hagree]
  · rcases hviews name with ⟨hnone, -⟩ | ⟨combined, values, hlookup, hvalues, hagree⟩
    · rw [contains, hnone] at hpresent
      cases hpresent
    · have hcookie : asciiIequals name (text "Set-Cookie") = false := by
        rw [asciiIequals_congr hlength]
        decide
      rw [Agree, hcookie, if_pos hlength] at hagree
      rw [get, getAll, hlookup, hvalues, hagree]
      rfl
  · rw [serialize, fieldLines_eq hviews hentries]
    rfl
  · intro f hf c hc
    obtain ⟨hname, hvalue⟩ := valid_of_mem_fields hviews hwell hentries hf
    rw [isValidHeaderName, isValidToken, Bool.and_eq_true] at hname
    rcases mem_append.1 hc with hc | hc
    · have htchar := all_eq_true.1 hname.2 c hc
      refine ⟨?_, ?_, ?_⟩ <;> rintro rfl <;> exact absurd htchar (by decide)
    · have hbyte := all_eq_true.1 hvalue c hc
      refine ⟨?_, ?_, ?_⟩ <;> rintro rfl <;> exact absurd hbyte (by decide)
  · intro name
    rw [filter_fields hviews hwell hentries, contains, get]
    cases lookupField name h.headers <;> rfl

end Elio.Http.Headers
