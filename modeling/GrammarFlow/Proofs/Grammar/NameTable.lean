import GrammarFlow.NameTable
import GrammarFlow.Proofs.Distinct

namespace GrammarFlow

namespace NameTable

variable {t : NameTable} {name other : String} {names : List String} {number : Nat}

theorem mem_insert {x : String} :
    x ∈ (t.insert name).2.names ↔ x ∈ t.names ∨ x = name := by
  by_cases h : name ∈ t.names
  · rw [insert, dif_pos h]
    exact ⟨Or.inl, fun hx => hx.elim id fun hx => hx ▸ h⟩
  · rw [insert, dif_neg h]
    exact Array.mem_push

theorem mem_insertAll {x : String} :
    x ∈ (t.insertAll names).names ↔ x ∈ t.names ∨ x ∈ names := by
  induction names generalizing t with
  | nil => simp [insertAll]
  | cons name names ih =>
    have h := ih (t := (t.insert name).2)
    rw [mem_insert] at h
    rw [List.mem_cons, ← or_assoc]
    exact h

theorem contains_iff : t.contains name = true ↔ name ∈ t.names := by
  rw [contains, Array.contains_iff_mem]

theorem id?_lt (h : t.id? name = some number) : number < t.size := by
  obtain ⟨hlt, -⟩ := Array.getElem?_eq_some_iff.1 (id?_eq_some_iff.1 h)
  exact hlt

theorem idxOf_lt (h : name ∈ t.names) :
    t.names.idxOf name < t.size := Array.idxOf_lt_length_of_mem h

theorem id?_isSome_iff : (t.id? name).isSome ↔ name ∈ t.names := by
  rw [id?, Array.isSome_idxOf?]

theorem ext_names {t u : NameTable} (h : t.names.toList = u.names.toList) : t = u := by
  obtain ⟨⟨names⟩, nodup⟩ := t
  obtain ⟨⟨names'⟩, nodup'⟩ := u
  obtain rfl : names = names' := h
  rfl

theorem toList_names_insert : (t.insert name).2.names.toList =
    if name ∈ t.names then t.names.toList else t.names.toList ++ [name] := by
  by_cases h : name ∈ t.names
  · rw [insert, dif_pos h, if_pos h]
  · rw [insert, dif_neg h, if_neg h]
    exact Array.toList_push

theorem insertAll_concat : t.insertAll (names ++ [name]) = ((t.insertAll names).insert name).2 := by
  rw [insertAll, List.foldl_concat]
  rfl

/-- Names are numbered in the order in which they first come. -/
theorem toList_names_insertAll (names : List String) :
    (empty.insertAll names).names.toList = names.eraseDups := by
  induction names using List.reverseRecOn with
  | nil => rfl
  | append_singleton names name ih =>
    have hmem : name ∈ (empty.insertAll names).names ↔ name ∈ names := by
      rw [mem_insertAll]
      exact or_iff_right (by simp [empty])
    rw [insertAll_concat, toList_names_insert, ih, eraseDups_concat]
    simp only [hmem]

theorem insertAll_names (t : NameTable) : empty.insertAll t.names.toList = t := by
  apply ext_names
  rw [toList_names_insertAll, eraseDups_of_nodup t.nodup]

theorem name?_idxOf (h : name ∈ t.names) : t.name? (t.names.idxOf name) = some name := by
  obtain ⟨⟨names⟩, nodup⟩ := t
  simp only [name?, List.idxOf_toArray, List.getElem?_toArray]
  exact List.getElem?_idxOf (by simpa using h)

theorem id?_eq_idxOf (h : name ∈ t.names) : t.id? name = some (t.names.idxOf name) :=
  id?_eq_some_iff.2 (name?_idxOf h)

theorem idxOf_getElem {k : Nat} (h : k < t.size) : t.names.idxOf t.names[k] = k := by
  have hname : t.name? k = some t.names[k] := Array.getElem?_eq_getElem h
  exact Option.some.inj ((id?_eq_idxOf (Array.getElem_mem h)).symm.trans (id?_eq_some_iff.2 hname))

theorem id?_eq_none_iff : t.id? name = none ↔ name ∉ t.names := by
  rw [← id?_isSome_iff, Option.not_isSome_iff_eq_none]

theorem insert_snd_of_mem (h : name ∈ t.names) : (t.insert name).2 = t := by
  rw [insert, dif_pos h]

theorem insertAll_append (t : NameTable) (xs ys : List String) :
    t.insertAll (xs ++ ys) = (t.insertAll xs).insertAll ys := List.foldl_append

theorem insertAll_of_mem (h : ∀ name ∈ names, name ∈ t.names) : t.insertAll names = t := by
  induction names with
  | nil => rfl
  | cons name names ih =>
    rw [insertAll, List.foldl_cons, insert_snd_of_mem (h name List.mem_cons_self)]
    exact ih fun other hother => h other (List.mem_cons_of_mem name hother)

/-- A new name gets the next number, and all others keep theirs. -/
theorem id?_insert : (t.insert name).2.id? other =
    if other = name then some (t.insert name).1 else t.id? other := by
  by_cases h : name ∈ t.names
  · rw [insert, dif_pos h]
    split
    · next heq => rw [heq, id?_eq_idxOf h]
    · rfl
  · have hname? : ∀ k, (t.insert name).2.name? k = if k = t.size then some name else t.name? k := by
      intro k
      rw [insert, dif_neg h]
      exact Array.getElem?_push
    have hfirst : (t.insert name).1 = t.size := by
      rw [insert, dif_neg h]
    apply Option.ext
    intro k
    rw [id?_eq_some_iff, hname?, hfirst]
    by_cases hname : other = name
    · subst hname
      rw [if_pos rfl, Option.some.injEq]
      split
      · next hk => exact iff_of_true rfl hk.symm
      · next hk =>
        refine iff_of_false (fun hmem => h ?_) (Ne.symm hk)
        exact Array.mem_of_getElem? hmem
    · rw [if_neg hname]
      split
      · next hk =>
        refine iff_of_false (fun heq => hname (Option.some.inj heq).symm) fun hid => ?_
        exact Nat.lt_irrefl _ (hk ▸ id?_lt hid)
      · exact id?_eq_some_iff.symm

theorem id?_insert_self : (t.insert name).2.id? name = some (t.insert name).1 := by
  rw [id?_insert, if_pos rfl]

theorem id?_insertAll (h : t.id? name = some number) (more : List String) :
    (t.insertAll more).id? name = some number := by
  induction more generalizing t with
  | nil => exact h
  | cons next more ih =>
    apply ih
    rw [id?_insert]
    split
    · next heq =>
      subst heq
      have hmem : name ∈ t.names := id?_isSome_iff.1 (Option.isSome_of_eq_some h)
      rw [← id?_insert_self, insert_snd_of_mem hmem, h]
    · exact h

end NameTable

end GrammarFlow
