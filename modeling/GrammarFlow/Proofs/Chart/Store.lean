import GrammarFlow.Chart
import Mathlib.Data.List.Nodup

namespace GrammarFlow

namespace StateSet

variable {s : StateSet} {v : Vertex} {o : Nat} {source : Option Ref}

/-- Each key is found at the place of its entry, and nowhere else. -/
def Consistent (s : StateSet) : Prop :=
  ∀ k place, s.find? k.vertex k.origin = some place ↔ (s.entries[place]?).map Entry.key = some k

theorem consistent_empty : ({} : StateSet).Consistent := by
  intro k place
  simp [find?]

def keys (s : StateSet) : List Key := s.entries.toList.map Entry.key

theorem getElem?_keys (place : Nat) : s.keys[place]? = (s.entries[place]?).map Entry.key := by
  rw [keys, List.getElem?_map, Array.getElem?_toList]

@[simp] theorem length_keys : s.keys.length = s.size := by
  simp [keys, size]

theorem Consistent.nodup_keys (hs : s.Consistent) : s.keys.Nodup := by
  rw [List.nodup_iff_getElem?_ne_getElem?]
  intro a b hab hb he
  obtain ⟨k, hk⟩ : ∃ k, s.keys[b]? = some k := ⟨_, List.getElem?_eq_getElem hb⟩
  have ha := he.trans hk
  -- A key stands at one place only.
  rw [getElem?_keys, ← hs] at ha hk
  exact Nat.ne_of_lt hab (Option.some.inj (ha.symm.trans hk))

theorem getElem?_push_of_some {place : Nat} (h : s.find? v o = some place) (j : Nat) :
    (s.push v o source).entries[j]? =
      if place = j then (s.entries[j]?).map (·.link source) else s.entries[j]? := by
  simp only [push, h, Array.getElem?_modify]

theorem getElem?_push_of_none (h : s.find? v o = none) (j : Nat) :
    (s.push v o source).entries[j]? =
      if j = s.size then some ⟨v, o, source.toArray⟩ else s.entries[j]? := by
  simp only [push, h]
  exact Array.getElem?_push

theorem find?_push_of_some {place : Nat} (h : s.find? v o = some place) (w : Vertex) (p : Nat) :
    (s.push v o source).find? w p = s.find? w p := by
  simp only [push, h]
  rfl

theorem find?_push_of_none (h : s.find? v o = none) (k : Key) :
    (s.push v o source).find? k.vertex k.origin =
      if ⟨v, o⟩ = k then some s.size else s.find? k.vertex k.origin := by
  simp only [push, h]
  simp only [find?, Std.TreeMap.getElem?_insert, Std.LawfulEqCmp.compare_eq_iff_eq, size]

@[simp] theorem callers_push (n : Nat) : (s.push v o source).callers n = s.callers n := by
  unfold push
  split <;> rfl

end StateSet

namespace Entry

@[simp] theorem key_link (e : Entry) (source : Option Ref) : (e.link source).key = e.key := by
  cases source with
  | none => rfl
  | some a =>
    simp only [link]
    split <;> rfl

theorem prefix_link (e : Entry) (source : Option Ref) :
    e.antecedents.toList <+: (e.link source).antecedents.toList := by
  cases source with
  | none => exact List.prefix_rfl
  | some a =>
    simp only [link]
    split
    · exact List.prefix_rfl
    · simp

theorem getElem?_zero_link {e : Entry} {first : Ref} (h : e.antecedents[0]? = some first)
    (source : Option Ref) : (e.link source).antecedents[0]? = some first := by
  obtain ⟨hlt, -⟩ := Array.getElem?_eq_some_iff.1 h
  obtain ⟨rest, hrest⟩ := e.prefix_link source
  rw [← Array.getElem?_toList, ← hrest, List.getElem?_append_left hlt, Array.getElem?_toList, h]

theorem mem_link {e : Entry} {a b : Ref} :
    b ∈ (e.link (some a)).antecedents ↔ b ∈ e.antecedents ∨ b = a := by
  simp only [link]
  split
  · next h =>
    have ha : a ∈ e.antecedents := Array.contains_iff_mem.1 h
    exact ⟨Or.inl, fun hb => hb.elim id fun hb => hb ▸ ha⟩
  · exact Array.mem_push

end Entry

namespace StateSet

variable {s : StateSet} {v : Vertex} {o : Nat} {source : Option Ref}

theorem Consistent.push (hs : s.Consistent) : (s.push v o source).Consistent := by
  intro k place
  cases h : s.find? v o with
  | some here =>
    rw [find?_push_of_some h, getElem?_push_of_some h, hs k place]
    split
    · rw [Option.map_map]
      simp only [Function.comp_def, Entry.key_link]
    · rfl
  | none =>
    rw [find?_push_of_none h, getElem?_push_of_none h]
    have hsize : s.entries[s.size]? = none := Array.getElem?_eq_none (Nat.le_refl _)
    -- The key goes to the first free place, and nothing else changes.
    by_cases hk : (⟨v, o⟩ : Key) = k
    · subst hk
      simp only [if_true, Option.some.injEq]
      constructor
      · rintro rfl
        simp [Entry.key]
      · intro hm
        by_contra hne
        rw [if_neg (Ne.symm hne), ← hs ⟨v, o⟩ place, h] at hm
        simp at hm
    · rw [if_neg hk, hs k place]
      split
      · next hp =>
        rw [hp, hsize]
        simp only [Option.map_none, reduceCtorEq, Option.map_some, Option.some.injEq, false_iff]
        exact hk
      · rfl

theorem mem_addPlace {places : Array Nat} {place k : Nat} :
    k ∈ addPlace places place ↔ k ∈ places ∨ k = place := by
  unfold addPlace
  split
  · next h =>
    have hp : place ∈ places := Array.contains_iff_mem.1 h
    exact ⟨Or.inl, fun hk => hk.elim id fun hk => hk ▸ hp⟩
  · exact Array.mem_push

theorem callers_addCaller {n place m : Nat} : (s.addCaller n place).callers m =
    if n = m then addPlace (s.callers m) place else s.callers m := by
  simp only [callers, addCaller, Std.TreeMap.getD_alter, Std.LawfulEqCmp.compare_eq_iff_eq]
  split
  · next h => rw [Option.getD_some, h, Std.TreeMap.getD_eq_getD_getElem?]
  · rfl

end StateSet

namespace Chart

variable {c : Chart} {i : Nat} {v : Vertex} {o : Nat} {source : Option Ref} {a : Ref} {k : Key}

/-- The key of the entry at an address. -/
def key? (c : Chart) (r : Ref) : Option Key := (c.entry? r).map Entry.key

def Consistent (c : Chart) : Prop := ∀ i, (c.set i).Consistent

/-- The key has an entry at the position, and `a` is one of its antecedents. -/
def Linked (c : Chart) (a : Ref) (i : Nat) (k : Key) : Prop :=
  ∃ place e, c.entry? ⟨i, place⟩ = some e ∧ e.key = k ∧ a ∈ e.antecedents

theorem set_eq_of_lt (h : i < c.size) : c.set? i = some (c.set i) := by
  simp only [set, set?]
  rw [Array.getElem?_eq_getElem h, Option.getD_some]

theorem set_eq_of_le (h : c.size ≤ i) : c.set? i = none := Array.getElem?_eq_none h

@[simp] theorem set_initial (j : Nat) : initial.set j = {} := by
  cases j <;> rfl

theorem consistent_initial : initial.Consistent := by
  intro j
  rw [set_initial]
  exact StateSet.consistent_empty

theorem entry?_eq (c : Chart) (r : Ref) :
    c.entry? r = (c.set r.position).entries[r.index]? := by
  by_cases h : r.position < c.size
  · simp only [Chart.entry?, set_eq_of_lt h]
    rfl
  · simp only [Chart.entry?, set, set_eq_of_le (Nat.le_of_not_lt h)]
    rfl

theorem find?_eq (c : Chart) (i : Nat) (v : Vertex) (o : Nat) :
    c.find? i v o = ((c.set i).find? v o).map (⟨i, ·⟩) := by
  by_cases h : i < c.size
  · simp only [find?, set_eq_of_lt h]
    cases h' : (c.set i).find? v o <;> simp [h']
  · simp only [find?, set, set_eq_of_le (Nat.le_of_not_lt h)]
    rfl

theorem Consistent.find?_iff (hc : c.Consistent) {r : Ref} :
    c.find? i k.vertex k.origin = some r ↔ r.position = i ∧ c.key? r = some k := by
  rw [find?_eq, Option.map_eq_some_iff]
  constructor
  · rintro ⟨place, h, rfl⟩
    refine ⟨rfl, ?_⟩
    rw [key?, entry?_eq]
    exact (hc i k place).1 h
  · rintro ⟨rfl, h⟩
    rw [key?, entry?_eq] at h
    exact ⟨r.index, (hc _ k _).2 h, rfl⟩

theorem Consistent.ref_unique (hc : c.Consistent) {r r' : Ref} (h : c.key? r = some k)
    (h' : c.key? r' = some k) (hp : r.position = r'.position) : r = r' := by
  have hr := (hc.find?_iff (i := r.position)).2 ⟨rfl, h⟩
  have hr' := hc.find?_iff.2 ⟨hp.symm, h'⟩
  exact Option.some.inj (hr.symm.trans hr')

theorem set_push (hi : i < c.size) (j : Nat) :
    (c.push i v o source).set j = if i = j then (c.set j).push v o source else c.set j := by
  simp only [set, set?, push, Array.getElem?_modify]
  split
  · next h =>
    subst h
    rw [Array.getElem?_eq_getElem hi]
    rfl
  · rfl

@[simp] theorem callers_push (j n : Nat) :
    ((c.push i v o source).set j).callers n = (c.set j).callers n := by
  rcases Nat.lt_or_ge i c.size with hi | hi
  · rw [set_push hi]
    split
    · exact StateSet.callers_push n
    · rfl
  · have h : (c.push i v o source).sets = c.sets := by
      apply Array.ext_getElem?
      intro m
      simp only [push, Array.getElem?_modify]
      split
      · next hm =>
        subst hm
        rw [Array.getElem?_eq_none hi]
        rfl
      · rfl
    simp only [set, set?, h]

@[simp] theorem size_push : (c.push i v o source).size = c.size := by
  simp [size, push]

theorem set_addCaller {r : Ref} {n : Nat} (hr : r.position < c.size) (j : Nat) :
    (c.addCaller r n).set j =
      if r.position = j then (c.set j).addCaller n r.index else c.set j := by
  simp only [set, set?, addCaller, Array.getElem?_modify]
  split
  · next h =>
    subst h
    rw [Array.getElem?_eq_getElem hr]
    rfl
  · rfl

@[simp] theorem size_addCaller {r : Ref} {n : Nat} : (c.addCaller r n).size = c.size := by
  simp [size, addCaller]

@[simp] theorem set_addSet (j : Nat) : c.addSet.set j = c.set j := by
  simp only [set, set?, addSet, Array.getElem?_push]
  split
  · next h =>
    rw [h, Array.getElem?_eq_none (Nat.le_refl _)]
    rfl
  · rfl

@[simp] theorem size_addSet : c.addSet.size = c.size + 1 := by
  simp [size, addSet]

@[simp] theorem entry?_addSet (r : Ref) : c.addSet.entry? r = c.entry? r := by
  rw [entry?_eq, entry?_eq, set_addSet]

@[simp] theorem entry?_addCaller {r : Ref} {n : Nat} (hr : r.position < c.size) (q : Ref) :
    Chart.entry? (c.addCaller r n) q = c.entry? q := by
  rw [entry?_eq, entry?_eq, set_addCaller hr]
  split <;> rfl

theorem lt_size_of_entry {r : Ref} {e : Entry} (h : c.entry? r = some e) :
    r.position < c.size := by
  by_contra hr
  simp only [Chart.entry?, set_eq_of_le (Nat.le_of_not_lt hr)] at h
  simp at h

theorem index_lt_of_entry {r : Ref} {e : Entry} (h : c.entry? r = some e) :
    r.index < (c.set r.position).size := by
  rw [entry?_eq] at h
  exact (Array.getElem?_eq_some_iff.1 h).1

theorem exists_entry?_of_lt {r : Ref} (h : r.index < (c.set r.position).size) :
    ∃ e, c.entry? r = some e := by
  rw [entry?_eq]
  exact ⟨_, Array.getElem?_eq_getElem h⟩

theorem exists_entry?_of_key? {r : Ref} (h : c.key? r = some k) :
    ∃ e, c.entry? r = some e ∧ e.key = k := Option.map_eq_some_iff.1 h

theorem lt_size_of_key? {r : Ref} (h : c.key? r = some k) : r.position < c.size := by
  obtain ⟨e, he, -⟩ := exists_entry?_of_key? h
  exact lt_size_of_entry he

theorem key?_of_entry {r : Ref} {e : Entry} (h : c.entry? r = some e) : c.key? r = some e.key := by
  rw [key?, h]
  rfl

theorem Linked.exists_key? (h : c.Linked a i k) : ∃ r, r.position = i ∧ c.key? r = some k := by
  obtain ⟨place, e, he, rfl, -⟩ := h
  exact ⟨⟨i, place⟩, rfl, key?_of_entry he⟩

theorem mem_keys_iff : k ∈ (c.set i).keys ↔ ∃ r : Ref, r.position = i ∧ c.key? r = some k := by
  rw [List.mem_iff_getElem?]
  constructor
  · rintro ⟨place, h⟩
    refine ⟨⟨i, place⟩, rfl, ?_⟩
    rw [key?, entry?_eq, ← h, StateSet.getElem?_keys]
  · rintro ⟨r, rfl, h⟩
    rw [key?, entry?_eq] at h
    exact ⟨r.index, (StateSet.getElem?_keys _).trans h⟩

theorem Consistent.push (hc : c.Consistent) (hi : i < c.size) :
    (c.push i v o source).Consistent := by
  intro j
  rw [set_push hi]
  split
  · exact (hc j).push
  · exact hc j

/-- An entry after a push was there before, or has a new link, or is new itself. -/
theorem entry?_push (hc : c.Consistent) (hi : i < c.size) {r : Ref} {e : Entry}
    (h : Chart.entry? (c.push i v o source) r = some e) :
    c.entry? r = some e ∨
      (∃ e', c.entry? r = some e' ∧ r.position = i ∧ e'.key = ⟨v, o⟩ ∧ e = e'.link source) ∨
      (r = ⟨i, (c.set i).size⟩ ∧ e = ⟨v, o, source.toArray⟩) := by
  rw [entry?_eq, set_push hi] at h
  split at h
  · next hp =>
    cases hf : (c.set r.position).find? v o with
    | some place =>
      rw [StateSet.getElem?_push_of_some hf, ← entry?_eq] at h
      split at h
      · next hplace =>
        obtain ⟨e', he', rfl⟩ := Option.map_eq_some_iff.1 h
        refine Or.inr (Or.inl ⟨e', he', hp.symm, ?_, rfl⟩)
        have hk := (hc _ ⟨v, o⟩ place).1 hf
        rw [hplace, ← entry?_eq, he'] at hk
        exact Option.some.inj hk
      · exact Or.inl h
    | none =>
      rw [StateSet.getElem?_push_of_none hf, ← entry?_eq] at h
      split at h
      · next hr =>
        obtain ⟨position, index⟩ := r
        dsimp only at hp hr
        subst hp hr
        exact Or.inr (Or.inr ⟨rfl, (Option.some.inj h).symm⟩)
      · exact Or.inl h
  · rw [← entry?_eq] at h
    exact Or.inl h

/-- The entry with the key that is pushed has the link, or is new with the source alone. -/
theorem entry?_push_of_key (hc : c.Consistent) (hi : i < c.size) {r : Ref} {e : Entry}
    (h : Chart.entry? (c.push i v o source) r = some e) (hr : r.position = i) (hk : e.key = ⟨v, o⟩) :
    (∃ e', c.entry? r = some e' ∧ e'.key = ⟨v, o⟩ ∧ e = e'.link source) ∨
      (c.find? i v o = none ∧ e.antecedents = source.toArray) := by
  subst hr
  -- What has the key already has its place.
  have hplace : c.entry? r = some e → (c.set r.position).find? v o = some r.index := by
    intro he
    rw [hc r.position ⟨v, o⟩ r.index, ← entry?_eq, he, ← hk]
    rfl
  rw [entry?_eq, set_push hi, if_pos rfl] at h
  rw [find?_eq]
  cases hf : (c.set r.position).find? v o with
  | some place =>
    rw [StateSet.getElem?_push_of_some hf, ← entry?_eq] at h
    split at h
    · obtain ⟨e', he', rfl⟩ := Option.map_eq_some_iff.1 h
      rw [Entry.key_link] at hk
      exact .inl ⟨e', he', hk, rfl⟩
    · next hne => exact absurd (Option.some.inj (hf.symm.trans (hplace h))) hne
  | none =>
    rw [StateSet.getElem?_push_of_none hf, ← entry?_eq] at h
    split at h
    · obtain rfl := Option.some.inj h
      exact .inr ⟨rfl, rfl⟩
    · cases hf.symm.trans (hplace h)

/-- The sets below position `i` are the same in the second chart, and everything else that is in the
first chart has its place there. -/
structure Extends (i : Nat) (c c' : Chart) : Prop where
  size_eq : c'.size = c.size
  set_eq : ∀ j < i, c'.set j = c.set j
  consistent : c.Consistent → c'.Consistent
  entry : ∀ {r e}, c.entry? r = some e → ∃ e', c'.entry? r = some e' ∧ e'.key = e.key ∧
    e.antecedents.toList <+: e'.antecedents.toList

namespace Extends

variable {c' c'' : Chart}

theorem refl (i : Nat) (c : Chart) : Extends i c c where
  size_eq := rfl
  set_eq _ _ := rfl
  consistent h := h
  entry h := ⟨_, h, rfl, List.prefix_rfl⟩

theorem trans (h : Extends i c c') (h' : Extends i c' c'') : Extends i c c'' where
  size_eq := h'.size_eq.trans h.size_eq
  set_eq j hj := (h'.set_eq j hj).trans (h.set_eq j hj)
  consistent hc := h'.consistent (h.consistent hc)
  entry hr := by
    obtain ⟨e', he', hk', hp'⟩ := h.entry hr
    obtain ⟨e'', he'', hk'', hp''⟩ := h'.entry he'
    exact ⟨e'', he'', hk''.trans hk', hp'.trans hp''⟩

theorem mono {j : Nat} (hij : i ≤ j) (h : Extends j c c') : Extends i c c' :=
  { h with set_eq := fun m hm => h.set_eq m (Nat.lt_of_lt_of_le hm hij) }

theorem key (h : Extends i c c') {r : Ref} (hr : c.key? r = some k) : c'.key? r = some k := by
  obtain ⟨e, he, rfl⟩ := exists_entry?_of_key? hr
  obtain ⟨e', he', hk, -⟩ := h.entry he
  rw [key?_of_entry he', hk]

theorem linked (h : Extends i c c') {j : Nat} (hl : c.Linked a j k) : c'.Linked a j k := by
  obtain ⟨place, e, he, hk, ha⟩ := hl
  obtain ⟨e', he', hk', hp⟩ := h.entry he
  exact ⟨place, e', he', hk'.trans hk, by simpa using hp.subset (by simpa using ha)⟩

theorem size_le (h : Extends i c c') (j : Nat) : (c.set j).size ≤ (c'.set j).size := by
  by_contra hlt
  obtain ⟨e, he⟩ := exists_entry?_of_lt (c := c) (r := ⟨j, (c'.set j).size⟩) (Nat.lt_of_not_le hlt)
  obtain ⟨e', he', -⟩ := h.entry he
  exact Nat.lt_irrefl _ (index_lt_of_entry he')

/-- A key of the second chart at a place that the first chart has filled is its key there. -/
theorem key_of_lt (h : Extends i c c') {r : Ref} (hr : c'.key? r = some k)
    (hlt : r.index < (c.set r.position).size) : c.key? r = some k := by
  obtain ⟨e, he⟩ := exists_entry?_of_lt hlt
  have hk := key?_of_entry he
  rw [hk, ← h.key hk, hr]

end Extends

theorem extends_push (hi : i < c.size) {m : Nat} (hm : m ≤ i) :
    Extends m c (c.push i v o source) where
  size_eq := size_push
  set_eq j hj := by rw [set_push hi, if_neg (by omega)]
  consistent hc := hc.push hi
  entry {r e} h := by
    rw [entry?_eq] at h
    rw [entry?_eq, set_push hi]
    split
    · cases hf : (c.set r.position).find? v o with
      | some place =>
        rw [StateSet.getElem?_push_of_some hf, h]
        split
        · exact ⟨_, rfl, e.key_link source, e.prefix_link source⟩
        · exact ⟨e, rfl, rfl, List.prefix_rfl⟩
      | none =>
        have hlt : r.index < (c.set r.position).size := (Array.getElem?_eq_some_iff.1 h).1
        rw [StateSet.getElem?_push_of_none hf, if_neg (by omega)]
        exact ⟨e, h, rfl, List.prefix_rfl⟩
    · exact ⟨e, h, rfl, List.prefix_rfl⟩

/-- A key that is pushed is found where it was, or else at the next place of its set. -/
theorem Consistent.key?_push (hc : c.Consistent) (hi : i < c.size) :
    key? (c.push i v o source) ((c.find? i v o).getD ⟨i, (c.set i).size⟩) = some ⟨v, o⟩ := by
  cases hf : c.find? i v o with
  | some r =>
    obtain ⟨-, hk⟩ := (hc.find?_iff (k := ⟨v, o⟩)).1 hf
    exact (extends_push hi (Nat.zero_le _)).key hk
  | none =>
    rw [find?_eq, Option.map_eq_none_iff] at hf
    rw [Option.getD_none, key?, entry?_eq, set_push hi, if_pos rfl, StateSet.getElem?_push_of_none hf,
      if_pos rfl]
    rfl

theorem Consistent.addCaller (hc : c.Consistent) {r : Ref} {n : Nat} (hr : r.position < c.size) :
    (c.addCaller r n).Consistent := by
  intro j
  rw [set_addCaller hr]
  split
  · exact hc j
  · exact hc j

theorem extends_addCaller {r : Ref} {n : Nat} (hr : r.position < c.size) :
    Extends r.position c (c.addCaller r n) where
  size_eq := size_addCaller
  set_eq j hj := by rw [set_addCaller hr, if_neg (by omega)]
  consistent hc := hc.addCaller hr
  entry h := ⟨_, (entry?_addCaller hr _).trans h, rfl, List.prefix_rfl⟩

theorem linked_push (hc : c.Consistent) (hi : i < c.size) :
    (c.push i v o (some a)).Linked a i ⟨v, o⟩ := by
  cases hf : (c.set i).find? v o with
  | some place =>
    have hk := (hc i ⟨v, o⟩ place).1 hf
    obtain ⟨e, he, hek⟩ := Option.map_eq_some_iff.1 hk
    refine ⟨place, e.link (some a), ?_, (e.key_link _).trans hek, Entry.mem_link.2 (Or.inr rfl)⟩
    rw [entry?_eq, set_push hi, if_pos rfl, StateSet.getElem?_push_of_some hf, if_pos rfl]
    exact Option.map_eq_some_iff.2 ⟨e, he, rfl⟩
  | none =>
    refine ⟨(c.set i).size, ⟨v, o, #[a]⟩, ?_, rfl, by simp⟩
    rw [entry?_eq, set_push hi, if_pos rfl, StateSet.getElem?_push_of_none hf, if_pos rfl]
    rfl

end Chart

end GrammarFlow
