namespace GrammarFlow

theorem idxOf?_eq_some_iff_getElem? {α : Type} [DecidableEq α] {l : List α} (h : l.Nodup) {a : α}
    {i : Nat} : l.idxOf? a = some i ↔ l[i]? = some a := by
  rw [List.idxOf?_eq_some_iff]
  constructor
  · rintro ⟨hi, rfl, -⟩
    exact List.getElem?_eq_getElem hi
  · intro hget
    obtain ⟨hi, ha⟩ := List.getElem?_eq_some_iff.1 hget
    exact ⟨hi, ha, fun j hj he => Nat.ne_of_lt hj ((List.getElem_inj h).1 (he.trans ha.symm))⟩

structure NameTable where
  names : Array String := #[]
  nodup : names.toList.Nodup := by simp
deriving DecidableEq

namespace NameTable

def empty : NameTable := {}

def size (t : NameTable) : Nat := t.names.size

def isEmpty (t : NameTable) : Bool := t.names.isEmpty

def contains (t : NameTable) (name : String) : Bool := t.names.contains name

def id? (t : NameTable) (name : String) : Option Nat := t.names.idxOf? name

def name? (t : NameTable) (id : Nat) : Option String := t.names[id]?

theorem nodup_push {names : Array String} (h : names.toList.Nodup) {name : String}
    (new : name ∉ names) : (names.push name).toList.Nodup := by
  rw [Array.toList_push, List.nodup_append]
  exact ⟨h, by simp, fun a ha b hb => by
    rw [List.mem_singleton] at hb
    exact fun hab => new (by rw [← hb, ← hab]; exact Array.mem_toList_iff.1 ha)⟩

/-- The number of a name, and the table with the name entered if it was new. -/
def insert (t : NameTable) (name : String) : Nat × NameTable :=
  if h : name ∈ t.names then (t.names.idxOf name, t)
  else (t.size, ⟨t.names.push name, nodup_push t.nodup h⟩)

theorem id?_eq_some_iff {t : NameTable} {name : String} {id : Nat} :
    t.id? name = some id ↔ t.name? id = some name := by
  obtain ⟨⟨names⟩, nodup⟩ := t
  simp only [id?, name?, List.idxOf?_toArray, List.getElem?_toArray]
  exact idxOf?_eq_some_iff_getElem? nodup

def insertAll (t : NameTable) (names : List String) : NameTable :=
  names.foldl (fun t name => (t.insert name).2) t

end NameTable

end GrammarFlow
