import GrammarFlow.Proofs.Grammar.Names
import Mathlib.Data.Set.Function
import Std.Data.HashMap

namespace GrammarFlow

/-- The numbers that are handed out as names are inserted in order, and what this leaves. -/
def insertEach {σ ι : Type} (insert : σ → String → ι × σ) (s : σ) : List String → List ι × σ
  | [] => ([], s)
  | name :: rest =>
    ((insert s name).1 :: (insertEach insert (insert s name).2 rest).1,
      (insertEach insert (insert s name).2 rest).2)

/-- The distinct ones of the names are listed in the order of first insertion, and names and numbers tell
each other, where each number has a place in the list. -/
structure Numbers {ι : Type} (names listed : List String) (id? : String → Option ι)
    (name? : ι → Option String) (contains : String → Bool) (place : ι → Nat) : Prop where
  listed_eq : listed = names.eraseDups
  bijOn : Set.BijOn id? {name | name ∈ names} (some '' {id | place id < listed.length})
  inverse : ∀ name id, id? name = some id ↔ name? id = some name
  in_order : ∀ name id, id? name = some id → listed[place id]? = some name
  contains_eq : ∀ name, contains name = (id? name).isSome

theorem Numbers.of_places {ι : Type} {names listed : List String} {id? : String → Option ι}
    {name? : ι → Option String} {contains : String → Bool} {place : ι → Nat}
    (hlisted : listed = names.eraseDups) (hname : ∀ id, name? id = listed[place id]?)
    (hinverse : ∀ name id, id? name = some id ↔ name? id = some name)
    (hfound : ∀ name ∈ names, ∃ id, id? name = some id)
    (hcontains : ∀ name, contains name = (id? name).isSome) :
    Numbers names listed id? name? contains place where
  listed_eq := hlisted
  bijOn := by
    refine ⟨fun name hmem => ?_, fun a ha b hb hab => ?_, ?_⟩
    · obtain ⟨id, hid⟩ := hfound name hmem
      have hplace := (hname id).symm.trans ((hinverse name id).1 hid)
      exact ⟨id, (List.getElem?_eq_some_iff.1 hplace).1, hid.symm⟩
    · obtain ⟨id, hid⟩ := hfound a ha
      have hname := (hinverse a id).1 hid
      rw [(hinverse b id).1 (hab ▸ hid)] at hname
      exact (Option.some.inj hname).symm
    · rintro _ ⟨id, hlt, rfl⟩
      have hplace := (hname id).trans (List.getElem?_eq_getElem hlt)
      have hmem : listed[place id] ∈ listed := List.getElem_mem hlt
      exact ⟨_, List.mem_eraseDups.1 (hlisted ▸ hmem), (hinverse _ id).2 hplace⟩
  inverse := hinverse
  in_order name id hid := (hname id).symm.trans ((hinverse name id).1 hid)
  contains_eq := hcontains

namespace NameTable

variable {t : NameTable} {name other : String} {names more : List String} {number : Nat}

theorem insertEach_snd (t : NameTable) (names : List String) :
    (insertEach insert t names).2 = t.insertAll names := by
  induction names generalizing t with
  | nil => rfl
  | cons name rest ih => exact ih _

theorem insertEach_fst (t : NameTable) (names : List String) :
    (insertEach insert t names).1.map some = names.map (t.insertAll names).id? := by
  induction names generalizing t with
  | nil => rfl
  | cons name rest ih => exact congrArg₂ List.cons (id?_insertAll id?_insert_self rest).symm (ih _)

theorem lt_of_mem_insertEach (names : List String) :
    ∀ number ∈ (insertEach insert empty names).1, number < names.eraseDups.length := by
  intro number h
  have hmem := List.mem_map_of_mem (f := some) h
  rw [insertEach_fst] at hmem
  obtain ⟨name, -, hid⟩ := List.mem_map.1 hmem
  rw [← toList_names_insertAll]
  exact id?_lt hid

theorem numbers_insertAll (names : List String) :
    Numbers names (empty.insertAll names).names.toList (empty.insertAll names).id?
      (empty.insertAll names).name? (empty.insertAll names).contains id := by
  refine .of_places (toList_names_insertAll names) (fun number => ?_)
    (fun name number => id?_eq_some_iff) (fun name hmem => ?_) fun name => ?_
  · exact (Array.getElem?_toList ..).symm
  · exact ⟨_, id?_eq_idxOf (mem_insertAll.2 (.inr hmem))⟩
  · rw [Bool.eq_iff_iff, contains_iff, id?_isSome_iff]

end NameTable

/-- A table that keeps an index beside its names, with numbers of 32 bits. -/
structure NameIndex where
  ids : Std.HashMap String UInt32 := ∅
  names : Array String := #[]

namespace NameIndex

variable {x : NameIndex} {t : NameTable} {name other : String} {names : List String} {number : UInt32}

def empty : NameIndex := {}

def id? (x : NameIndex) (name : String) : Option UInt32 := x.ids[name]?

def name? (x : NameIndex) (id : UInt32) : Option String := x.names[id.toNat]?

def contains (x : NameIndex) (name : String) : Bool := x.ids.contains name

def insert (x : NameIndex) (name : String) : UInt32 × NameIndex :=
  match x.id? name with
  | some id => (id, x)
  | none =>
    let id := x.names.size.toUInt32
    (id, ⟨x.ids.insert name id, x.names.push name⟩)

theorem insert_snd_of_id? (h : x.id? name = some number) : (x.insert name).2 = x := by
  rw [insert, h]

/-- The index holds the names of a table in the same order, and their numbers cut to 32 bits. -/
structure Mirrors (x : NameIndex) (t : NameTable) : Prop where
  names_eq : x.names = t.names
  id?_eq : ∀ name, x.id? name = (t.id? name).map Nat.toUInt32

theorem mirrors_empty : empty.Mirrors .empty where
  names_eq := rfl
  id?_eq name := by
    have hnone : NameTable.empty.id? name = none := NameTable.id?_eq_none_iff.2 (by simp [NameTable.empty])
    rw [hnone]
    exact Std.HashMap.getElem?_empty

namespace Mirrors

/-- The map and the names go on in step, by a branch each of an old and of a new name. -/
theorem insert (h : x.Mirrors t) (name : String) : (x.insert name).1 = (t.insert name).1.toUInt32 ∧
    (x.insert name).2.Mirrors (t.insert name).2 := by
  have hid := h.id?_eq name
  by_cases hmem : name ∈ t.names
  · rw [NameTable.id?_eq_idxOf hmem, Option.map_some] at hid
    rw [NameIndex.insert, hid, NameTable.insert, dif_pos hmem]
    exact ⟨rfl, h⟩
  · rw [NameTable.id?_eq_none_iff.2 hmem, Option.map_none] at hid
    have hfirst : (t.insert name).1 = t.size := by
      rw [NameTable.insert, dif_neg hmem]
    have hsize : x.names.size = t.size := congrArg Array.size h.names_eq
    rw [NameIndex.insert, hid, hfirst, hsize]
    refine ⟨rfl, ?_, fun other => ?_⟩
    · rw [NameTable.insert, dif_neg hmem, h.names_eq]
    · rw [NameTable.id?_insert, hfirst]
      have hother := h.id?_eq other
      simp only [NameIndex.id?, Std.HashMap.getElem?_insert, beq_iff_eq, eq_comm (a := name)] at hother ⊢
      split
      · rfl
      · exact hother

theorem each (h : x.Mirrors t) (names : List String) :
    (insertEach NameIndex.insert x names).1 =
        (insertEach NameTable.insert t names).1.map Nat.toUInt32 ∧
      (insertEach NameIndex.insert x names).2.Mirrors
        (insertEach NameTable.insert t names).2 := by
  induction names generalizing x t with
  | nil => exact ⟨rfl, h⟩
  | cons name rest ih =>
    obtain ⟨hfirst, hnext⟩ := h.insert name
    obtain ⟨hrest, hend⟩ := ih hnext
    exact ⟨congrArg₂ List.cons hfirst hrest, hend⟩

/-- A number keeps its name by all later insertions, even when they need more than 32 bits. -/
theorem keeps (h : x.Mirrors t) (hname : x.name? number = some name) (more : List String) :
    (insertEach NameIndex.insert x more).2.name? number = some name ∧
      (insertEach NameIndex.insert x more).2.id? name = some number := by
  obtain ⟨-, hmore⟩ := h.each more
  rw [NameTable.insertEach_snd] at hmore
  have hold : t.name? number.toNat = some name := by
    rw [NameTable.name?, ← h.names_eq]
    exact hname
  have hid := NameTable.id?_insertAll (NameTable.id?_eq_some_iff.2 hold) more
  rw [hmore.id?_eq, hid, name?, hmore.names_eq]
  exact ⟨NameTable.id?_eq_some_iff.1 hid, congrArg some UInt32.ofNat_toNat⟩

/-- As long as 32 bits are enough, names and numbers tell each other in the index too. -/
theorem numbers (h : x.Mirrors (NameTable.empty.insertAll names))
    (hsize : names.eraseDups.length < UInt32.size) :
    Numbers names x.names.toList x.id? x.name? x.contains UInt32.toNat := by
  have htable := NameTable.numbers_insertAll names
  refine .of_places ?_ (fun number => ?_) (fun name number => ?_) (fun name hmem => ?_) fun name => ?_
  · rw [h.names_eq]
    exact htable.listed_eq
  · exact (Array.getElem?_toList ..).symm
  · rw [h.id?_eq, name?, h.names_eq, Option.map_eq_some_iff]
    constructor
    · rintro ⟨k, hk, rfl⟩
      have hlt : k < (NameTable.empty.insertAll names).names.toList.length := NameTable.id?_lt hk
      rw [htable.listed_eq] at hlt
      have hplace : k.toUInt32.toNat = k := Nat.mod_eq_of_lt (hlt.trans hsize)
      rw [hplace]
      exact (htable.inverse name k).1 hk
    · intro hname
      exact ⟨number.toNat, (htable.inverse name _).2 hname, UInt32.ofNat_toNat⟩
  · obtain ⟨k, -, hk⟩ := htable.bijOn.1 hmem
    exact ⟨k.toUInt32, by rw [h.id?_eq, ← hk, Option.map_some]⟩
  · exact Std.HashMap.contains_eq_isSome_getElem?

end Mirrors

end NameIndex

/-- Whatever names are inserted into a new table, and however often, it numbers the distinct ones in the
order of first insertion, one to one. What is handed out for a name is its number in the end; later
insertions keep the names of all numbers, and a name that is inserted again changes nothing. If 32 bits are
enough for the numbers, an index beside the names does all of this too, with the same numbers. -/
theorem insertEach_numbers {names : List String} {given : List Nat} {given' : List UInt32} {t : NameTable}
    {x : NameIndex} (hsize : names.eraseDups.length < UInt32.size)
    (ht : insertEach NameTable.insert .empty names = (given, t))
    (hx : insertEach NameIndex.insert .empty names = (given', x)) :
    (Numbers names t.names.toList t.id? t.name? t.contains id ∧
      given.map some = names.map t.id? ∧
      (∀ more name number, t.name? number = some name →
        (insertEach NameTable.insert t more).2.name? number = some name ∧
          (insertEach NameTable.insert t more).2.id? name = some number) ∧
      ∀ name ∈ names, (t.insert name).2 = t) ∧
    Numbers names x.names.toList x.id? x.name? x.contains UInt32.toNat ∧
      given'.map some = names.map x.id? ∧ given'.map UInt32.toNat = given ∧
      (∀ more name number, x.name? number = some name →
        (insertEach NameIndex.insert x more).2.name? number = some name ∧
          (insertEach NameIndex.insert x more).2.id? name = some number) ∧
      ∀ name ∈ names, (x.insert name).2 = x := by
  obtain ⟨hgiven', hmirrors⟩ := NameIndex.mirrors_empty.each names
  have hgiven := NameTable.insertEach_fst .empty names
  have hlt := NameTable.lt_of_mem_insertEach names
  have hleft := NameTable.insertEach_snd .empty names
  rw [ht] at hgiven hlt hleft
  rw [ht, hx] at hgiven' hmirrors
  dsimp only at hgiven hlt hleft hgiven' hmirrors
  subst hleft
  have hindex := hmirrors.numbers hsize
  refine ⟨⟨NameTable.numbers_insertAll names, hgiven, fun more name number hname => ?_,
    fun name hmem => ?_⟩, hindex, ?_, ?_, fun more name number hname => hmirrors.keeps hname more,
    fun name hmem => ?_⟩
  · rw [NameTable.insertEach_snd]
    have hid := NameTable.id?_insertAll (NameTable.id?_eq_some_iff.2 hname) more
    exact ⟨NameTable.id?_eq_some_iff.1 hid, hid⟩
  · exact NameTable.insert_snd_of_mem (NameTable.mem_insertAll.2 (.inr hmem))
  · calc given'.map some
      _ = (given.map some).map (Option.map Nat.toUInt32) := by rw [hgiven', List.map_map, List.map_map]; rfl
      _ = names.map x.id? := by
        rw [hgiven, List.map_map]
        exact List.map_congr_left fun name _ => (hmirrors.id?_eq name).symm
  · rw [hgiven', List.map_map]
    exact (List.map_congr_left fun k hk => Nat.mod_eq_of_lt ((hlt k hk).trans hsize)).trans given.map_id
  · obtain ⟨id, -, hid⟩ := hindex.bijOn.1 hmem
    exact NameIndex.insert_snd_of_id? hid.symm

/-- `"S"` is inserted twice among three names. -/
theorem repeatedName_numbers :
    Numbers ["S", "a", "S", "b"] (NameTable.empty.insertAll ["S", "a", "b"]).names.toList
        (NameTable.empty.insertAll ["S", "a", "b"]).id? (NameTable.empty.insertAll ["S", "a", "b"]).name?
        (NameTable.empty.insertAll ["S", "a", "b"]).contains id ∧
      (insertEach NameIndex.insert .empty ["S", "a", "S", "b"]).1.map UInt32.toNat = [0, 1, 0, 2] := by
  have ht : insertEach NameTable.insert .empty ["S", "a", "S", "b"] =
      ([0, 1, 0, 2], NameTable.empty.insertAll ["S", "a", "b"]) := by decide +kernel
  obtain ⟨⟨hnumbers, -⟩, -, -, hgiven, -⟩ := insertEach_numbers (by decide) ht rfl
  exact ⟨hnumbers, hgiven⟩

end GrammarFlow
