import GrammarFlow.Proofs.Document.Brackets
import GrammarFlow.Proofs.Json.Reading

namespace GrammarFlow

namespace Document

open Json

def alternativesJson (alternatives : List (List String)) : Value :=
  .array (alternatives.map fun rhs => .array (rhs.map .string))

/-- The members that are given, in the order of the fields. -/
def members (d : Document) : List (String × Value) :=
  [("name", .string d.name)] ++ (d.start.map fun s => ("start", Value.string s)).toList ++
    (d.terminals.map fun names => ("terminals", .array (names.map Value.string))).toList ++
    [("rules", .object d.rules)]

def toJson (d : Document) : Value := .object d.members

theorem mapM_map_eq_ok {ε α β γ : Type} {f : α → β} {read : β → Except ε γ} {h : α → γ}
    (hread : ∀ x, read (f x) = .ok (h x)) (l : List α) : (l.map f).mapM read = .ok (l.map h) := by
  have hcomp : read ∘ f = fun x => pure (h x) := funext hread
  rw [List.mapM_map, hcomp, List.mapM_pure]
  rfl

theorem rightHandSides_alternativesJson (alternatives : List (List String)) :
    rightHandSides (alternativesJson alternatives) = .ok alternatives := by
  have hside : ∀ rhs : List String, rightHandSide (.array (rhs.map .string)) = .ok rhs := by
    intro rhs
    have hname : ∀ name : String, symbolName (.string name) = .ok (id name) := fun _ => rfl
    rw [rightHandSide, mapM_map_eq_ok hname, List.map_id]
  rw [alternativesJson, rightHandSides, mapM_map_eq_ok hside, List.map_id']

variable {d : Document} {size room : Nat}

theorem toList_compact_string (s : String) : (Value.string s).compact.toList = quoted s := by
  rw [Value.compact, toList_quote]

theorem toList_compact_strings (names : List String) :
    (Value.array (names.map .string)).compact.toList = arrayText .compact (names.map quoted) := by
  rw [toList_compact_array, List.map_map]
  simp only [Function.comp_def, toList_compact_string]

theorem takes_string {s : String} (h : (Value.string s).compact.toList.length ≤ size) :
    Takes (string size) (Value.string s).compact.toList s := by
  rw [toList_compact_string] at h ⊢
  exact .string h

theorem takes_strings {names : List String}
    (h : (Value.array (names.map .string)).compact.toList.length ≤ size) :
    Takes (arrayOf size (string size)) (Value.array (names.map .string)).compact.toList names := by
  rw [toList_compact_strings] at h ⊢
  refine .arrayOf (fun name hname => .string ?_) h
  have hlt := length_part_lt_arrayText (l := .compact) (List.mem_map_of_mem (f := quoted) hname)
  exact Nat.le_trans (Nat.le_of_lt hlt) h

theorem takes_value_strings {names : List String}
    (h : (Value.array (names.map .string)).compact.toList.length ≤ size) :
    Takes (value size (room + 1)) (Value.array (names.map .string)).compact.toList
      (.array (names.map .string)) := by
  have hitem : ∀ v ∈ names.map Value.string, Takes (value size room) v.compact.toList v := by
    intro v hv
    have hle := Nat.le_trans (length_compact_le_array hv) h
    obtain ⟨_, -, rfl⟩ := List.mem_map.1 hv
    rw [toList_compact_string] at hle ⊢
    exact .value_string hle
  rw [toList_compact_array] at h ⊢
  exact .value_array hitem h

theorem takes_alternatives {alternatives : List (List String)}
    (h : (alternativesJson alternatives).compact.toList.length ≤ size) :
    Takes (value size (room + 2)) (alternativesJson alternatives).compact.toList
      (alternativesJson alternatives) := by
  rw [alternativesJson] at h ⊢
  have hitem : ∀ v ∈ alternatives.map fun rhs => Value.array (rhs.map .string),
      Takes (value size (room + 1)) v.compact.toList v := by
    intro v hv
    have hle := Nat.le_trans (length_compact_le_array hv) h
    obtain ⟨_, -, rfl⟩ := List.mem_map.1 hv
    exact takes_value_strings hle
  rw [toList_compact_array] at h ⊢
  exact .value_array hitem h

def IsWritten (rules : List (String × Value)) : Prop :=
  ∀ m ∈ rules, ∃ alternatives, m.2 = alternativesJson alternatives

theorem takes_rules {rules : List (String × Value)} (hrules : IsWritten rules)
    (hkeys : (rules.map (·.1)).Nodup)
    (h : (Value.object rules).compact.toList.length ≤ size) :
    Takes (objectMembers size (room + 2)) (Value.object rules).compact.toList rules := by
  have hmember : ∀ m ∈ rules, Takes (value size (room + 2)) m.2.compact.toList m.2 := by
    intro m hm
    have hle := Nat.le_trans (length_compact_le_object hm) h
    obtain ⟨alternatives, heq⟩ := hrules m hm
    rw [heq] at hle ⊢
    exact takes_alternatives hle
  rw [toList_compact_object] at h ⊢
  exact .objectMembers (·.compact.toList) hmember hkeys h

/-- A member with a known key that has not been given before. -/
theorem passes_field {f : Json.Field Document} {key : String} {text : List Char}
    {given : List String} {x y : Document} {last : Document × List String}
    {parts : List (String × List Char)}
    (hfield : (fields size).find? (·.name == key) = some f) (hnew : given.contains key = false)
    (h : Takes (f.read x) text y)
    (hparts : Passes (recordMember size (fields size)) (y, key :: given) parts last) :
    Passes (recordMember size (fields size)) (x, given) ((key, text) :: parts) last :=
  .cons (recordMember_of_takes hfield hnew h) hparts

theorem passes_members (hrules : IsWritten d.rules) (hkeys : (d.rules.map (·.1)).Nodup)
    (h : ∀ m ∈ d.members, m.2.compact.toList.length ≤ size) :
    ∃ given, Passes (recordMember size (fields size)) ({}, [])
      (d.members.map fun m => (m.1, m.2.compact.toList)) (d, given) ∧
        misses (fields size) given = false := by
  obtain ⟨name, start, terminals, rules⟩ := d
  have hname : Takes (string size) (Value.string name).compact.toList name :=
    takes_string (h ("name", .string name) (by simp [members]))
  have hstart : ∀ s, start = some s →
      Takes (optional (string size)) (Value.string s).compact.toList (some s) := by
    rintro s rfl
    have htaken := takes_string (h ("start", .string s) (by simp [members]))
    rw [toList_compact_string] at htaken ⊢
    exact htaken.optional nofun
  have hterminals : ∀ names, terminals = some names →
      Takes (optional (arrayOf size (string size))) (Value.array (names.map .string)).compact.toList
        (some names) := by
    rintro names rfl
    have htaken := takes_strings (h ("terminals", .array (names.map .string)) (by simp [members]))
    rw [toList_compact_strings] at htaken ⊢
    exact htaken.optional nofun
  -- Two of the containers that may be open within the rules are enough.
  have hroom : Document.room = 123 + 2 := rfl
  have hlast : Takes (objectMembers size Document.room) (Value.object rules).compact.toList rules := by
    rw [hroom]
    exact takes_rules hrules hkeys (h ("rules", .object rules) (by simp [members]))
  have hfirst := hname.map fun name => (⟨name, none, none, []⟩ : Document)
  have hlast := hlast.map fun rules => (⟨name, start, terminals, rules⟩ : Document)
  -- Each of the members in the middle may be absent.
  cases start with
  | none =>
    cases terminals with
    | none => exact ⟨_, passes_field rfl rfl hfirst (passes_field rfl rfl hlast (.nil _)), rfl⟩
    | some names =>
      have hterminals := (hterminals names rfl).map fun terminals =>
        (⟨name, none, terminals, []⟩ : Document)
      exact ⟨_, passes_field rfl rfl hfirst (passes_field rfl rfl hterminals
        (passes_field rfl rfl hlast (.nil _))), rfl⟩
  | some s =>
    have hstart := (hstart s rfl).map fun start => (⟨name, start, none, []⟩ : Document)
    cases terminals with
    | none =>
      exact ⟨_, passes_field rfl rfl hfirst (passes_field rfl rfl hstart
        (passes_field rfl rfl hlast (.nil _))), rfl⟩
    | some names =>
      have hterminals := (hterminals names rfl).map fun terminals =>
        (⟨name, some s, terminals, []⟩ : Document)
      exact ⟨_, passes_field rfl rfl hfirst (passes_field rfl rfl hstart
        (passes_field rfl rfl hterminals (passes_field rfl rfl hlast (.nil _)))), rfl⟩

theorem ofText_compact (hrules : IsWritten d.rules) (hkeys : (d.rules.map (·.1)).Nodup) :
    ofText d.toJson.compact = .ok d := by
  obtain ⟨given, hpasses, hgiven⟩ := passes_members hrules hkeys fun m hm =>
    length_compact_le_object hm
  have htext := toList_compact_object d.members
  have htaken := Takes.record hpasses hgiven (Nat.le_of_eq (congrArg List.length htext.symm))
  rw [← htext] at htaken
  apply Takes.readText
  exact htaken

end Document

end GrammarFlow
