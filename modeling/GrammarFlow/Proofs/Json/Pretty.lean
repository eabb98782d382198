import GrammarFlow.Proofs.Json.Reading

namespace GrammarFlow.Json

/-- What a text can hold exactly: numbers that are naturals of 64 bits, and objects that do not repeat a
key. -/
inductive Value.IsExact : Value → Prop where
  | null : IsExact .null
  | bool (b : Bool) : IsExact (.bool b)
  | natural {n : Nat} (h : n ≤ Literal.maxSignificand) : IsExact (.number (.integer n))
  | string (s : String) : IsExact (.string s)
  | array {items : List Value} (h : ∀ v ∈ items, IsExact v) : IsExact (.array items)
  | object {members : List (String × Value)} (hkeys : (members.map (·.1)).Nodup)
    (h : ∀ m ∈ members, IsExact m.2) : IsExact (.object members)

theorem isBlank_indent (depth : Nat) : IsBlank (indent depth).toList := by
  intro c hc
  simp only [indent, String.toList_append, String.toList_ofList, List.mem_append] at hc
  rcases hc with hc | hc
  · obtain rfl := List.mem_singleton.1 hc
    rfl
  · rw [List.eq_of_mem_replicate hc]
    rfl

theorem isBlank_gap : IsBlank [' '] := by
  intro c hc
  obtain rfl := List.mem_singleton.1 hc
  rfl

/-- One part a line, and the closing bracket on a line of its own. -/
def Layout.indented (depth : Nat) : Layout :=
  ⟨(indent (depth + 1)).toList, (indent depth).toList, isBlank_indent _, isBlank_indent _⟩

theorem toList_block (depth : Nat) (opening closing : String) (parts : List String) :
    (block depth opening closing parts).toList = opening.toList ++
      ((Layout.indented depth).spread (parts.map String.toList) ++ closing.toList) := by
  rw [block, Layout.spread, List.isEmpty_map]
  split
  · rw [String.toList_append, List.nil_append]
  · simp [joined, Layout.indented, Function.comp_def]

theorem toList_pretty_array (depth : Nat) (vs : List Value) :
    ((Value.array vs).pretty depth).toList =
      arrayText (.indented depth) (vs.map fun v => (v.pretty (depth + 1)).toList) := by
  have hitems : ∀ vs : List Value, prettyItems (depth + 1) vs = vs.map (·.pretty (depth + 1)) := by
    intro vs
    induction vs with
    | nil => rfl
    | cons v vs ih => rw [prettyItems, ih, List.map_cons]
  rw [Value.pretty, hitems, toList_block, List.map_map]
  rfl

theorem toList_pretty_object (depth : Nat) (ms : List (String × Value)) :
    ((Value.object ms).pretty depth).toList =
      objectText (.indented depth)
        (ms.map fun m => (m.1, [' '] ++ (m.2.pretty (depth + 1)).toList)) := by
  have hmembers : ∀ ms : List (String × Value), prettyMembers (depth + 1) ms =
      ms.map fun m => quote m.1 ++ ": " ++ m.2.pretty (depth + 1) := by
    intro ms
    induction ms with
    | nil => rfl
    | cons m ms ih =>
      obtain ⟨k, v⟩ := m
      rw [prettyMembers, ih, List.map_cons]
  have hmember : ∀ m : String × Value, (quote m.1 ++ ": " ++ m.2.pretty (depth + 1)).toList =
      memberText (m.1, [' '] ++ (m.2.pretty (depth + 1)).toList) := by
    intro m
    rw [String.toList_append, String.toList_append, toList_quote, List.append_assoc]
    rfl
  rw [Value.pretty, hmembers, toList_block, List.map_map, objectText, List.map_map]
  simp only [Function.comp_def, hmember]
  rfl

variable {size room : Nat} {v : Value}

theorem takes_null : Takes (value size room) "null".toList .null where
  opens := ⟨'n', _, rfl, by decide, by decide⟩
  read rest _ := by
    rw [value.eq_def]
    rfl

theorem takes_bool (b : Bool) :
    Takes (value size room) (if b then "true" else "false").toList (.bool b) where
  opens := by
    cases b
    · exact ⟨'f', _, rfl, by decide, by decide⟩
    · exact ⟨'t', _, rfl, by decide, by decide⟩
  read rest _ := by
    rw [value.eq_def]
    cases b <;> rfl

theorem toList_text_natural (n : Nat) : (Number.integer n).text.toList = Nat.toDigits 10 n := by
  have htext : (Number.integer n).text = toString n := rfl
  rw [htext, Nat.toString_eq_ofList_toDigits, String.toList_ofList]

/-- An indented text is taken where there is room for its characters. -/
theorem takes_pretty (h : v.IsExact) (depth : Nat) (hsize : (v.pretty depth).toList.length ≤ size)
    (hroom : (v.pretty depth).toList.length ≤ room) :
    Takes (value size room) (v.pretty depth).toList v := by
  induction h generalizing depth room with
  | null =>
    rw [Value.pretty]
    exact takes_null
  | bool b =>
    rw [Value.pretty]
    exact takes_bool b
  | natural h =>
    rw [Value.pretty, toList_text_natural]
    exact .value_natural h
  | string s =>
    rw [Value.pretty, toList_quote] at hsize ⊢
    exact .value_string hsize
  | @array items _ ih =>
    rw [toList_pretty_array] at hsize hroom ⊢
    obtain ⟨r, rfl⟩ := Nat.exists_eq_add_one.2 (Nat.lt_of_lt_of_le (Nat.zero_lt_succ _) hroom)
    refine .value_array (fun v hv => ?_) hsize
    have hlt := length_part_lt_arrayText (l := .indented depth)
      (List.mem_map_of_mem (f := fun v => (v.pretty (depth + 1)).toList) hv)
    exact ih v hv (depth + 1) (by omega) (by omega)
  | @object members hkeys _ ih =>
    rw [toList_pretty_object] at hsize hroom ⊢
    obtain ⟨r, rfl⟩ := Nat.exists_eq_add_one.2 (Nat.lt_of_lt_of_le (Nat.zero_lt_succ _) hroom)
    refine .value_object isBlank_gap (fun v => (v.pretty (depth + 1)).toList) (fun m hm => ?_) hkeys
      hsize
    have hlt := (length_part_lt_objectText (l := .indented depth) (List.mem_map_of_mem
      (f := fun m => (m.1, [' '] ++ (m.2.pretty (depth + 1)).toList)) hm)).2
    rw [List.length_append] at hlt
    exact ih m hm (depth + 1) (by omega) (by omega)

/-- Reads a text as one value, which can hold no more containers than the text has characters. -/
def readValue (text : String) : Except Fault Value := readText (fun size => value size size) text

theorem readValue_pretty (h : v.IsExact) (depth : Nat) : readValue (v.pretty depth) = .ok v :=
  Takes.readText (takes_pretty h depth (Nat.le_refl _) (Nat.le_refl _))

end GrammarFlow.Json
