import GrammarFlow.Proofs.Grammar.WellFormed

namespace GrammarFlow

namespace Declaration

variable {d : Declaration} {g : Grammar} {name startName : String}

theorem mem_terminalTable : name ∈ d.terminalTable.names ↔ name ∈ d.terminals := by
  rw [terminalTable, NameTable.mem_insertAll]
  exact or_iff_right (by simp [NameTable.empty])

def startName? (d : Declaration) : Option String := d.start.or (d.rules.head?.map (·.1))

/-- What is asked of a declaration with a start symbol. -/
structure Valid (d : Declaration) (startName : String) : Prop where
  startName_eq : d.startName? = some startName
  start_mem : startName ∈ d.rules.map (·.1)
  fresh : ∀ lhs ∈ d.rules.map (·.1), lhs ∉ d.terminals
  declared : ∀ name ∈ d.rules.flatMap (·.2), name ∈ d.terminals ∨ name ∈ d.rules.map (·.1)

def grammarFrom (d : Declaration) (startName : String) : Grammar where
  name := d.name
  start := d.headTable.names.idxOf startName
  terminals := d.terminalTable
  nonTerminals := d.headTable
  productions := productionsOf d.terminalTable d.headTable d.rules

theorem find?_contains_eq_none_iff : (d.rules.map (·.1)).find? d.terminalTable.contains = none ↔
    ∀ lhs ∈ d.rules.map (·.1), lhs ∉ d.terminals := by
  simp only [List.find?_eq_none, NameTable.contains_iff, mem_terminalTable]

theorem undefined?_eq_none_iff : undefined? d.terminalTable d.headTable d.rules = none ↔
    ∀ name ∈ d.rules.flatMap (·.2), name ∈ d.terminals ∨ name ∈ d.rules.map (·.1) := by
  simp only [undefined?, List.find?_eq_none, Bool.and_eq_true, Bool.not_eq_true',
    ← Bool.not_eq_true, NameTable.contains_iff, mem_terminalTable, mem_headTable]
  refine forall₂_congr fun name _ => ?_
  rw [not_and_or, not_not, not_not]

theorem build_of_valid (h : d.Valid startName) : d.build = .ok (d.grammarFrom startName) := by
  have hcollision := find?_contains_eq_none_iff.2 h.fresh
  have hundefined := undefined?_eq_none_iff.2 h.declared
  have hstart : d.terminalTable.contains startName = false := by
    rw [← Bool.not_eq_true, NameTable.contains_iff, mem_terminalTable]
    exact h.fresh _ h.start_mem
  have hid : d.headTable.id? startName = some (d.headTable.names.idxOf startName) :=
    NameTable.id?_eq_idxOf (mem_headTable.2 h.start_mem)
  have hname := h.startName_eq
  rw [build_eq_outcome]
  unfold outcome
  split
  · next hrules =>
    have hmem := h.start_mem
    rw [hrules] at hmem
    cases hmem
  · next firstLhs rhs rest hrules =>
    have hget : d.start.getD firstLhs = startName := by
      rw [startName?, hrules] at hname
      cases hs : d.start <;> simp_all
    simp only [hcollision, hget, hstart, Bool.false_eq_true, if_false, hid, hundefined]
    rfl

theorem build_eq_ok_iff :
    d.build = .ok g ↔ ∃ startName, d.Valid startName ∧ g = d.grammarFrom startName := by
  constructor
  · intro h
    have hbuilt := h
    rw [build_eq_outcome] at h
    unfold outcome at h
    split at h
    · simp at h
    · next firstLhs rhs rest hrules =>
      dsimp only at h
      split at h
      · simp at h
      · next hcollision =>
        split at h
        · simp at h
        · split at h
          · simp at h
          · next start hstart =>
            split at h
            · simp at h
            · next hundefined =>
              have hvalid : d.Valid (d.start.getD firstLhs) := by
                refine ⟨?_, ?_, find?_contains_eq_none_iff.1 hcollision,
                  undefined?_eq_none_iff.1 hundefined⟩
                · rw [startName?, hrules]
                  cases d.start <;> rfl
                · exact mem_headTable.1 (NameTable.id?_isSome_iff.1 (Option.isSome_of_eq_some hstart))
              exact ⟨_, hvalid, Except.ok.inj (hbuilt.symm.trans (build_of_valid hvalid))⟩
  · rintro ⟨startName, h, rfl⟩
    exact build_of_valid h

end Declaration

def Grammar.namedRules (g : Grammar) : List (String × List String) :=
  g.productions.toList.map fun p => (g.nonTerminalName p.lhs, g.rhsNames p)

namespace Declaration

variable {d d' : Declaration} {g : Grammar} {name startName : String}

theorem nonTerminalName_grammarFrom (h : name ∈ d.rules.map (·.1)) :
    (d.grammarFrom startName).nonTerminalName (d.headTable.names.idxOf name) = name := by
  have hname : d.headTable.name? (d.headTable.names.idxOf name) = some name :=
    NameTable.name?_idxOf (mem_headTable.2 h)
  rw [Grammar.nonTerminalName, grammarFrom, hname, Option.getD_some]

theorem symbolOf_of_mem (h : name ∈ d.terminals) : symbolOf d.terminalTable d.headTable name =
    .terminal (d.terminalTable.names.idxOf name) := by
  rw [symbolOf, NameTable.id?_eq_idxOf (mem_terminalTable.2 h)]

theorem symbolOf_of_not_mem (h : name ∉ d.terminals) :
    symbolOf d.terminalTable d.headTable name = .nonTerminal (d.headTable.names.idxOf name) := by
  rw [symbolOf, NameTable.id?_eq_none_iff.2 (mt mem_terminalTable.1 h)]

theorem symbolName_grammarFrom (h : name ∈ d.terminals ∨ name ∈ d.rules.map (·.1)) :
    (d.grammarFrom startName).symbolName (symbolOf d.terminalTable d.headTable name) = name := by
  by_cases hterminal : name ∈ d.terminals
  · have hname : d.terminalTable.name? (d.terminalTable.names.idxOf name) = some name :=
      NameTable.name?_idxOf (mem_terminalTable.2 hterminal)
    rw [symbolOf_of_mem hterminal, Grammar.symbolName, Grammar.terminalName, grammarFrom, hname,
      Option.getD_some]
  · rw [symbolOf_of_not_mem hterminal]
    exact nonTerminalName_grammarFrom (h.resolve_left hterminal)

theorem rhs_grammarFrom : (d.grammarFrom startName).productions.toList.map (·.rhs) =
    d.rules.map fun rule => rule.2.map (symbolOf d.terminalTable d.headTable) := by
  have hproductions : (d.grammarFrom startName).productions =
      productionsOf d.terminalTable d.headTable d.rules := rfl
  apply List.ext_getElem?
  intro i
  rw [List.getElem?_map, Array.getElem?_toList, hproductions, getElem?_productionsOf, Option.map_map,
    List.getElem?_map]
  rfl

namespace Valid

theorem startName_grammarFrom (h : d.Valid startName) :
    (d.grammarFrom startName).startName = startName := nonTerminalName_grammarFrom h.start_mem

theorem namedRules_grammarFrom (h : d.Valid startName) :
    (d.grammarFrom startName).namedRules = d.rules := by
  have hproductions : (d.grammarFrom startName).productions =
      productionsOf d.terminalTable d.headTable d.rules := rfl
  apply List.ext_getElem?
  intro i
  rw [Grammar.namedRules, List.getElem?_map, Array.getElem?_toList, hproductions,
    getElem?_productionsOf, Option.map_map]
  cases hrule : d.rules[i]? with
  | none => rfl
  | some rule =>
    have hmem : rule ∈ d.rules := List.mem_of_getElem? hrule
    have hlhs : (d.grammarFrom startName).nonTerminalName (d.headTable.names.idxOf rule.1) = rule.1 :=
      nonTerminalName_grammarFrom (List.mem_map_of_mem hmem)
    have hrhs : (rule.2.map (symbolOf d.terminalTable d.headTable)).map
        (d.grammarFrom startName).symbolName = rule.2 := by
      rw [List.map_map]
      refine (List.map_congr_left fun name hname => ?_).trans (List.map_id _)
      exact symbolName_grammarFrom (h.declared _ (List.mem_flatMap.2 ⟨rule, hmem, hname⟩))
    exact congrArg some (Prod.ext hlhs hrhs)

/-- What a grammar says by names declares the same grammar again. -/
theorem build_named (h : d.Valid startName)
    (hterminals : NameTable.empty.insertAll d'.terminals = d.terminalTable)
    (hname : d'.name = d.name) (hrules : d'.rules = d.rules) (hstart : d'.start = some startName) :
    d'.build = .ok (d.grammarFrom startName) := by
  have hterminal : ∀ name, name ∈ d'.terminals ↔ name ∈ d.terminals := by
    intro name
    rw [← mem_terminalTable, ← mem_terminalTable, terminalTable, hterminals]
  have hvalid : d'.Valid startName := by
    refine ⟨by rw [startName?, hstart, Option.some_or], ?_, ?_, ?_⟩
    · rw [hrules]
      exact h.start_mem
    · simpa only [hrules, hterminal] using h.fresh
    · simpa only [hrules, hterminal] using h.declared
  rw [build_of_valid hvalid, grammarFrom, grammarFrom, headTable, headTable, terminalTable, hterminals,
    hname, hrules]

end Valid

end Declaration

theorem Grammar.build_eq_of_names {d d' : Declaration} {g : Grammar} (h : d.build = .ok g)
    (hterminals : NameTable.empty.insertAll d'.terminals = g.terminals) (hname : d'.name = g.name)
    (hrules : d'.rules = g.namedRules) (hstart : d'.start = some g.startName) :
    d'.build = .ok g := by
  obtain ⟨startName, hvalid, rfl⟩ := Declaration.build_eq_ok_iff.1 h
  rw [hvalid.namedRules_grammarFrom] at hrules
  rw [hvalid.startName_grammarFrom] at hstart
  exact hvalid.build_named hterminals hname hrules hstart

end GrammarFlow
