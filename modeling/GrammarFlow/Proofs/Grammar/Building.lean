import GrammarFlow.Proofs.Grammar.Names
import Mathlib.Data.List.Forall2

namespace GrammarFlow

namespace Declaration

inductive Clause where
  | terminals (names : List String)
  | rule (lhs : String) (rhs : List String)
  | start (name : String)
deriving DecidableEq, Repr

namespace Clause

def terminalNames : Clause → List String
  | terminals names => names
  | _ => []

def rule? : Clause → Option (String × List String)
  | rule lhs rhs => some (lhs, rhs)
  | _ => none

def start? : Clause → Option String
  | start name => some name
  | _ => none

end Clause

def declare (d : Declaration) : Clause → Declaration
  | .terminals names => d.declareTerminals names
  | .rule lhs rhs => d.declareRule lhs rhs
  | .start name => d.declareStart name

def ofClauses (name : String) (clauses : List Clause) : Declaration :=
  clauses.foldl declare { name }

/-- Terminals and rules are kept in the order of their clauses, and the last start symbol counts. -/
theorem ofClauses_eq (name : String) (clauses : List Clause) : ofClauses name clauses =
    { name
      terminals := clauses.flatMap Clause.terminalNames
      rules := clauses.filterMap Clause.rule?
      start := (clauses.filterMap Clause.start?).getLast? } := by
  induction clauses using List.reverseRecOn with
  | nil => rfl
  | append_singleton clauses clause ih =>
    rw [ofClauses, List.foldl_concat, ← ofClauses, ih]
    cases clause <;>
      simp [declare, declareTerminals, declareRule, declareStart, Clause.terminalNames, Clause.rule?,
        Clause.start?]

def IsFirst (P : String → Prop) (names : List String) (name : String) : Prop :=
  ∃ before after, names = before ++ name :: after ∧ P name ∧ ∀ other ∈ before, ¬P other

theorem find?_eq_some_iff_isFirst {p : String → Bool} {P : String → Prop}
    (h : ∀ name, p name = true ↔ P name) {names : List String} {name : String} :
    names.find? p = some name ↔ IsFirst P names name := by
  simp only [List.find?_eq_some_iff_append, IsFirst, Bool.not_eq_true', ← Bool.not_eq_true, h]
  constructor
  · rintro ⟨hname, before, after, rfl, hbefore⟩
    exact ⟨before, after, rfl, hname, hbefore⟩
  · rintro ⟨before, after, rfl, hname, hbefore⟩
    exact ⟨hname, before, after, rfl, hbefore⟩

/-- The first thing that is wrong with a declaration, in the order in which it is checked. -/
inductive FirstFault (d : Declaration) : GrammarError → Prop
  | emptyGrammar (empty : d.rules = []) : FirstFault d .emptyGrammar
  | headCollision {lhs : String} (first : IsFirst (· ∈ d.terminals) (d.rules.map (·.1)) lhs) :
      FirstFault d (.nameCollision lhs)
  | startCollision {startName : String} (nonempty : d.rules ≠ [])
      (fresh : ∀ lhs ∈ d.rules.map (·.1), lhs ∉ d.terminals)
      (named : d.startName? = some startName) (collides : startName ∈ d.terminals) :
      FirstFault d (.nameCollision startName)
  | undefinedStart {startName : String} (nonempty : d.rules ≠ [])
      (fresh : ∀ lhs ∈ d.rules.map (·.1), lhs ∉ d.terminals)
      (named : d.startName? = some startName) (distinct : startName ∉ d.terminals)
      (undefined : startName ∉ d.rules.map (·.1)) : FirstFault d (.undefinedStart startName)
  | missingProductions {startName name : String}
      (fresh : ∀ lhs ∈ d.rules.map (·.1), lhs ∉ d.terminals)
      (named : d.startName? = some startName) (defined : startName ∈ d.rules.map (·.1))
      (first : IsFirst (fun name => name ∉ d.terminals ∧ name ∉ d.rules.map (·.1))
        (d.rules.flatMap (·.2)) name) : FirstFault d (.missingProductions name)

/-- A grammar that says by numbers what a declaration says by names. -/
structure Faithful (d : Declaration) (g : Grammar) : Prop where
  name_eq : g.name = d.name
  startName_eq : d.startName? = some g.startName
  size_eq : g.productions.size = d.rules.length
  production_eq : ∀ {i lhs rhs}, d.rules[i]? = some (lhs, rhs) → ∃ p, g.production? i = some p ∧
    p.id = i ∧ g.nonTerminalName p.lhs = lhs ∧ g.rhsNames p = rhs ∧
    List.Forall₂ (fun symbol name => symbol.isTerminal = true ↔ name ∈ d.terminals) p.rhs rhs
  terminals_eq : g.terminals.names.toList = d.terminals.eraseDups
  nonTerminals_eq : g.nonTerminals.names.toList = (d.rules.map (·.1)).eraseDups
  terminals_nodup : g.terminals.names.toList.Nodup
  nonTerminals_nodup : g.nonTerminals.names.toList.Nodup
  disjoint : ∀ name ∈ g.terminals.names, name ∉ g.nonTerminals.names
  inRange : g.WellFormed
  alternatives_eq : ∀ {n}, n < g.nonTerminals.size → ∃ ids, g.alternatives? n = some ids ∧
    ids ≠ [] ∧ ids.Pairwise (· < ·) ∧ ∀ i, i ∈ ids ↔ ∃ p, g.production? i = some p ∧ p.lhs = n
  alternative_unique : ∀ {i}, i < g.productions.size →
    ∃! n, ∃ ids, g.alternatives? n = some ids ∧ i ∈ ids

section

variable {d : Declaration} {g : Grammar} {startName : String} {e : GrammarError}

/-- With rules there is a name for the start symbol, and the checks follow one another. -/
theorem build_eq (nonempty : d.rules ≠ []) (named : d.startName? = some startName) :
    d.build = match (d.rules.map (·.1)).find? d.terminalTable.contains with
      | some lhs => .error (.nameCollision lhs)
      | none =>
        if d.terminalTable.contains startName then .error (.nameCollision startName)
        else match d.headTable.id? startName with
          | none => .error (.undefinedStart startName)
          | some _ => match undefined? d.terminalTable d.headTable d.rules with
            | some name => .error (.missingProductions name)
            | none => .ok (d.grammarFrom startName) := by
  rw [build_eq_outcome]
  unfold outcome
  split
  · next hrules => exact absurd hrules nonempty
  · next firstLhs rhs rest hrules =>
    have hget : d.start.getD firstLhs = startName := by
      rw [startName?, hrules] at named
      cases hs : d.start <;> simp_all
    simp only [hget]
    cases hid : d.headTable.id? startName with
    | none => rfl
    | some start =>
      have hmem : startName ∈ d.headTable.names :=
        NameTable.id?_isSome_iff.1 (Option.isSome_of_eq_some hid)
      obtain rfl : d.headTable.names.idxOf startName = start := by
        rw [NameTable.id?_eq_idxOf hmem] at hid
        exact Option.some.inj hid
      rfl

theorem contains_terminalTable (name : String) :
    d.terminalTable.contains name = true ↔ name ∈ d.terminals := by
  rw [NameTable.contains_iff, mem_terminalTable]

theorem find?_contains_eq_some_iff {lhs : String} :
    (d.rules.map (·.1)).find? d.terminalTable.contains = some lhs ↔
      IsFirst (· ∈ d.terminals) (d.rules.map (·.1)) lhs :=
  find?_eq_some_iff_isFirst contains_terminalTable

theorem undefined?_eq_some_iff {name : String} :
    undefined? d.terminalTable d.headTable d.rules = some name ↔
      IsFirst (fun name => name ∉ d.terminals ∧ name ∉ d.rules.map (·.1)) (d.rules.flatMap (·.2))
        name := by
  apply find?_eq_some_iff_isFirst
  intro name
  rw [Bool.and_eq_true, Bool.not_eq_true', Bool.not_eq_true', ← Bool.not_eq_true, ← Bool.not_eq_true,
    contains_terminalTable, NameTable.contains_iff, mem_headTable]

theorem id?_headTable_eq_none_iff : d.headTable.id? startName = none ↔
    startName ∉ d.rules.map (·.1) := by
  rw [NameTable.id?_eq_none_iff, mem_headTable]

theorem exists_startName? (nonempty : d.rules ≠ []) : ∃ startName, d.startName? = some startName := by
  unfold startName?
  cases hs : d.start with
  | some startName => exact ⟨startName, rfl⟩
  | none =>
    obtain ⟨rule, rest, hrules⟩ := List.exists_cons_of_ne_nil nonempty
    exact ⟨rule.1, by rw [hrules]; rfl⟩

theorem FirstFault.build_eq_error (h : d.FirstFault e) : d.build = .error e := by
  cases h with
  | emptyGrammar empty =>
    rw [build_eq_outcome]
    unfold outcome
    rw [empty]
  | headCollision first =>
    have nonempty : d.rules ≠ [] := by
      rintro hrules
      obtain ⟨before, after, hsplit, -⟩ := first
      rw [hrules] at hsplit
      simp at hsplit
    obtain ⟨startName, named⟩ := exists_startName? nonempty
    rw [build_eq nonempty named, find?_contains_eq_some_iff.2 first]
  | startCollision nonempty fresh named collides =>
    rw [build_eq nonempty named, find?_contains_eq_none_iff.2 fresh]
    exact if_pos ((contains_terminalTable _).2 collides)
  | undefinedStart nonempty fresh named distinct undefined =>
    rw [build_eq nonempty named, find?_contains_eq_none_iff.2 fresh,
      id?_headTable_eq_none_iff.2 undefined]
    exact if_neg (mt (contains_terminalTable _).1 distinct)
  | @missingProductions startName name fresh named defined first =>
    have nonempty : d.rules ≠ [] := by
      rintro hrules
      rw [hrules] at defined
      cases defined
    rw [build_eq nonempty named, find?_contains_eq_none_iff.2 fresh, undefined?_eq_some_iff.2 first,
      NameTable.id?_eq_idxOf (mem_headTable.2 defined)]
    exact if_neg (mt (contains_terminalTable _).1 (fresh _ defined))

/-- A declaration is valid or has a first fault: the checks leave nothing else. -/
theorem valid_or_firstFault (d : Declaration) :
    (∃ startName, d.Valid startName) ∨ ∃ e, d.FirstFault e := by
  by_cases nonempty : d.rules = []
  · exact .inr ⟨_, .emptyGrammar nonempty⟩
  obtain ⟨startName, named⟩ := exists_startName? nonempty
  cases hhead : (d.rules.map (·.1)).find? d.terminalTable.contains with
  | some lhs => exact .inr ⟨_, .headCollision (find?_contains_eq_some_iff.1 hhead)⟩
  | none =>
    have fresh := find?_contains_eq_none_iff.1 hhead
    by_cases collides : startName ∈ d.terminals
    · exact .inr ⟨_, .startCollision nonempty fresh named collides⟩
    by_cases defined : startName ∈ d.rules.map (·.1)
    · cases hname : undefined? d.terminalTable d.headTable d.rules with
      | some name =>
        exact .inr ⟨_, .missingProductions fresh named defined (undefined?_eq_some_iff.1 hname)⟩
      | none => exact .inl ⟨startName, named, defined, fresh, undefined?_eq_none_iff.1 hname⟩
    · exact .inr ⟨_, .undefinedStart nonempty fresh named collides defined⟩

theorem build_eq_error_iff : d.build = .error e ↔ d.FirstFault e := by
  refine ⟨fun h => ?_, FirstFault.build_eq_error⟩
  obtain ⟨startName, hvalid⟩ | ⟨e', hfault⟩ := d.valid_or_firstFault
  · rw [build_of_valid hvalid] at h
    cases h
  · rw [hfault.build_eq_error, Except.error.injEq] at h
    exact h ▸ hfault

end

end Declaration

namespace Grammar.WellFormed

variable {g : Grammar}

theorem map_id_productions (hg : g.WellFormed) :
    g.productions.toList.map (·.id) = List.range g.productions.size := by
  apply List.ext_getElem?
  intro i
  rw [List.getElem?_map, Array.getElem?_toList]
  cases hp : g.productions[i]? with
  | none =>
    rw [List.getElem?_eq_none (by simpa using Array.getElem?_eq_none_iff.1 hp)]
    rfl
  | some p =>
    rw [List.getElem?_range (Array.getElem?_eq_some_iff.1 hp).1]
    exact congrArg some (hg.id_eq hp)

theorem pairwise_alternativesOf (hg : g.WellFormed) (n : Nat) :
    (g.alternativesOf n).Pairwise (· < ·) := by
  have hsublist : (g.alternativesOf n).Sublist (List.range g.productions.size) := by
    rw [← hg.map_id_productions]
    exact List.filter_sublist.map _
  exact List.pairwise_lt_range.sublist hsublist

theorem mem_alternativesOf_iff (hg : g.WellFormed) {n i : Nat} :
    i ∈ g.alternativesOf n ↔ ∃ p, g.production? i = some p ∧ p.lhs = n := by
  rw [mem_alternativesOf]
  constructor
  · rintro ⟨p, hp, hn, rfl⟩
    exact ⟨p, hg.production?_id hp, hn⟩
  · rintro ⟨p, hp, hn⟩
    exact ⟨p, mem_of_production? hp, hn, hg.id_eq hp⟩

end Grammar.WellFormed

namespace Declaration

variable {d : Declaration} {g : Grammar} {startName : String}

theorem isTerminal_symbolOf {terminals nonTerminals : NameTable} {name : String} :
    (symbolOf terminals nonTerminals name).isTerminal = true ↔ name ∈ terminals.names := by
  rw [← NameTable.id?_isSome_iff, symbolOf]
  cases terminals.id? name <;> simp [Symbol.isTerminal]

theorem Valid.faithful (h : d.Valid startName) : d.Faithful (d.grammarFrom startName) := by
  have hwell : (d.grammarFrom startName).WellFormed := wellFormed_of_build (build_of_valid h)
  have hproduction : ∀ i, (d.grammarFrom startName).production? i =
      (d.rules[i]?).map (productionOf d.terminalTable d.headTable i) := getElem?_productionsOf
  constructor
  case name_eq => rfl
  case startName_eq => rw [h.startName_eq, h.startName_grammarFrom]
  case size_eq => simp [grammarFrom, productionsOf]
  case production_eq =>
    intro i lhs rhs hrule
    have hnamed : (d.grammarFrom startName).namedRules[i]? = some (lhs, rhs) := by
      rw [h.namedRules_grammarFrom, hrule]
    have hp := hproduction i
    rw [hrule, Option.map_some] at hp
    rw [Grammar.namedRules, List.getElem?_map, Array.getElem?_toList,
      ← Grammar.production?, hp, Option.map_some, Option.some.injEq, Prod.mk.injEq] at hnamed
    refine ⟨_, hp, rfl, hnamed.1, hnamed.2, ?_⟩
    rw [productionOf, List.forall₂_map_left_iff, List.forall₂_same]
    intro name _
    rw [isTerminal_symbolOf, mem_terminalTable]
  case terminals_eq => exact NameTable.toList_names_insertAll _
  case nonTerminals_eq => exact NameTable.toList_names_insertAll _
  case terminals_nodup => exact d.terminalTable.nodup
  case nonTerminals_nodup => exact d.headTable.nodup
  case disjoint =>
    intro name hterminal hhead
    exact h.fresh name (mem_headTable.1 hhead) (mem_terminalTable.1 hterminal)
  case inRange => exact hwell
  case alternatives_eq =>
    intro n hn
    have hlt : n < d.headTable.size := hn
    -- The number is that of a left-hand side, and the rule with that left-hand side is among them.
    have hmem : d.headTable.names[n] ∈ d.headTable.names := Array.getElem_mem hlt
    obtain ⟨rule, hrule, hlhs⟩ := List.mem_map.1 (mem_headTable.1 hmem)
    obtain ⟨i, hi⟩ := List.getElem?_of_mem hrule
    have hin : i ∈ (d.grammarFrom startName).alternativesOf n := by
      rw [hwell.mem_alternativesOf_iff, hproduction, hi]
      exact ⟨_, rfl, by rw [productionOf, hlhs, NameTable.idxOf_getElem hlt]⟩
    exact ⟨_, Grammar.alternatives?_eq_some_iff.2 ⟨hn, rfl⟩, List.ne_nil_of_mem hin,
      hwell.pairwise_alternativesOf n, fun i => hwell.mem_alternativesOf_iff⟩
  case alternative_unique =>
    intro i hi
    have hp : (d.grammarFrom startName).production? i = some _ := Array.getElem?_eq_getElem hi
    refine ⟨_, ⟨_, Grammar.alternatives?_eq_some_iff.2 ⟨hwell.lhs_lt (Grammar.mem_of_production? hp), rfl⟩,
      hwell.mem_alternativesOf_iff.2 ⟨_, hp, rfl⟩⟩, ?_⟩
    rintro n ⟨ids, hids, hmem⟩
    rw [(Grammar.alternatives?_eq_some_iff.1 hids).2, hwell.mem_alternativesOf_iff] at hmem
    obtain ⟨q, hq, hlhs⟩ := hmem
    rw [hp, Option.some.injEq] at hq
    rw [← hlhs, ← hq]

/-- Whatever the clauses, building gives a grammar just when the clauses are in order, the grammar says
what they say, and otherwise the first fault is reported. -/
theorem build_ofClauses (name : String) (clauses : List Clause) :
    let d : Declaration :=
      { name
        terminals := clauses.flatMap Clause.terminalNames
        rules := clauses.filterMap Clause.rule?
        start := (clauses.filterMap Clause.start?).getLast? }
    ofClauses name clauses = d ∧
      ((∃ g, d.build = .ok g) ↔ d.rules ≠ [] ∧ (∀ lhs ∈ d.rules.map (·.1), lhs ∉ d.terminals) ∧
        (∃ startName, d.startName? = some startName ∧ startName ∈ d.rules.map (·.1)) ∧
        ∀ rule ∈ d.rules, ∀ name ∈ rule.2, name ∈ d.terminals ∨ name ∈ d.rules.map (·.1)) ∧
      (∀ g, d.build = .ok g → d.Faithful g) ∧
      ∀ e, d.build = .error e ↔ d.FirstFault e := by
  intro d
  refine ⟨ofClauses_eq name clauses, ?_, ?_, fun e => build_eq_error_iff⟩
  · constructor
    · rintro ⟨g, hbuild⟩
      obtain ⟨startName, h, -⟩ := build_eq_ok_iff.1 hbuild
      refine ⟨?_, h.fresh, ⟨startName, h.startName_eq, h.start_mem⟩, ?_⟩
      · intro hrules
        have hmem := h.start_mem
        rw [hrules] at hmem
        cases hmem
      · intro rule hrule name hname
        exact h.declared name (List.mem_flatMap.2 ⟨rule, hrule, hname⟩)
    · rintro ⟨-, fresh, ⟨startName, named, defined⟩, declared⟩
      refine ⟨_, build_of_valid ⟨named, defined, fresh, ?_⟩⟩
      intro name hname
      obtain ⟨rule, hrule, hmem⟩ := List.mem_flatMap.1 hname
      exact declared rule hrule name hmem
  · intro g hbuild
    obtain ⟨startName, h, rfl⟩ := build_eq_ok_iff.1 hbuild
    exact h.faithful

end Declaration

end GrammarFlow
