import GrammarFlow.Grammar.Document
import GrammarFlow.Proofs.Grammar.Names
import Mathlib.Data.List.Forall2

namespace GrammarFlow

namespace Document

variable {d : Document} {rules : List (String × List String)} {name written : String}

def bracket (name : String) : String := "<" ++ name ++ ">"

def IsBare (written : String) : Prop := ∀ name, name ≠ "" → written ≠ bracket name

theorem toList_bracket (name : String) : (bracket name).toList = '<' :: (name.toList ++ ['>']) := by
  simp [bracket]

theorem unbracket?_bracket (h : name ≠ "") : unbracket? (bracket name) = some name := by
  have hpos : 0 < name.toList.length := by
    rw [List.length_pos_iff]
    simpa using h
  have hcond : 1 < (name.toList ++ ['>']).length ∧ (name.toList ++ ['>']).getLast? = some '>' := by
    simpa using hpos
  simp only [unbracket?, toList_bracket]
  rw [if_pos hcond, List.dropLast_concat, String.ofList_toList]

theorem unbracket?_eq_some_iff :
    unbracket? written = some name ↔ name ≠ "" ∧ written = bracket name := by
  constructor
  · intro h
    unfold unbracket? at h
    split at h
    · next rest hrest =>
      split at h
      · next hcond =>
        obtain ⟨hlength, hlast⟩ := hcond
        obtain ⟨inner, rfl⟩ := List.getLast?_eq_some_iff.1 hlast
        rw [List.dropLast_concat] at h
        obtain rfl := Option.some.inj h
        constructor
        · rintro hempty
          obtain rfl : inner = [] := by simpa using congrArg String.toList hempty
          exact Nat.lt_irrefl _ hlength
        · apply String.toList_injective
          rw [hrest, toList_bracket, String.toList_ofList]
      · cases h
    · cases h
  · rintro ⟨h, rfl⟩
    exact unbracket?_bracket h

theorem unbracket?_eq_none_iff : unbracket? written = none ↔ IsBare written := by
  rw [Option.eq_none_iff_forall_ne_some]
  simp only [IsBare, ne_eq, unbracket?_eq_some_iff, not_and]

/-- The name is written in brackets on a right-hand side. -/
def Refers (rules : List (String × List String)) (name : String) : Prop :=
  name ≠ "" ∧ bracket name ∈ rules.flatMap (·.2)

/-- The name is written bare on a right-hand side. -/
def Mentions (rules : List (String × List String)) (name : String) : Prop :=
  IsBare name ∧ name ∈ rules.flatMap (·.2)

/-- The name, with its brackets or without, has a rule. -/
def Defines (rules : List (String × List String)) (name : String) : Prop :=
  ∃ rule ∈ rules, (unbracket? rule.1).getD rule.1 = name

instance : Decidable (IsBare written) := decidable_of_iff _ unbracket?_eq_none_iff

instance : Decidable (Refers rules name) := inferInstanceAs (Decidable (_ ∧ _))

instance : Decidable (Mentions rules name) := inferInstanceAs (Decidable (_ ∧ _))

instance : Decidable (Defines rules name) := inferInstanceAs (Decidable (∃ rule ∈ rules, _))

section Bracketed

variable (hd : d.terminals = none)
include hd

theorem mem_terminals_declarationOf :
    name ∈ (d.declarationOf rules).terminals ↔ Mentions rules name := by
  simp only [declarationOf, hd, List.mem_filter, Option.isNone_iff_eq_none, unbracket?_eq_none_iff]
  exact and_comm

theorem mem_heads_declarationOf :
    name ∈ (d.declarationOf rules).rules.map (·.1) ↔ Defines rules name := by
  simp only [declarationOf, hd, List.map_map, List.mem_map, Function.comp_apply]
  rfl

theorem rules_declarationOf : (d.declarationOf rules).rules =
    rules.map fun rule => ((unbracket? rule.1).getD rule.1,
      rule.2.map fun written => (unbracket? written).getD written) := by
  simp only [declarationOf, hd]

theorem getD_mem_declarationOf (h : written ∈ rules.flatMap (·.2)) :
    (unbracket? written).getD written ∈ (d.declarationOf rules).rules.flatMap (·.2) := by
  obtain ⟨rule, hrule, hwritten⟩ := List.mem_flatMap.1 h
  rw [rules_declarationOf hd]
  exact List.mem_flatMap.2 ⟨_, List.mem_map_of_mem hrule, List.mem_map_of_mem hwritten⟩

end Bracketed

end Document

namespace Grammar

open Document

/-- A symbol is of the kind, and has the name, that its brackets tell. -/
structure Keeps (g : Grammar) (written : String) (s : Symbol) : Prop where
  bracketed : ∀ name, name ≠ "" → written = bracket name →
    ∃ n, s = .nonTerminal n ∧ g.nonTerminals.name? n = some name
  bare : IsBare written → ∃ a, s = .terminal a ∧ g.terminals.name? a = some written

/-- All symbols of the right-hand sides, as they are written, are kept. -/
def KeepsBrackets (g : Grammar) (rules : List (String × List String)) : Prop :=
  List.Forall₂ (List.Forall₂ g.Keeps) (rules.map (·.2)) (g.productions.toList.map (·.rhs))

end Grammar

namespace Document

open Declaration

variable {d : Document} {rules : List (String × List String)} {name written startName : String}

/-- A symbol is kept unless it is the name of a terminal in brackets. -/
theorem keeps_symbolOf_iff (hd : d.terminals = none) (h : (d.declarationOf rules).Valid startName)
    (hwritten : written ∈ rules.flatMap (·.2)) :
    ((d.declarationOf rules).grammarFrom startName).Keeps written
        (symbolOf (d.declarationOf rules).terminalTable (d.declarationOf rules).headTable
          ((unbracket? written).getD written)) ↔
      ∀ name, name ≠ "" → written = bracket name → ¬Mentions rules name := by
  have hdeclared := h.declared _ (getD_mem_declarationOf hd hwritten)
  cases hname : unbracket? written with
  | none =>
    have hbare := unbracket?_eq_none_iff.1 hname
    have hmem := (mem_terminals_declarationOf hd).2 ⟨hbare, hwritten⟩
    rw [Option.getD_none, symbolOf_of_mem hmem]
    constructor
    · exact fun _ name hne heq => absurd heq (hbare name hne)
    · refine fun _ => ⟨fun name hne heq => absurd heq (hbare name hne), fun _ => ⟨_, rfl, ?_⟩⟩
      exact NameTable.name?_idxOf (mem_terminalTable.2 hmem)
  | some inner =>
    obtain ⟨hne, rfl⟩ := unbracket?_eq_some_iff.1 hname
    rw [hname, Option.getD_some] at hdeclared
    rw [Option.getD_some]
    have hinner : ∀ name, name ≠ "" → bracket inner = bracket name → inner = name := by
      intro name hne' heq
      rw [heq, unbracket?_bracket hne'] at hname
      exact (Option.some.inj hname).symm
    constructor
    · intro hkeeps name hne' heq hmentions
      obtain rfl := hinner name hne' heq
      obtain ⟨n, hn, -⟩ := hkeeps.bracketed inner hne rfl
      rw [symbolOf_of_mem ((mem_terminals_declarationOf hd).2 hmentions)] at hn
      cases hn
    · intro hnot
      have hterminal : inner ∉ (d.declarationOf rules).terminals := fun hmem =>
        hnot inner hne rfl ((mem_terminals_declarationOf hd).1 hmem)
      have hhead := hdeclared.resolve_left hterminal
      rw [symbolOf_of_not_mem hterminal]
      refine ⟨fun name hne' heq => ⟨_, rfl, ?_⟩, fun hbare => absurd rfl (hbare inner hne)⟩
      obtain rfl := hinner name hne' heq
      exact NameTable.name?_idxOf (mem_headTable.2 hhead)

theorem keepsBrackets_iff (hd : d.terminals = none) (h : (d.declarationOf rules).Valid startName) :
    ((d.declarationOf rules).grammarFrom startName).KeepsBrackets rules ↔
      ∀ name, Refers rules name → ¬Mentions rules name := by
  rw [Grammar.KeepsBrackets, rhs_grammarFrom, rules_declarationOf hd, List.map_map,
    List.forall₂_map_left_iff, List.forall₂_map_right_iff, List.forall₂_same]
  simp only [Function.comp_apply, List.map_map, List.forall₂_map_right_iff, List.forall₂_same]
  constructor
  · rintro hkeeps name ⟨hne, hmem⟩
    obtain ⟨rule, hrule, hwritten⟩ := List.mem_flatMap.1 hmem
    exact (keeps_symbolOf_iff hd h hmem).1 (hkeeps rule hrule _ hwritten) name hne rfl
  · intro hclear rule hrule written hwritten
    have hmem : written ∈ rules.flatMap (·.2) := List.mem_flatMap.2 ⟨rule, hrule, hwritten⟩
    refine (keeps_symbolOf_iff hd h hmem).2 fun name hne heq => ?_
    exact hclear name ⟨hne, heq ▸ hmem⟩

theorem ofJson_eq {text : String} (hd : Document.ofText text = .ok d)
    (hrules : d.writtenRules = .ok rules) :
    Grammar.ofJson text = (d.declarationOf rules).build := by
  rw [Grammar.ofJson, hd]
  dsimp only
  rw [grammar, declaration, hrules]
  rfl

theorem exists_error_of_not_valid {text : String} (hd : Document.ofText text = .ok d)
    (hrules : d.writtenRules = .ok rules)
    (h : ∀ startName, ¬(d.declarationOf rules).Valid startName) :
    ∃ fault, Grammar.ofJson text = .error fault := by
  cases hload : Grammar.ofJson text with
  | error fault => exact ⟨fault, rfl⟩
  | ok g =>
    rw [ofJson_eq hd hrules] at hload
    obtain ⟨startName, hvalid, -⟩ := build_eq_ok_iff.1 hload
    exact absurd hvalid (h startName)

theorem eq_ok_of_toOption {ε α : Type} {x : Except ε α} {a : α} (h : x.toOption = some a) :
    x = .ok a := by
  cases x with
  | error e => cases h
  | ok b => rw [Option.some.inj h]

theorem exists_of_rules_eq (text : String) (rules : List (String × List String))
    (h : ((Document.ofText text).toOption.bind fun d =>
      if d.terminals.isNone then d.writtenRules.toOption else none) = some rules) :
    ∃ d, Document.ofText text = .ok d ∧ d.terminals = none ∧ d.writtenRules = .ok rules := by
  obtain ⟨d, hd, hrest⟩ := Option.bind_eq_some_iff.1 h
  split at hrest
  · next hnone =>
    exact ⟨d, eq_ok_of_toOption hd, Option.isNone_iff_eq_none.1 hnone, eq_ok_of_toOption hrest⟩
  · cases hrest

end Document

/-- Without a list of terminals, brackets tell the kinds of all symbols just when no name is written both
in brackets and bare. Nothing is loaded if a name in brackets has no rules and is not written bare, or if
a name with rules is. -/
theorem brackets_kept_iff {text : String} {d : Document} {rules : List (String × List String)}
    (hd : Document.ofText text = .ok d) (hterminals : d.terminals = none)
    (hrules : d.writtenRules = .ok rules) :
    (∀ g, Grammar.ofJson text = .ok g →
      (g.KeepsBrackets rules ↔ ∀ name, Document.Refers rules name → ¬Document.Mentions rules name)) ∧
    (∀ name, Document.Refers rules name → ¬Document.Defines rules name →
      ¬Document.Mentions rules name → ∃ fault, Grammar.ofJson text = .error fault) ∧
    ∀ name, Document.Defines rules name → Document.Mentions rules name →
      ∃ fault, Grammar.ofJson text = .error fault := by
  refine ⟨fun g hg => ?_, fun name hrefers hdefines hmentions => ?_,
    fun name hdefines hmentions => ?_⟩
  · rw [Document.ofJson_eq hd hrules] at hg
    obtain ⟨startName, hvalid, rfl⟩ := Declaration.build_eq_ok_iff.1 hg
    exact Document.keepsBrackets_iff hterminals hvalid
  · apply Document.exists_error_of_not_valid hd hrules
    intro startName hvalid
    have hmem := Document.getD_mem_declarationOf hterminals hrefers.2
    rw [Document.unbracket?_bracket hrefers.1, Option.getD_some] at hmem
    rcases hvalid.declared name hmem with hterminal | hhead
    · exact hmentions ((Document.mem_terminals_declarationOf hterminals).1 hterminal)
    · exact hdefines ((Document.mem_heads_declarationOf hterminals).1 hhead)
  · apply Document.exists_error_of_not_valid hd hrules
    intro startName hvalid
    exact hvalid.fresh name ((Document.mem_heads_declarationOf hterminals).2 hdefines)
      ((Document.mem_terminals_declarationOf hterminals).2 hmentions)

def repeatedLetter : String := "\x7b\"rules\":\x7b\"<S>\":[[\"a\",\"<S>\"],[]]\x7d\x7d"

theorem repeatedLetter_keepsBrackets : ∃ d rules g, Document.ofText repeatedLetter = .ok d ∧
    d.terminals = none ∧ d.writtenRules = .ok rules ∧ rules = [("<S>", ["a", "<S>"]), ("<S>", [])] ∧
      Grammar.ofJson repeatedLetter = .ok g ∧ g.KeepsBrackets rules := by
  obtain ⟨d, hd, hterminals, hrules⟩ := Document.exists_of_rules_eq repeatedLetter
    [("<S>", ["a", "<S>"]), ("<S>", [])] (by decide +kernel)
  have hload : Grammar.ofJson repeatedLetter = .ok
      { name := ""
        start := 0
        terminals := ⟨#["a"], by decide⟩
        nonTerminals := ⟨#["S"], by decide⟩
        productions := #[⟨0, 0, [.terminal 0, .nonTerminal 0]⟩, ⟨1, 0, []⟩] } := by decide +kernel
  refine ⟨d, _, _, hd, hterminals, hrules, rfl, hload, ?_⟩
  refine ((brackets_kept_iff hd hterminals hrules).1 _ hload).2 ?_
  -- Neither of the symbols is the other one in brackets.
  rintro name ⟨-, hrefers⟩ ⟨-, hmentions⟩
  simp only [List.flatMap_cons, List.flatMap_nil, List.append_nil, List.mem_cons, List.not_mem_nil,
    or_false] at hmentions
  rcases hmentions with rfl | rfl <;> revert hrefers <;> decide

/-- A name without rules, once in brackets and once bare. -/
def loneReference : String := "\x7b\"rules\":\x7b\"<S>\":[[\"<A>\"],[\"A\"]]\x7d\x7d"

/-- The name has no rules, but it is loaded, and in its brackets too it is a terminal. -/
theorem loneReference_loaded : ∃ d rules g, Document.ofText loneReference = .ok d ∧
    d.terminals = none ∧ d.writtenRules = .ok rules ∧ Grammar.ofJson loneReference = .ok g ∧
      Document.Refers rules "A" ∧ ¬Document.Defines rules "A" ∧ Document.Mentions rules "A" ∧
        g.productions.toList.map (·.rhs) = [[.terminal 0], [.terminal 0]] ∧
          ¬g.KeepsBrackets rules := by
  obtain ⟨d, hd, hterminals, hrules⟩ := Document.exists_of_rules_eq loneReference
    [("<S>", ["<A>"]), ("<S>", ["A"])] (by decide +kernel)
  have hload : Grammar.ofJson loneReference = .ok
      { name := ""
        start := 0
        terminals := ⟨#["A"], by decide⟩
        nonTerminals := ⟨#["S"], by decide⟩
        productions := #[⟨0, 0, [.terminal 0]⟩, ⟨1, 0, [.terminal 0]⟩] } := by decide +kernel
  refine ⟨d, _, _, hd, hterminals, hrules, hload, by decide, by decide, by decide, rfl, ?_⟩
  intro hkeeps
  have hfirst := (List.forall₂_cons.1 hkeeps).1
  obtain ⟨n, hn, -⟩ := (List.forall₂_cons.1 hfirst).1.bracketed "A" (by decide) (by decide)
  cases hn

end GrammarFlow
