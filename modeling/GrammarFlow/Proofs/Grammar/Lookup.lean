import GrammarFlow.Proofs.Grammar.Building
import Mathlib.Data.List.Nodup
import Mathlib.Order.Bounds.Basic

namespace GrammarFlow.Grammar

variable {g : Grammar} {p q : Production} {lhs : String} {rhs : List String} {s : Symbol} {id n : Nat}

/-- The production has these names. -/
structure HasNames (g : Grammar) (p : Production) (lhs : String) (rhs : List String) : Prop where
  lhs_eq : g.nonTerminalName p.lhs = lhs
  rhs_eq : g.rhsNames p = rhs

theorem nonTerminalId?_eq_some_iff {name : String} :
    g.nonTerminalId? name = some n ↔ n < g.nonTerminals.size ∧ g.nonTerminalName n = name := by
  rw [nonTerminalId?, NameTable.id?_eq_some_iff, nonTerminalName]
  constructor
  · intro h
    rw [h]
    exact ⟨(Array.getElem?_eq_some_iff.1 h).1, rfl⟩
  · rintro ⟨hlt, rfl⟩
    have hname : g.nonTerminals.name? n = some g.nonTerminals.names[n] := Array.getElem?_eq_getElem hlt
    rw [hname, Option.getD_some]

def InTables (g : Grammar) : Symbol → Prop
  | .terminal t => t < g.terminals.size
  | .nonTerminal n => n < g.nonTerminals.size

theorem WellFormed.inTables (hg : g.WellFormed) (hp : p ∈ g.productions) : ∀ s ∈ p.rhs, g.InTables s
  | .terminal _, hs => hg.terminal_lt hp hs
  | .nonTerminal _, hs => hg.nonTerminal_lt hp hs

def NamesApart (g : Grammar) : Prop := ∀ name ∈ g.terminals.names, name ∉ g.nonTerminals.names

theorem namesApart_of_build {d : Declaration} (hg : d.build = .ok g) : g.NamesApart := by
  obtain ⟨startName, h, rfl⟩ := Declaration.build_eq_ok_iff.1 hg
  exact h.faithful.disjoint

theorem symbol?_symbolName (happ : g.NamesApart) (hs : g.InTables s) :
    g.symbol? (g.symbolName s) = some s := by
  cases s with
  | terminal t =>
    have hid : g.terminalId? (g.terminalName t) = some t := terminalId?_eq_some_iff.2 ⟨hs, rfl⟩
    rw [symbolName, symbol?, hid]
    rfl
  | nonTerminal n =>
    have hid : g.nonTerminalId? (g.nonTerminalName n) = some n := nonTerminalId?_eq_some_iff.2 ⟨hs, rfl⟩
    have hmem : g.nonTerminalName n ∈ g.nonTerminals.names :=
      NameTable.id?_isSome_iff.1 (Option.isSome_of_eq_some hid)
    have hnone : g.terminalId? (g.nonTerminalName n) = none :=
      NameTable.id?_eq_none_iff.2 fun hterminal => happ _ hterminal hmem
    rw [symbolName, symbol?, hnone, hid]
    rfl

theorem map_symbol?_rhsNames (hg : g.WellFormed) (happ : g.NamesApart) (hp : p ∈ g.productions) :
    (g.rhsNames p).map g.symbol? = p.rhs.map some := by
  rw [rhsNames, List.map_map]
  apply List.map_congr_left
  intro s hs
  exact symbol?_symbolName happ (hg.inTables hp s hs)

theorem HasNames.symbols_eq (hg : g.WellFormed) (happ : g.NamesApart) (hp : p ∈ g.productions)
    (hq : q ∈ g.productions) (h : g.HasNames p lhs rhs) (h' : g.HasNames q lhs rhs) :
    p.lhs = q.lhs ∧ p.rhs = q.rhs := by
  constructor
  · have hid := nonTerminalId?_eq_some_iff.2 ⟨hg.lhs_lt hp, h.lhs_eq⟩
    rw [nonTerminalId?_eq_some_iff.2 ⟨hg.lhs_lt hq, h'.lhs_eq⟩] at hid
    exact (Option.some.inj hid).symm
  · have hrhs := map_symbol?_rhsNames hg happ hp
    rw [h.rhs_eq, ← h'.rhs_eq, map_symbol?_rhsNames hg happ hq] at hrhs
    exact ((List.map_inj_right fun _ _ => Option.some.inj).1 hrhs).symm

/-- The production that is found has the names, and no earlier one has them. -/
theorem WellFormed.of_findProduction? (hg : g.WellFormed) (h : g.findProduction? lhs rhs = some id) :
    ∃ p ∈ g.productions, p.id = id ∧ g.HasNames p lhs rhs ∧
      ∀ q ∈ g.productions, g.HasNames q lhs rhs → id ≤ q.id := by
  obtain ⟨n, hn, hids⟩ := Option.bind_eq_some_iff.1 h
  obtain ⟨ids, hrow, hfind⟩ := Option.bind_eq_some_iff.1 hids
  obtain ⟨-, rfl⟩ := alternatives?_eq_some_iff.1 hrow
  obtain ⟨-, hlhs⟩ := nonTerminalId?_eq_some_iff.1 hn
  obtain ⟨hnames, before, after, hsplit, hnone⟩ := List.find?_eq_some_iff_append.1 hfind
  have hmem : id ∈ g.alternativesOf n := by
    rw [hsplit]
    exact List.mem_append_right _ List.mem_cons_self
  obtain ⟨p, hp, rfl, rfl⟩ := mem_alternativesOf.1 hmem
  rw [hg.production?_id hp, Option.any_some, beq_iff_eq] at hnames
  refine ⟨p, hp, rfl, ⟨hlhs, hnames⟩, fun q hq hq' => ?_⟩
  -- An earlier production would stand before it among the alternatives.
  have hqlhs := nonTerminalId?_eq_some_iff.2 ⟨hg.lhs_lt hq, hq'.lhs_eq⟩
  rw [hn, Option.some.injEq] at hqlhs
  have hqmem : q.id ∈ g.alternativesOf p.lhs := mem_alternativesOf.2 ⟨q, hq, hqlhs.symm, rfl⟩
  have hsorted := hg.pairwise_alternativesOf p.lhs
  rw [hsplit, List.pairwise_append, List.pairwise_cons] at hsorted
  rw [hsplit, List.mem_append, List.mem_cons] at hqmem
  rcases hqmem with hbefore | heq | hafter
  · have hfalse := hnone q.id hbefore
    rw [hg.production?_id hq, Option.any_some, hq'.rhs_eq, beq_self_eq_true] at hfalse
    cases hfalse
  · exact Nat.le_of_eq heq.symm
  · exact Nat.le_of_lt (hsorted.2.1.1 q.id hafter)

theorem WellFormed.findProduction?_eq_none_iff (hg : g.WellFormed) :
    g.findProduction? lhs rhs = none ↔ ∀ p ∈ g.productions, ¬g.HasNames p lhs rhs := by
  constructor
  · intro h p hp hnames
    have hn := nonTerminalId?_eq_some_iff.2 ⟨hg.lhs_lt hp, hnames.lhs_eq⟩
    have hrow := alternatives?_eq_some_iff.2 ⟨hg.lhs_lt hp, rfl⟩
    simp only [findProduction?, hn, hrow, Option.bind_eq_bind, Option.bind_some, List.find?_eq_none] at h
    have hfalse := h p.id (mem_alternativesOf.2 ⟨p, hp, rfl, rfl⟩)
    rw [hg.production?_id hp, Option.any_some, hnames.rhs_eq, beq_self_eq_true] at hfalse
    exact hfalse rfl
  · intro h
    by_contra hsome
    obtain ⟨id, hid⟩ := Option.ne_none_iff_exists'.1 hsome
    obtain ⟨p, hp, -, hnames, -⟩ := hg.of_findProduction? hid
    exact h p hp hnames

theorem WellFormed.findProduction?_eq_some_iff (hg : g.WellFormed) :
    g.findProduction? lhs rhs = some id ↔
      IsLeast {i | ∃ p, g.production? i = some p ∧ g.HasNames p lhs rhs} id := by
  -- There is no more than one least number, and with one number something is found.
  have hleast : ∀ {i}, g.findProduction? lhs rhs = some i →
      IsLeast {i | ∃ p, g.production? i = some p ∧ g.HasNames p lhs rhs} i := by
    intro i hi
    obtain ⟨p, hp, rfl, hnames, hle⟩ := hg.of_findProduction? hi
    refine ⟨⟨p, hg.production?_id hp, hnames⟩, ?_⟩
    rintro j ⟨q, hq, hq'⟩
    rw [← hg.id_eq hq]
    exact hle q (mem_of_production? hq) hq'
  refine ⟨hleast, fun h => ?_⟩
  obtain ⟨p, hp, hnames⟩ := h.1
  cases hfound : g.findProduction? lhs rhs with
  | none => exact absurd hnames (hg.findProduction?_eq_none_iff.1 hfound p (mem_of_production? hp))
  | some i => rw [h.unique (hleast hfound)]

/-- The names of the productions are the rules of the declaration, number by number. -/
theorem exists_hasNames_iff_of_build {d : Declaration} (hg : d.build = .ok g) {i : Nat} :
    (∃ p, g.production? i = some p ∧ g.HasNames p lhs rhs) ↔ d.rules[i]? = some (lhs, rhs) := by
  obtain ⟨startName, h, rfl⟩ := Declaration.build_eq_ok_iff.1 hg
  rw [← h.namedRules_grammarFrom, namedRules, List.getElem?_map, Array.getElem?_toList,
    Option.map_eq_some_iff]
  refine exists_congr fun p => and_congr_right fun _ => ?_
  rw [Prod.mk.injEq]
  exact ⟨fun hnames => ⟨hnames.lhs_eq, hnames.rhs_eq⟩, fun hpair => ⟨hpair.1, hpair.2⟩⟩

theorem findProduction_eq_ok_iff {d : Declaration} (hg : d.build = .ok g) :
    g.findProduction lhs rhs = .ok id ↔ IsLeast {i | d.rules[i]? = some (lhs, rhs)} id := by
  have hw := Declaration.wellFormed_of_build hg
  simp only [← exists_hasNames_iff_of_build hg, ← hw.findProduction?_eq_some_iff, findProduction]
  cases g.findProduction? lhs rhs <;> simp

theorem findProduction_eq_error_iff {d : Declaration} (hg : d.build = .ok g) {e : GrammarError} :
    g.findProduction lhs rhs = .error e ↔
      (lhs, rhs) ∉ d.rules ∧ e = .unknownRule lhs (" ".intercalate rhs) := by
  have hw := Declaration.wellFormed_of_build hg
  have hnone : g.findProduction? lhs rhs = none ↔ (lhs, rhs) ∉ d.rules := by
    rw [hw.findProduction?_eq_none_iff, List.mem_iff_getElem?]
    simp only [← exists_hasNames_iff_of_build hg]
    constructor
    · rintro h ⟨i, p, hp, hnames⟩
      exact h p (mem_of_production? hp) hnames
    · exact fun h p hp hnames => h ⟨p.id, p, hw.production?_id hp, hnames⟩
  rw [← hnone, findProduction]
  cases g.findProduction? lhs rhs with
  | none => simp [eq_comm]
  | some id => simp

/-- A rule is found where it is declared first. By the names of a production the first one with the same
symbols is found, which is that production itself unless its rule has been declared before; by any names
what is found is the first rule with just these names, each of them a name of the symbol that stands in
its place, and an unknown rule is reported only if no rule has them. -/
theorem findProduction_eq_first {d : Declaration} {g : Grammar} (hg : d.build = .ok g) :
    (∀ i p, g.production? i = some p → ∃ first,
      g.findProduction (g.nonTerminalName p.lhs) (g.rhsNames p) = .ok first ∧
        IsLeast {j | ∃ q, g.production? j = some q ∧ q.lhs = p.lhs ∧ q.rhs = p.rhs} first ∧
        (first = i ↔ ∀ j < i, d.rules[j]? ≠ d.rules[i]?)) ∧
      ∀ lhs rhs,
        (∀ id, g.findProduction lhs rhs = .ok id ↔ IsLeast {i | d.rules[i]? = some (lhs, rhs)} id) ∧
        (∀ id p, g.findProduction lhs rhs = .ok id → g.production? id = some p →
          g.nonTerminalId? lhs = some p.lhs ∧ rhs.map g.symbol? = p.rhs.map some) ∧
        ∀ e, g.findProduction lhs rhs = .error e ↔
          (lhs, rhs) ∉ d.rules ∧ e = .unknownRule lhs (" ".intercalate rhs) := by
  have hw := Declaration.wellFormed_of_build hg
  have happ := namesApart_of_build hg
  refine ⟨fun i p hp => ?_, fun lhs rhs => ⟨fun id => findProduction_eq_ok_iff hg,
    fun id p hfound hp => ?_, fun e => findProduction_eq_error_iff hg⟩⟩
  · have hmem := mem_of_production? hp
    have hrule := (exists_hasNames_iff_of_build hg).1 ⟨p, hp, rfl, rfl⟩
    -- The same symbols are the same names, and the same names are the same rule.
    have hsame : ∀ j, (∃ q, g.production? j = some q ∧ q.lhs = p.lhs ∧ q.rhs = p.rhs) ↔
        d.rules[j]? = d.rules[i]? := by
      intro j
      rw [hrule, ← exists_hasNames_iff_of_build hg]
      refine exists_congr fun q => and_congr_right fun hq => ⟨fun ⟨hlhs, hrhs⟩ => ?_, fun h => ?_⟩
      · exact ⟨by rw [hlhs], by rw [rhsNames, hrhs, rhsNames]⟩
      · exact h.symbols_eq hw happ (mem_of_production? hq) hmem ⟨rfl, rfl⟩
    simp only [hsame]
    cases hfirst : g.findProduction (g.nonTerminalName p.lhs) (g.rhsNames p) with
    | error e =>
      exact absurd (List.mem_of_getElem? hrule) ((findProduction_eq_error_iff hg).1 hfirst).1
    | ok first =>
      have hleast := (findProduction_eq_ok_iff hg).1 hfirst
      rw [← hrule] at hleast
      refine ⟨first, rfl, hleast, ?_, fun hfresh => ?_⟩
      · rintro rfl j hj heq
        exact Nat.not_lt_of_le (hleast.2 heq) hj
      · refine Nat.le_antisymm (hleast.2 rfl) (Nat.le_of_not_lt fun hlt => ?_)
        exact hfresh first hlt hleast.1
  · obtain ⟨q, hq, hnames⟩ :=
      (exists_hasNames_iff_of_build hg).2 ((findProduction_eq_ok_iff hg).1 hfound).1
    obtain rfl := Option.some.inj (hp.symm.trans hq)
    have hmem := mem_of_production? hp
    refine ⟨nonTerminalId?_eq_some_iff.2 ⟨hw.lhs_lt hmem, hnames.lhs_eq⟩, ?_⟩
    rw [← hnames.rhs_eq]
    exact map_symbol?_rhsNames hw happ hmem

end GrammarFlow.Grammar

namespace GrammarFlow

/-- A rule that is declared again, behind an empty one for its first symbol. -/
def repeated : Declaration :=
  { name := "repeated", terminals := ["a"], rules := [("S", ["S", "a"]), ("S", []), ("S", ["S", "a"])] }

def repeatedGrammar : Grammar :=
  { name := "repeated"
    start := 0
    terminals := ⟨#["a"], List.nodup_singleton "a"⟩
    nonTerminals := ⟨#["S"], List.nodup_singleton "S"⟩
    productions := #[⟨0, 0, [.nonTerminal 0, .terminal 0]⟩, ⟨1, 0, []⟩,
      ⟨2, 0, [.nonTerminal 0, .terminal 0]⟩] }

/-- By the names of the later copy the first one is found, and by a part of its names nothing is. -/
theorem repeated_findProduction : repeated.build = .ok repeatedGrammar ∧
    repeatedGrammar.production? 2 = some ⟨2, 0, [.nonTerminal 0, .terminal 0]⟩ ∧
    repeatedGrammar.findProduction "S" ["S", "a"] = .ok 0 ∧
    repeatedGrammar.findProduction "S" ["S"] = .error (.unknownRule "S" "S") := by
  have hbuild : repeated.build = .ok repeatedGrammar := by decide +kernel
  obtain ⟨hown, hnames⟩ := Grammar.findProduction_eq_first hbuild
  obtain ⟨first, hfound, hleast, -⟩ := hown 2 ⟨2, 0, [.nonTerminal 0, .terminal 0]⟩ rfl
  have hzero : first ≤ 0 := hleast.2 ⟨⟨0, 0, [.nonTerminal 0, .terminal 0]⟩, rfl, rfl, rfl⟩
  obtain rfl := Nat.le_zero.1 hzero
  exact ⟨hbuild, rfl, hfound, ((hnames "S" ["S"]).2.2 _).2 ⟨by decide, rfl⟩⟩

end GrammarFlow
