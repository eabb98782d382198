import GrammarFlow.Proofs.Grammar.Passes

namespace GrammarFlow

structure Grammar.WellFormed (g : Grammar) : Prop where
  id_eq : ∀ {i p}, g.production? i = some p → p.id = i
  lhs_lt : ∀ {p}, p ∈ g.productions → p.lhs < g.nonTerminals.size
  nonTerminal_lt : ∀ {p n}, p ∈ g.productions → .nonTerminal n ∈ p.rhs → n < g.nonTerminals.size
  terminal_lt : ∀ {p t}, p ∈ g.productions → .terminal t ∈ p.rhs → t < g.terminals.size
  start_lt : g.start < g.nonTerminals.size

namespace Grammar

variable {g : Grammar}

theorem mem_of_production? {i : Nat} {p : Production} (h : g.production? i = some p) :
    p ∈ g.productions := Array.mem_of_getElem? h

theorem rhs_of_production? {i : Nat} {p : Production} (h : g.production? i = some p) :
    g.rhs i = p.rhs := by
  rw [rhs, h]
  rfl

namespace WellFormed

theorem production?_id (hg : g.WellFormed) {p : Production} (hp : p ∈ g.productions) :
    g.production? p.id = some p := by
  obtain ⟨i, hi⟩ := Array.mem_iff_getElem?.1 hp
  rw [hg.id_eq hi]
  exact hi

theorem rhs_id (hg : g.WellFormed) {p : Production} (hp : p ∈ g.productions) :
    g.rhs p.id = p.rhs := rhs_of_production? (hg.production?_id hp)

theorem id_injective (hg : g.WellFormed) {p q : Production} (hp : p ∈ g.productions)
    (hq : q ∈ g.productions) (h : p.id = q.id) : p = q := by
  have hp' := hg.production?_id hp
  rw [h, hg.production?_id hq] at hp'
  exact (Option.some.inj hp').symm

end WellFormed

theorem terminalId?_eq_some_iff {name : String} {a : Nat} :
    g.terminalId? name = some a ↔ a < g.terminals.size ∧ g.terminalName a = name := by
  rw [terminalId?, NameTable.id?_eq_some_iff, terminalName]
  constructor
  · intro h
    rw [h]
    exact ⟨(Array.getElem?_eq_some_iff.1 h).1, rfl⟩
  · rintro ⟨hlt, rfl⟩
    have hname : g.terminals.name? a = some g.terminals.names[a] := Array.getElem?_eq_getElem hlt
    rw [hname, Option.getD_some]

end Grammar

namespace Declaration

/-- The grammar that is built has the tables of the declaration, and all names are in them. -/
theorem eq_of_build {d : Declaration} {g : Grammar} (h : d.build = .ok g) :
    g.terminals = d.terminalTable ∧ g.nonTerminals = d.headTable ∧
      g.productions = productionsOf d.terminalTable d.headTable d.rules ∧
      g.start < d.headTable.size ∧ undefined? d.terminalTable d.headTable d.rules = none := by
  rw [build_eq_outcome] at h
  unfold outcome at h
  split at h
  · simp at h
  · next firstLhs rhs rest hrules =>
    dsimp only at h
    split at h
    · simp at h
    · split at h
      · simp at h
      · split at h
        · simp at h
        · next start hstart =>
          split at h
          · simp at h
          · next hundef =>
            obtain rfl := Except.ok.inj h
            exact ⟨rfl, rfl, rfl, NameTable.id?_lt hstart, hundef⟩

theorem wellFormed_of_build {d : Declaration} {g : Grammar} (h : d.build = .ok g) :
    g.WellFormed := by
  obtain ⟨hterm, hhead, hprods, hstart, hundef⟩ := eq_of_build h
  -- Each production has its number and its symbols from one of the rules.
  have hrule : ∀ {p}, p ∈ g.productions → ∃ rule ∈ d.rules, ∃ i,
      p = productionOf d.terminalTable d.headTable i rule := by
    intro p hp
    obtain ⟨i, hi⟩ := Array.mem_iff_getElem?.1 hp
    rw [hprods, getElem?_productionsOf, Option.map_eq_some_iff] at hi
    obtain ⟨rule, hr, rfl⟩ := hi
    exact ⟨rule, List.mem_of_getElem? hr, i, rfl⟩
  have hsymbol : ∀ {p s}, p ∈ g.productions → s ∈ p.rhs → ∃ name,
      (d.terminalTable.contains name = true ∨ d.headTable.contains name = true) ∧
        symbolOf d.terminalTable d.headTable name = s := by
    intro p s hp hs
    obtain ⟨rule, hr, i, rfl⟩ := hrule hp
    obtain ⟨name, hn, rfl⟩ := List.mem_map.1 hs
    exact ⟨name, contains_of_undefined? hundef hr hn, rfl⟩
  constructor
  · intro i p hi
    rw [Grammar.production?, hprods, getElem?_productionsOf, Option.map_eq_some_iff] at hi
    obtain ⟨rule, -, rfl⟩ := hi
    rfl
  · intro p hp
    obtain ⟨rule, hr, i, rfl⟩ := hrule hp
    rw [hhead]
    exact NameTable.idxOf_lt (mem_headTable.2 (List.mem_map.2 ⟨rule, hr, rfl⟩))
  · intro p n hp hn
    obtain ⟨name, hname, hs⟩ := hsymbol hp hn
    rw [hhead]
    exact (symbolOf_mem hname).2 hs
  · intro p t hp ht
    obtain ⟨name, hname, hs⟩ := hsymbol hp ht
    rw [hterm]
    exact (symbolOf_mem hname).1 hs
  · rw [hhead]
    exact hstart

end Declaration

end GrammarFlow
