import GrammarFlow.Proofs.Document.Format
import GrammarFlow.Proofs.Grammar.Contiguous
import Mathlib.Data.List.Nodup

namespace GrammarFlow

open Document

namespace Grammar

variable (g : Grammar) (write : String → String)

/-- A symbol of a right-hand side, with the name of a non-terminal as it is to be written. -/
def written : Symbol → String
  | .terminal a => g.terminalName a
  | .nonTerminal n => write (g.nonTerminalName n)

def writtenAlternatives (name : String) : List (List String) :=
  (g.productions.toList.filter (g.lhsName · == name)).map fun p => p.rhs.map (g.written write)

/-- The document of a grammar: each left-hand side, in the order of numbers, with its alternatives. -/
def documentBy (terminals : Option (List String)) : Document where
  name := g.name
  start := some (write g.startName)
  terminals
  rules := g.nonTerminals.names.toList.map fun name =>
    (write name, alternativesJson (g.writtenAlternatives write name))

/-- The document with a list of the terminals, in the order of numbers. -/
def document : Document := g.documentBy id (some g.terminals.names.toList)

/-- The document without a list of terminals, where non-terminals are written in brackets. -/
def bracketedDocument : Document := g.documentBy bracket none

def terminalName? : Symbol → Option String
  | .terminal a => some (g.terminalName a)
  | .nonTerminal _ => none

def usedTerminals : List String :=
  (g.productions.toList.flatMap (·.rhs)).filterMap g.terminalName?

/-- Brackets tell the kinds of all symbols, and the terminals are the used ones in order of first use. -/
structure IsBracketable (g : Grammar) : Prop where
  bare : ∀ name ∈ g.terminals.names, IsBare name
  nonempty : ∀ name ∈ g.nonTerminals.names, name ≠ ""
  used : g.usedTerminals.eraseDups = g.terminals.names.toList

variable {g write} {d : Declaration} {terminals : Option (List String)} {text : String}

/-- The rules that the document of a grammar writes are its productions. -/
theorem writtenRules_documentBy (hg : d.build = .ok g) (h : g.IsContiguous) :
    (g.documentBy write terminals).writtenRules =
      .ok (g.productions.toList.map fun p => (write (g.lhsName p), p.rhs.map (g.written write))) := by
  have hgroup : ∀ name, (do
      let alternatives ← rightHandSides (alternativesJson (g.writtenAlternatives write name))
      return alternatives.map fun rhs => (write name, rhs) : Except GrammarError _) =
        .ok ((g.writtenAlternatives write name).map fun rhs => (write name, rhs)) := by
    intro name
    rw [rightHandSides_alternativesJson]
    rfl
  rw [writtenRules, documentBy]
  dsimp only
  rw [mapM_map_eq_ok hgroup]
  have hrules : ∀ name, (g.writtenAlternatives write name).map (fun rhs => (write name, rhs)) =
      (g.productions.toList.filter (g.lhsName · == name)).map fun p =>
        (write (g.lhsName p), p.rhs.map (g.written write)) := by
    intro name
    rw [writtenAlternatives, List.map_map]
    apply List.map_congr_left
    intro p hp
    have hname : g.lhsName p = name := by simpa using (List.mem_filter.1 hp).2
    rw [hname]
    rfl
  have hflat : (g.nonTerminals.names.toList.map fun name =>
      (g.writtenAlternatives write name).map fun rhs => (write name, rhs)).flatten =
        g.productions.toList.map fun p =>
          (write (g.lhsName p), p.rhs.map (g.written write)) := by
    simp only [hrules]
    rw [← List.flatMap_def, ← List.map_flatMap, h.flatMap_alternatives hg]
  exact congrArg Except.ok hflat

theorem written_id : g.written id = g.symbolName := by
  funext s
  cases s <;> rfl

theorem ofJson_document (hg : d.build = .ok g) (h : g.IsContiguous)
    (htext : Document.ofText text = .ok g.document) : Grammar.ofJson text = .ok g := by
  rw [ofJson_eq htext (writtenRules_documentBy hg h), written_id]
  exact build_eq_of_names hg g.terminals.insertAll_names rfl rfl rfl

namespace IsBracketable

theorem unbracket?_terminalName (h : g.IsBracketable) {a : Nat} (ha : a < g.terminals.size) :
    unbracket? (g.terminalName a) = none := by
  apply unbracket?_eq_none_iff.2
  apply h.bare
  exact Array.mem_of_getElem? (name?_terminals ha)

theorem unbracket?_nonTerminalName (h : g.IsBracketable) {n : Nat}
    (hn : n < g.nonTerminals.size) :
    unbracket? (bracket (g.nonTerminalName n)) = some (g.nonTerminalName n) := by
  apply unbracket?_bracket
  apply h.nonempty
  exact Array.mem_of_getElem? (name?_nonTerminals hn)

theorem getD_unbracket?_written (hwf : g.WellFormed) (h : g.IsBracketable) {p : Production}
    {s : Symbol} (hp : p ∈ g.productions) (hs : s ∈ p.rhs) :
    (unbracket? (g.written bracket s)).getD (g.written bracket s) = g.symbolName s := by
  cases s with
  | terminal a =>
    rw [written, h.unbracket?_terminalName (hwf.terminal_lt hp hs)]
    rfl
  | nonTerminal n =>
    rw [written, h.unbracket?_nonTerminalName (hwf.nonTerminal_lt hp hs)]
    rfl

theorem filter_written (hwf : g.WellFormed) (h : g.IsBracketable) (symbols : List Symbol)
    (hsymbols : ∀ s ∈ symbols, ∃ p ∈ g.productions, s ∈ p.rhs) :
    (symbols.map (g.written bracket)).filter (fun name => (unbracket? name).isNone) =
      symbols.filterMap g.terminalName? := by
  induction symbols with
  | nil => rfl
  | cons s symbols ih =>
    obtain ⟨p, hp, hs⟩ := hsymbols s List.mem_cons_self
    have hrest := ih fun s hs => hsymbols s (List.mem_cons_of_mem _ hs)
    cases s with
    | terminal a =>
      have hnone := h.unbracket?_terminalName (hwf.terminal_lt hp hs)
      rw [List.map_cons, written, List.filter_cons_of_pos (by rw [hnone]; rfl), hrest]
      rfl
    | nonTerminal n =>
      have hsome := h.unbracket?_nonTerminalName (hwf.nonTerminal_lt hp hs)
      rw [List.map_cons, written, List.filter_cons_of_neg (by rw [hsome]; exact nofun), hrest]
      rfl

end IsBracketable

theorem ofJson_bracketedDocument (hg : d.build = .ok g) (h : g.IsContiguous)
    (hb : g.IsBracketable) (htext : Document.ofText text = .ok g.bracketedDocument) :
    Grammar.ofJson text = .ok g := by
  have hwf := Declaration.wellFormed_of_build hg
  have hname : ∀ {n}, n < g.nonTerminals.size → (unbracket? (bracket (g.nonTerminalName n))).getD
      (bracket (g.nonTerminalName n)) = g.nonTerminalName n := by
    intro n hn
    rw [hb.unbracket?_nonTerminalName hn, Option.getD_some]
  rw [ofJson_eq htext (writtenRules_documentBy hg h)]
  apply build_eq_of_names hg
  · have hflat : (g.productions.toList.map fun p =>
        (bracket (g.lhsName p), p.rhs.map (g.written bracket))).flatMap (·.2) =
          (g.productions.toList.flatMap (·.rhs)).map (g.written bracket) := by
      rw [List.flatMap_map, List.map_flatMap]
    have hused := hb.filter_written hwf (g.productions.toList.flatMap (·.rhs)) fun s hs => by
      obtain ⟨p, hp, hs⟩ := List.mem_flatMap.1 hs
      exact ⟨p, Array.mem_toList_iff.1 hp, hs⟩
    apply NameTable.ext_names
    rw [NameTable.toList_names_insertAll, ← hb.used, usedTerminals, ← hused, ← hflat]
    rfl
  · rfl
  · rw [rules_declarationOf rfl, List.map_map]
    apply List.map_congr_left
    intro p hp
    have hp := Array.mem_toList_iff.1 hp
    apply Prod.ext
    · exact hname (hwf.lhs_lt hp)
    · change ((p.rhs.map (g.written bracket)).map fun written =>
        (unbracket? written).getD written) = p.rhs.map g.symbolName
      rw [List.map_map]
      exact List.map_congr_left fun s hs => hb.getD_unbracket?_written hwf hp hs
  · exact congrArg some (hname hwf.start_lt)

/-- The document of a grammar is read back from its text, if left-hand sides are written apart. -/
theorem ofText_documentBy (hwrite : Function.Injective write) :
    Document.ofText (g.documentBy write terminals).toJson.compact =
      .ok (g.documentBy write terminals) := by
  apply ofText_compact
  · intro m hm
    obtain ⟨name, -, rfl⟩ := List.mem_map.1 hm
    exact ⟨_, rfl⟩
  · have hkeys : (g.documentBy write terminals).rules.map (·.1) =
        g.nonTerminals.names.toList.map write := by
      rw [documentBy, List.map_map]
      rfl
    rw [hkeys]
    exact List.Nodup.map hwrite g.nonTerminals.nodup

theorem bracket_injective : Function.Injective bracket := by
  intro name name' h
  have hchars := congrArg String.toList h
  rw [toList_bracket, toList_bracket] at hchars
  exact String.toList_injective (List.append_cancel_right (List.cons.inj hchars).2)

end Grammar

/-- A grammar whose productions stand together by left-hand sides is loaded again from a document in
either format, and from the text that the document is printed to. -/
theorem documents_roundTrip {d : Declaration} {g : Grammar} (hg : d.build = .ok g)
    (h : g.IsContiguous) :
    (∀ text, Document.ofText text = .ok g.document → Grammar.ofJson text = .ok g) ∧
      Grammar.ofJson g.document.toJson.compact = .ok g ∧
      (g.IsBracketable →
        (∀ text, Document.ofText text = .ok g.bracketedDocument → Grammar.ofJson text = .ok g) ∧
          Grammar.ofJson g.bracketedDocument.toJson.compact = .ok g) := by
  refine ⟨fun text => Grammar.ofJson_document hg h, ?_, fun hb => ⟨fun text =>
    Grammar.ofJson_bracketedDocument hg h hb, ?_⟩⟩
  · exact Grammar.ofJson_document hg h (Grammar.ofText_documentBy Function.injective_id)
  · exact Grammar.ofJson_bracketedDocument hg h hb
      (Grammar.ofText_documentBy Grammar.bracket_injective)

def lists : Declaration :=
  { name := "lists"
    terminals := ["a", ","]
    rules := [("List", ["a", "Rest"]), ("Rest", [",", "a", "Rest"]), ("Rest", [])] }

def listsGrammar : Grammar :=
  { name := "lists"
    start := 0
    terminals := ⟨#["a", ","], by decide⟩
    nonTerminals := ⟨#["List", "Rest"], by decide⟩
    productions := #[⟨0, 0, [.terminal 0, .nonTerminal 1]⟩,
      ⟨1, 1, [.terminal 1, .terminal 0, .nonTerminal 1]⟩, ⟨2, 1, []⟩] }

theorem lists_roundTrip : lists.build = .ok listsGrammar ∧ listsGrammar.IsContiguous ∧
    listsGrammar.IsBracketable ∧
      Grammar.ofJson listsGrammar.document.toJson.compact = .ok listsGrammar ∧
        Grammar.ofJson listsGrammar.bracketedDocument.toJson.compact = .ok listsGrammar := by
  have hbuild : lists.build = .ok listsGrammar := by decide +kernel
  have hcontiguous : listsGrammar.IsContiguous := by
    intro p q r hsub heq
    -- The only three productions in a row begin with one non-terminal and end with another one.
    have hall : [p, q, r] = listsGrammar.productions.toList := hsub.eq_of_length rfl
    have hlhs : [p.lhs, q.lhs, r.lhs] = [0, 1, 1] := congrArg (List.map Production.lhs) hall
    obtain ⟨hp, -, hr⟩ : p.lhs = 0 ∧ q.lhs = 1 ∧ r.lhs = 1 := by simpa using hlhs
    exact absurd (hp.symm.trans (heq.trans hr)) Nat.zero_ne_one
  have hbracketable : listsGrammar.IsBracketable :=
    ⟨by decide, by decide, by decide +kernel⟩
  obtain ⟨-, hplain, hbracketed⟩ := documents_roundTrip hbuild hcontiguous
  exact ⟨hbuild, hcontiguous, hbracketable, hplain, (hbracketed hbracketable).2⟩

end GrammarFlow
