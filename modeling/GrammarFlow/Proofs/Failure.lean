import GrammarFlow.Proofs.Entries
import GrammarFlow.Proofs.Distinct
import Mathlib.Data.List.Sort
import Mathlib.Order.Bounds.Defs

namespace GrammarFlow

theorem Graph.shift?_eq_some_iff {G : Graph} {v : Vertex} {a : Nat} :
    G.shift? v = some a ↔ ∃ it, v = .item it ∧ it.next? G.grammar = some (.terminal a) := by
  cases v with
  | start n => simp [shift?]
  | final n => simp [shift?]
  | item it =>
    simp only [shift?, Vertex.item.injEq, exists_eq_left']
    split
    · next t ht => simp [ht]
    · next hother => simpa using fun h => hother a h

namespace Chart

variable {G : Graph} {next : Nat → Option Nat} {c : Chart} {i j a : Nat}

theorem mem_expectedTerminals_iff : a ∈ c.expectedTerminals G i ↔
    a < G.grammar.terminals.size ∧ ∃ k ∈ (c.set i).keys, G.shift? k.vertex = some a := by
  simp [expectedTerminals, StateSet.keys, Entry.key]

theorem ClosedTo.mem_expectedTerminals_iff (hg : G.grammar.WellFormed)
    (h : c.ClosedTo G.grammar next i) (hj : j ≤ i) :
    a ∈ c.expectedTerminals G j ↔ G.grammar.Awaits next j (.terminal a) := by
  rw [Chart.mem_expectedTerminals_iff]
  constructor
  · rintro ⟨-, ⟨v, o⟩, hk, hshift⟩
    obtain ⟨it, rfl, hs⟩ := Graph.shift?_eq_some_iff.1 hshift
    exact Or.inr ⟨it, o, (h.mem_keys_iff hg hj).1 hk, hs⟩
  · rintro (⟨hs, -⟩ | ⟨it, o, hd, hs⟩)
    · cases hs
    · obtain ⟨p, hp, hsymbol⟩ := Item.exists_production_of_next? hs
      refine ⟨hg.terminal_lt (Grammar.mem_of_production? hp) (List.mem_of_getElem? hsymbol), _,
        (h.mem_keys_iff hg hj).2 hd, ?_⟩
      exact Graph.shift?_eq_some_iff.2 ⟨it, rfl, hs⟩

/-- Over tokens they are the terminals that can follow the tokens before the position. -/
theorem ClosedTo.mem_expectedTerminals_coming_iff {tokens : List Token} (hg : G.grammar.WellFormed)
    (h : c.ClosedTo G.grammar (G.grammar.coming tokens) i) (hj : j ≤ i) (hlength : j ≤ tokens.length) :
    a ∈ c.expectedTerminals G j ↔ G.grammar.Follows (tokens.take j) (.terminal a) := by
  rw [h.mem_expectedTerminals_iff hg hj, Grammar.awaits_iff_reaches hg]
  exact Grammar.reaches_coming_iff hlength

theorem mem_expected_iff {found : Option Token} {name : String} :
    name ∈ (c.failure G i found).expected ↔
      ∃ a, G.grammar.terminalId? name = some a ∧ a ∈ c.expectedTerminals G i := by
  simp only [failure, List.mem_mergeSort, List.mem_map, Grammar.terminalId?_eq_some_iff]
  constructor
  · rintro ⟨a, ha, rfl⟩
    exact ⟨a, ⟨(Chart.mem_expectedTerminals_iff.1 ha).1, rfl⟩, ha⟩
  · rintro ⟨a, ⟨-, rfl⟩, ha⟩
    exact ⟨a, ha, rfl⟩

theorem pairwise_expected {found : Option Token} :
    (c.failure G i found).expected.Pairwise (· < ·) := by
  have hnodup : ((c.expectedTerminals G i).map G.grammar.terminalName).Nodup := by
    have hrange : (c.expectedTerminals G i).Nodup := List.nodup_range.filter _
    refine hrange.map_on fun a ha b hb hname => ?_
    have hid : ∀ {a}, a ∈ c.expectedTerminals G i →
        G.grammar.terminalId? (G.grammar.terminalName a) = some a := fun ha =>
      Grammar.terminalId?_eq_some_iff.2 ⟨(Chart.mem_expectedTerminals_iff.1 ha).1, rfl⟩
    have hsame := hid hb
    rw [← hname, hid ha] at hsame
    exact Option.some.inj hsame
  have hsorted := pairwise_mergeSort_of_nodup (fun a b => decide (a ≤ b))
    (by simpa using fun a b c => String.le_trans) (by simpa using String.le_total) hnodup
  refine hsorted.imp fun ⟨hle, hne⟩ => String.not_le.1 fun hge => hne ?_
  exact String.le_antisymm (of_decide_eq_true hle) hge

end Chart

namespace Graph.Rejects

variable {G : Graph} {tokens : List Token} {f : ParseFailure}

theorem isGreatest (hg : G.grammar.WellFormed) (h : G.Rejects tokens f) :
    IsGreatest {i | i ≤ tokens.length ∧ G.grammar.IsViable (tokens.take i)} f.position := by
  constructor
  · exact ⟨h.position_le, (Grammar.isViable_take_iff hg h.position_le).2 h.reached⟩
  · rintro i ⟨hi, hviable⟩
    obtain ⟨k, hk⟩ := (Grammar.isViable_take_iff hg hi).1 hviable
    by_contra hlt
    exact h.blocked (Nat.lt_of_not_le hlt) hk

theorem found_eq (h : G.Rejects tokens f) : f.found = tokens[f.position]? := by
  obtain ⟨c, -, hf⟩ := h.exists_chart
  exact congrArg ParseFailure.found hf

end Graph.Rejects

/-- The failure tells where the tokens go wrong: behind the longest prefix that begins a sentential form,
with the token there, if any, and in order the names of all terminals that can follow the prefix. -/
structure Grammar.Pinpoints (g : Grammar) (tokens : List Token) (f : ParseFailure) : Prop where
  position : IsGreatest {i | i ≤ tokens.length ∧ g.IsViable (tokens.take i)} f.position
  found : f.found = tokens[f.position]?
  ascending : f.expected.Pairwise (· < ·)
  mem_expected_iff : ∀ name, name ∈ f.expected ↔
    ∃ a, g.terminalId? name = some a ∧ g.Follows (tokens.take f.position) (.terminal a)

theorem Graph.Rejects.pinpoints {G : Graph} {tokens : List Token} {f : ParseFailure}
    (hg : G.grammar.WellFormed) (h : G.Rejects tokens f) : G.grammar.Pinpoints tokens f := by
  obtain ⟨c, hc, hf⟩ := h.exists_chart
  have hexpected : f.expected = (c.failure G f.position tokens[f.position]?).expected :=
    congrArg ParseFailure.expected hf
  refine ⟨h.isGreatest hg, h.found_eq, ?_, fun name => ?_⟩
  · rw [hexpected]
    exact Chart.pairwise_expected
  · simp only [hexpected, Chart.mem_expected_iff,
      hc.mem_expectedTerminals_coming_iff hg (Nat.le_refl _) h.position_le]

/-- A failure tells where the tokens go wrong, and all that could have stood there. So does the chart of
tokens that are accepted at each of its positions. -/
theorem failure_pinpoints {d : Declaration} {g : Grammar} (hg : d.build = .ok g)
    (tokens : List Token) :
    (∀ f, (Graph.ofGrammar g).parse tokens = .error f → g.Pinpoints tokens f) ∧
      ∀ p, (Graph.ofGrammar g).parse tokens = .ok p → ∀ i ≤ tokens.length, ∀ a,
        a ∈ p.chart.expectedTerminals p.graph i ↔ g.Follows (tokens.take i) (.terminal a) := by
  have hwf : (Graph.ofGrammar g).grammar.WellFormed := Declaration.wellFormed_of_build hg
  constructor
  · intro f hf
    have h := Graph.settles_parse hwf tokens
    rw [hf] at h
    exact Graph.Rejects.pinpoints hwf h
  · intro p hp i hi a
    obtain ⟨rfl, h⟩ := Graph.accepts_of_parse hg hp
    exact h.closedTo.mem_expectedTerminals_coming_iff (G := p.graph) h.wellFormed hi hi

theorem danglingOperator_pinpoints : sums.build = .ok sumsGrammar ∧
    (∃ f, (Graph.ofGrammar sumsGrammar).parse (threeNumbers.take 2) = .error f ∧ f.position = 2 ∧
      f.found = none ∧ sumsGrammar.Pinpoints (threeNumbers.take 2) f) ∧
    ∃ p, (Graph.ofGrammar sumsGrammar).parse threeNumbers = .ok p ∧
      sumsGrammar.Follows (threeNumbers.take 1) (.terminal 1) := by
  refine ⟨build_sums, ?_, ?_⟩
  · have hposition : (match (Graph.ofGrammar sumsGrammar).parse (threeNumbers.take 2) with
        | .error f => some f.position
        | .ok _ => none) = some 2 := by decide +kernel
    cases hf : (Graph.ofGrammar sumsGrammar).parse (threeNumbers.take 2) with
    | ok p =>
      rw [hf] at hposition
      cases hposition
    | error f =>
      rw [hf] at hposition
      have htwo : f.position = 2 := Option.some.inj hposition
      have h := (failure_pinpoints build_sums _).1 f hf
      refine ⟨f, rfl, htwo, ?_, h⟩
      rw [h.found, htwo]
      rfl
  · obtain ⟨p, hp⟩ := Graph.recognizes_iff.1 recognizes_threeNumbers
    have hmem : ((Graph.ofGrammar sumsGrammar).parse threeNumbers).toOption.any (fun p =>
        (p.chart.expectedTerminals p.graph 1).contains 1) = true := by decide +kernel
    rw [hp] at hmem
    have hfollows := (failure_pinpoints build_sums threeNumbers).2 p hp 1 (by decide) 1
    exact ⟨p, hp, hfollows.1 (List.contains_iff_mem.1 hmem)⟩

end GrammarFlow
