import GrammarFlow.Proofs.Chart.Prediction
import GrammarFlow.Proofs.Derivation.Terms

namespace GrammarFlow

namespace Parsing.Accepts

variable {p : Parsing} {tokens : List Token} {i : Nat} {k : Key}

theorem closedTo (h : p.Accepts tokens) :
    p.chart.ClosedTo p.grammar (p.grammar.coming tokens) tokens.length :=
  ⟨h.sound, h.saturated, h.seed⟩

theorem le_length_of_deducible (hd : p.grammar.Deducible (p.grammar.coming tokens) i k) :
    i ≤ tokens.length := by
  apply hd.le_of_next_eq_none
  rw [Grammar.coming, List.getElem?_eq_none (Nat.le_refl _)]
  rfl

theorem mem_keys_iff (h : p.Accepts tokens) :
    k ∈ (p.chart.set i).keys ↔ p.grammar.Deducible (p.grammar.coming tokens) i k := by
  constructor
  · intro hk
    obtain ⟨r, rfl, hr⟩ := Chart.mem_keys_iff.1 hk
    exact h.deducible hr
  · intro hd
    exact (h.closedTo.mem_keys_iff h.wellFormed (le_length_of_deducible hd)).2 hd

theorem isEmpty_set (h : p.Accepts tokens) (hi : i ≤ tokens.length) :
    (p.chart.set i).isEmpty = false := by
  have hreached : ∃ k, p.grammar.Deducible (p.grammar.coming tokens) i k := by
    have hend := h.deducible h.key?_accept
    rw [h.position_accept] at hend
    rcases Nat.lt_or_eq_of_le hi with hlt | rfl
    · obtain ⟨it, o, t, hit, -⟩ := hend.exists_shift i hlt
      exact ⟨_, hit⟩
    · exact ⟨_, hend⟩
  obtain ⟨k, hd⟩ := hreached
  obtain ⟨r, rfl, hr⟩ := h.exists_key? hd hi
  exact Chart.set_nonempty_of_key? hr

end Parsing.Accepts

/-- An accepted chart has a set for each position, none of them empty, and its entries are just the
vertices with origins that derivations bear out there, each of them once. -/
theorem chart_entries_iff_justified {d : Declaration} {g : Grammar} (hg : d.build = .ok g)
    {tokens : List Token} {p : Parsing} (hp : (Graph.ofGrammar g).parse tokens = .ok p) :
    p.chart.size = tokens.length + 1 ∧ ∀ i ≤ tokens.length,
      (p.chart.set i).isEmpty = false ∧ (p.chart.set i).keys.Nodup ∧
        ∀ k, k ∈ (p.chart.set i).keys ↔ g.Justifies tokens i k := by
  obtain ⟨rfl, h⟩ := Graph.accepts_of_parse hg hp
  refine ⟨h.size_eq, fun i hi => ⟨h.isEmpty_set hi, (h.sound.consistent i).nodup_keys, fun k => ?_⟩⟩
  rw [h.mem_keys_iff, Grammar.deducible_iff_justifies h.wellFormed hi]

theorem threeNumbers_justified : sums.build = .ok sumsGrammar ∧
    ∃ p, (Graph.ofGrammar sumsGrammar).parse threeNumbers = .ok p ∧ p.chart.size = 6 ∧
      sumsGrammar.Justifies threeNumbers 3 ⟨.item ⟨0, 3⟩, 0⟩ := by
  obtain ⟨p, hp⟩ := Graph.recognizes_iff.1 recognizes_threeNumbers
  have hmem : ((Graph.ofGrammar sumsGrammar).parse threeNumbers).toOption.any (fun p =>
      (p.chart.set 3).keys.contains ⟨.item ⟨0, 3⟩, 0⟩) = true := by decide +kernel
  rw [hp] at hmem
  obtain ⟨hsize, hsets⟩ := chart_entries_iff_justified build_sums hp
  obtain ⟨-, -, hkeys⟩ := hsets 3 (by decide)
  exact ⟨build_sums, p, hp, hsize, (hkeys _).1 (List.contains_iff_mem.1 hmem)⟩

/-- The work list leaves what the rules of deduction yield, whatever the order in which callers and ends
meet: a position holds a key once if it can be deduced there, and not at all otherwise, and the
antecedents of an entry are, each of them once, the sources of the rule applications that yield it. -/
theorem chart_eq_deduction {d : Declaration} {g : Grammar} (hg : d.build = .ok g)
    {tokens : List Token} {p : Parsing} (hp : (Graph.ofGrammar g).parse tokens = .ok p) :
    (∀ i, (p.chart.set i).keys.Nodup ∧
      ∀ k, k ∈ (p.chart.set i).keys ↔ g.Deducible (g.coming tokens) i k) ∧
    ∀ r e, p.chart.entry? r = some e → e.antecedents.toList.Nodup ∧
      ∀ a, a ∈ e.antecedents ↔ ∃ term, term.source = a ∧
        p.chart.Supports g (g.coming tokens) term r.position e.key := by
  obtain ⟨rfl, h⟩ := Graph.accepts_of_parse hg hp
  constructor
  · intro i
    exact ⟨(h.sound.consistent i).nodup_keys, fun k => h.mem_keys_iff⟩
  · intro r e he
    exact ⟨(h.sound.entry he).nodup, fun a => h.mem_antecedents_iff he⟩

theorem threeNumbers_antecedents : sums.build = .ok sumsGrammar ∧
    ∃ p r e, (Graph.ofGrammar sumsGrammar).parse threeNumbers = .ok p ∧
      p.chart.entry? r = some e ∧ e.antecedents.size = 2 ∧ e.antecedents.toList.Nodup ∧
        ∀ a ∈ e.antecedents, ∃ term, term.source = a ∧ p.chart.Supports sumsGrammar
          (sumsGrammar.coming threeNumbers) term r.position e.key := by
  obtain ⟨p, hp⟩ := Graph.recognizes_iff.1 recognizes_threeNumbers
  -- The sum of all three numbers ends with either of its operators outermost.
  have hsize : ((Graph.ofGrammar sumsGrammar).parse threeNumbers).toOption.bind (fun p =>
      ((p.chart.find? 5 (.item ⟨0, 3⟩) 0).bind p.chart.entry?).map (·.antecedents.size)) = some 2 := by
    decide +kernel
  rw [hp] at hsize
  obtain ⟨e, he, htwo⟩ := Option.map_eq_some_iff.1 hsize
  obtain ⟨r, -, he⟩ := Option.bind_eq_some_iff.1 he
  obtain ⟨hnodup, hmem⟩ := (chart_eq_deduction build_sums hp).2 r e he
  exact ⟨build_sums, p, r, e, hp, he, htwo, hnodup, fun a ha => (hmem a).1 ha⟩

end GrammarFlow
