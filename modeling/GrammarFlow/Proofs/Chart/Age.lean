import GrammarFlow.Proofs.Chart.Calls

namespace GrammarFlow

namespace Grammar

/-- The non-terminal is rewritten, in one step or more, to a form that begins with it. The symbols that
stood before it may have derived the empty word. -/
def IsLeftRecursive (g : Grammar) (n : Nat) : Prop :=
  ∃ rest, Relation.TransGen g.Rewrites [.nonTerminal n] (.nonTerminal n :: rest)

/-- The start symbol is left recursive if it is called again before any token. -/
theorem isLeftRecursive_start_iff {g : Grammar} (hg : g.WellFormed) {next : Nat → Option Nat} :
    g.IsLeftRecursive g.start ↔ ∃ it o, g.Deducible next 0 ⟨.item it, o⟩ ∧
      it.next? g = some (.nonTerminal g.start) := by
  rw [exists_item_iff_rewritten hg]
  constructor
  · rintro ⟨rest, hsteps⟩
    exact ⟨[], rest, rfl, hsteps⟩
  · rintro ⟨word, rest, hr, hsteps⟩
    have hlength := hr.length_eq
    obtain rfl : word = [] := List.eq_nil_of_length_eq_zero (by omega)
    exact ⟨rest, hsteps⟩

end Grammar

namespace Parsing.Accepts

variable {p : Parsing} {tokens : List Token} {r : Ref} {e : Entry}

theorem exists_first_lt (h : p.Accepts tokens) (he : p.chart.entry? r = some e) (hr : r ≠ ⟨0, 0⟩) :
    ∃ first, e.antecedents[0]? = some first ∧ first < r := by
  rcases (h.sound.entry he).founded with ⟨hseed, -⟩ | ⟨term, hfirst, -, hlt⟩
  · exact absurd hseed hr
  · exact ⟨term.source, hfirst, hlt _ List.mem_cons_self⟩

/-- Nothing is older than the first entry, so it is the one without need of an antecedent. -/
theorem exists_seed (h : p.Accepts tokens) : ∃ seed, p.chart.entry? ⟨0, 0⟩ = some seed ∧
    seed.key = ⟨.start p.grammar.start, 0⟩ := by
  obtain ⟨⟨position, index⟩, rfl, hk⟩ := h.seed
  obtain ⟨e, he, -⟩ := Chart.exists_entry?_of_key? hk
  have hpos := Nat.zero_lt_of_lt (Chart.index_lt_of_entry he)
  obtain ⟨seed, he⟩ := Chart.exists_entry?_of_lt (c := p.chart) (r := ⟨0, 0⟩) hpos
  rcases (h.sound.entry he).founded with ⟨-, hv⟩ | ⟨term, -, -, hlt⟩
  · have hd := (h.sound.entry he).deducible
    obtain ⟨v, o, antecedents⟩ := seed
    obtain rfl : v = .start p.grammar.start := hv
    obtain rfl : o = 0 := hd.start_origin
    exact ⟨_, he, rfl⟩
  · exact absurd (hlt _ List.mem_cons_self) (Ref.not_lt_zero _)

theorem lt_of_mem_callers (h : p.Accepts tokens) {n place : Nat}
    (hplace : place ∈ (p.chart.set 0).callers n) : (⟨0, 0⟩ : Ref) < ⟨0, place⟩ := by
  obtain ⟨it, o, hk, -⟩ := h.mem_callers_iff.1 hplace
  refine Or.inr ⟨rfl, Nat.pos_of_ne_zero ?_⟩
  rintro rfl
  obtain ⟨seed, he, hseed⟩ := h.exists_seed
  have hsame := hk.symm.trans (Chart.key?_of_entry he)
  rw [hseed] at hsame
  cases hsame

end Parsing.Accepts

/-- In the chart of an accepted parse every first antecedent is older than its entry if the start symbol
is not left recursive, and only then. All other entries than the one that the parse begins with have a
first antecedent, which is older; that one has antecedents just when the start symbol is left recursive,
and all of them are younger. -/
theorem first_antecedent_lt_iff {d : Declaration} {g : Grammar} (hg : d.build = .ok g)
    {tokens : List Token} {p : Parsing} (hp : (Graph.ofGrammar g).parse tokens = .ok p) :
    ((∀ r e first, p.chart.entry? r = some e → e.antecedents[0]? = some first → first < r) ↔
        ¬g.IsLeftRecursive g.start) ∧
      (∀ r e, p.chart.entry? r = some e → r ≠ ⟨0, 0⟩ →
        ∃ first, e.antecedents[0]? = some first ∧ first < r) ∧
      ∃ seed, p.chart.entry? ⟨0, 0⟩ = some seed ∧ seed.key = ⟨.start g.start, 0⟩ ∧
        (seed.antecedents ≠ #[] ↔ g.IsLeftRecursive g.start) ∧
        ∀ a ∈ seed.antecedents, (⟨0, 0⟩ : Ref) < a := by
  have hwf : (Graph.ofGrammar g).grammar.WellFormed := Declaration.wellFormed_of_build hg
  obtain ⟨hchart, -, -⟩ := (Graph.reports_run _ tokens).accepted p hp
  obtain ⟨here, hmakes⟩ := Graph.makes_chartOf hwf tokens
  rw [← hchart] at hmakes
  obtain ⟨rfl, h⟩ := Graph.accepts_of_parse hg hp
  obtain ⟨seed, he, hseed⟩ := h.exists_seed
  have hcallers := hmakes.callsAgree hwf ⟨0, 0⟩ seed _ he hseed
  have hcalled : seed.antecedents ≠ #[] ↔ p.grammar.IsLeftRecursive p.grammar.start := by
    rw [hcallers, ne_eq, Array.map_eq_empty_iff, ← ne_eq, h.callers_ne_empty_iff,
      Grammar.isLeftRecursive_start_iff h.wellFormed]
  have hyounger : ∀ a ∈ seed.antecedents, (⟨0, 0⟩ : Ref) < a := by
    intro a ha
    rw [hcallers] at ha
    obtain ⟨place, hplace, rfl⟩ := Array.mem_map.1 ha
    exact h.lt_of_mem_callers hplace
  refine ⟨?_, fun r e => h.exists_first_lt, seed, he, hseed, hcalled, hyounger⟩
  rw [← hcalled, not_not]
  constructor
  · intro hall
    by_contra hne
    have hpos := Array.size_pos_iff.2 hne
    exact Ref.not_lt_zero _ (hall ⟨0, 0⟩ seed seed.antecedents[0] he (Array.getElem?_eq_getElem hpos))
  · intro hnone r e first her hfirst
    rcases eq_or_ne r ⟨0, 0⟩ with rfl | hr
    · obtain rfl := Option.some.inj (he.symm.trans her)
      rw [hnone] at hfirst
      cases hfirst
    · obtain ⟨first', hfirst', hlt⟩ := h.exists_first_lt her hr
      obtain rfl := Option.some.inj (hfirst.symm.trans hfirst')
      exact hlt

theorem threeNumbers_older : sums.build = .ok sumsGrammar ∧ ∃ p seed,
    (Graph.ofGrammar sumsGrammar).parse threeNumbers = .ok p ∧
      (∀ r e, p.chart.entry? r = some e → r ≠ ⟨0, 0⟩ →
        ∃ first, e.antecedents[0]? = some first ∧ first < r) ∧
      p.chart.entry? ⟨0, 0⟩ = some seed ∧ seed.antecedents ≠ #[] ∧
        ∀ a ∈ seed.antecedents, (⟨0, 0⟩ : Ref) < a := by
  have hrecursive : sumsGrammar.IsLeftRecursive sumsGrammar.start :=
    ⟨[.terminal 1, .nonTerminal 0], .single (.production [] []
      ⟨0, 0, [.nonTerminal 0, .terminal 1, .nonTerminal 0]⟩ (by simp [sumsGrammar]))⟩
  obtain ⟨p, hp⟩ := Graph.recognizes_iff.1 recognizes_threeNumbers
  obtain ⟨-, hall, seed, he, -, hcalled, hyounger⟩ := first_antecedent_lt_iff build_sums hp
  exact ⟨build_sums, p, seed, hp, hall, he, hcalled.2 hrecursive, hyounger⟩

/-- The second entry calls the sum that the parse begins with once more. -/
theorem oneNumber_younger : ∃ p seed first, sums.build = .ok sumsGrammar ∧
    (Graph.ofGrammar sumsGrammar).parse [⟨"n", "n"⟩] = .ok p ∧
      p.chart.entry? ⟨0, 0⟩ = some seed ∧ seed.antecedents[0]? = some first ∧
        ¬first < ⟨0, 0⟩ := by
  have hfirst : ((Graph.ofGrammar sumsGrammar).parse [⟨"n", "n"⟩]).toOption.map (fun p =>
      (p.chart.entry? ⟨0, 0⟩).bind (·.antecedents[0]?)) = some (some ⟨0, 1⟩) := by decide +kernel
  cases hp : (Graph.ofGrammar sumsGrammar).parse [⟨"n", "n"⟩] with
  | error failure =>
    rw [hp] at hfirst
    cases hfirst
  | ok p =>
    rw [hp] at hfirst
    obtain ⟨seed, he, hfirst⟩ := Option.bind_eq_some_iff.1 (Option.some.inj hfirst)
    exact ⟨p, seed, ⟨0, 1⟩, build_sums, rfl, he, hfirst, Ref.not_lt_zero _⟩

end GrammarFlow
