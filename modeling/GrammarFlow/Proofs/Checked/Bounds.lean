import GrammarFlow.Proofs.Checked.Count
import GrammarFlow.Proofs.Derivation.Assembly
import GrammarFlow.Proofs.WorkList

namespace GrammarFlow

open Chart

theorem Grammar.Deducible.exists_read {g : Grammar} {next : Nat → Option Nat} {i o t : Nat} {it : Item}
    (h : g.Deducible next i ⟨.item it.advance, o⟩) (ht : it.next? g = some (.terminal t)) :
    ∃ j, i = j + 1 ∧ next j = some t := by
  generalize hk : (⟨.item it.advance, o⟩ : Key) = k at h
  cases h with
  | seed => cases hk
  | expand h hp =>
    have hdot : it.dot + 1 = 0 := congrArg (fun k : Key => Key.place k.vertex) hk
    exact absurd hdot (Nat.succ_ne_zero _)
  | call h hn => cases hk
  | exit h hp hend => cases hk
  | @shift j o' t' it' h ht' hnext =>
    injection hk with hv
    injection hv with hit
    rw [← Item.previous?_advance, hit, Item.previous?_advance, ht'] at ht
    obtain rfl := Symbol.terminal.inj (Option.some.inj ht)
    exact ⟨j, rfl, hnext⟩
  | @back i j o' n it' h hcall hn =>
    injection hk with hv
    injection hv with hit
    rw [← Item.previous?_advance, hit, Item.previous?_advance, hn] at ht
    cases ht

/-- Vertices have their places in the graph, and what leads from one to another stays there. -/
structure Graph.InRange (G : Graph) : Prop where
  vertex : ∀ {v}, v ∈ G.grammar.vertices → G.number v < G.size ∧ G.vertex? (G.number v) = some v
  edge : ∀ {v edge}, v ∈ G.grammar.vertices → edge ∈ G.edges v → G.number edge.target < G.size
  successor : ∀ {v w}, v ∈ G.grammar.vertices → G.successor? v = some w →
    ∃ it : Item, v = .item it ∧ w = .item it.advance ∧
      G.number w = G.number v + 1 ∧ G.number w < G.size
  predecessor : ∀ {v w}, v ∈ G.grammar.vertices → v.predecessor? = some w →
    ∃ it : Item, w = .item it ∧ v = .item it.advance ∧
      G.number v = G.number w + 1 ∧ G.number w < G.size

/-- Entries are at vertices of the graph, begin no later than they end and come from entries; what the
chart hands out are entries too. -/
structure Chart.InRange (G : Graph) (c : Chart) : Prop where
  vertex : ∀ {r e}, c.entry? r = some e → e.vertex ∈ G.grammar.vertices
  origin : ∀ {r e}, c.entry? r = some e → e.origin ≤ r.position
  antecedent : ∀ {r e}, c.entry? r = some e → ∀ a ∈ e.antecedents, ∃ source, c.entry? a = some source
  caller : ∀ {j n}, ∀ place ∈ (c.set j).callers n, ∃ waiting, c.entry? ⟨j, place⟩ = some waiting
  found : ∀ {i v o r}, c.find? i v o = some r → ∃ e, c.entry? r = some e
  ambiguous : ∀ r ∈ c.ambiguousEntries, ∃ e, c.entry? r = some e
  /-- Behind a terminal there is a token before the position, and a symbol before the dot. -/
  shifted : ∀ {r e it t}, c.entry? r = some e → e.vertex = .item it →
    it.previous? G.grammar = some (.terminal t) → 1 ≤ r.position ∧ 1 ≤ it.dot

namespace Graph

variable {G : Graph} {tokens : List Token} {c : Chart} {here : Ref}

theorem inRange (hg : G.grammar.WellFormed) : G.InRange where
  vertex hv := ⟨number_lt hg hv, vertex?_number hg hv⟩
  edge hv hedge := number_lt hg (target_mem hg hv hedge)
  successor hv hw := by
    obtain ⟨it, hit, hnext, hmem, hnumber⟩ := number_of_successor? hg hv hw
    exact ⟨it, hit, hnext, hnumber, number_lt hg hmem⟩
  predecessor hv hw := by
    obtain ⟨it, hit, hprevious, hmem, hnumber⟩ := number_of_predecessor? hg hv hw
    exact ⟨it, hit, hprevious, hnumber, number_lt hg hmem⟩

theorem Maintained.inRange (hg : G.grammar.WellFormed) (h : Maintained G tokens here c) : c.InRange G where
  vertex he := (h.sound.entry he).deducible.vertex_mem hg
  origin he := (h.sound.entry he).deducible.origin_le hg
  antecedent he a ha := by
    obtain ⟨term, rfl, hsup⟩ := (h.sound.entry he).supported a ha
    obtain ⟨k, hk⟩ := hsup.exists_key? term.source List.mem_cons_self
    obtain ⟨source, hsource, -⟩ := exists_entry?_of_key? hk
    exact ⟨source, hsource⟩
  caller place hplace := by
    obtain ⟨-, it, o, hk, -⟩ := h.saturated.mem_callers_iff.1 hplace
    obtain ⟨waiting, hwaiting, -⟩ := exists_entry?_of_key? hk
    exact ⟨waiting, hwaiting⟩
  found {i v o r} hr := by
    obtain ⟨-, hk⟩ := (h.sound.consistent.find?_iff (k := ⟨v, o⟩)).1 hr
    obtain ⟨e, he, -⟩ := exists_entry?_of_key? hk
    exact ⟨e, he⟩
  ambiguous r hr := by
    obtain ⟨e, he, -⟩ := (Option.any_eq_true _ _).1 (List.mem_filter.1 hr).2
    exact ⟨e, he⟩
  shifted {r e it t} he hv ht := by
    obtain ⟨production, dot⟩ := it
    cases dot with
    | zero => cases ht
    | succ dot =>
      have hnext : (⟨production, dot⟩ : Item).next? G.grammar = some (.terminal t) := ht
      have hd := (h.sound.entry he).deducible
      rw [Entry.key, hv] at hd
      obtain ⟨j, hposition, -⟩ := hd.exists_read hnext
      rw [hposition]
      exact ⟨Nat.le_add_left 1 j, Nat.le_add_left 1 dot⟩

end Graph

theorem Checked.sortedKeys_eq {c : Chart} {i : Nat} (hi : i < c.size) :
    Checked.sortedKeys c i = some (c.sortedKeys i) := by
  rw [Checked.sortedKeys, set_eq_of_lt hi]
  rfl

/-- Whatever the tokens, nothing is accessed out of range and nothing is taken from zero. The graph and all
charts on the way keep the bounds, and to check each access changes nothing: neither the recognition, nor,
over accepted tokens, the walk, the count, the assembly of a tree and the queries. -/
theorem accesses_in_range {d : Declaration} {g : Grammar} (hg : d.build = .ok g) (tokens : List Token) :
    (Graph.ofGrammar g).InRange ∧
    (∀ here c, (Graph.ofGrammar g).Makes tokens here c → c.InRange (Graph.ofGrammar g) ∧
      (g.coming tokens here.position ≠ none → here.position + 1 < c.size)) ∧
    (∃ here, (Graph.ofGrammar g).Makes tokens here ((Graph.ofGrammar g).chartOf tokens)) ∧
    Checked.parse (Graph.ofGrammar g) tokens = some ((Graph.ofGrammar g).parse tokens) ∧
    ∀ p, (Graph.ofGrammar g).parse tokens = .ok p → p.chart = (Graph.ofGrammar g).chartOf tokens ∧
      (∃ events, p.walk = .ok events ∧ Checked.walk p = some (.ok events)) ∧
      Checked.derivationCount p = some p.derivationCount ∧
      (∀ {σ ν : Type} (f : Factory σ ν) (state : σ), ∃ made, p.assemble f state = .ok made) ∧
      (∀ i, Checked.expectedTerminals p.graph p.chart i = some (p.chart.expectedTerminals p.graph i)) ∧
      ∀ i ≤ tokens.length, Checked.sortedKeys p.chart i = some (p.chart.sortedKeys i) := by
  have hw : (Graph.ofGrammar g).grammar.WellFormed := Declaration.wellFormed_of_build hg
  refine ⟨Graph.inRange hw, fun here c hc => ?_, Graph.makes_chartOf hw tokens,
    Checked.parse_eq hw tokens, fun p hp => ?_⟩
  · have hmaintained := hc.maintained hw
    exact ⟨hmaintained.inRange hw, hmaintained.room⟩
  · obtain ⟨hchart, -, -⟩ := (Graph.reports_run _ tokens).accepted p hp
    obtain ⟨rfl, h⟩ := Graph.accepts_of_parse hg hp
    obtain ⟨t, ht, hwalk, -⟩ := h.exists_walk
    refine ⟨hchart, ⟨_, hwalk, ?_⟩, Checked.derivationCount_eq h, fun f state => ?_,
      Checked.expectedTerminals_eq hw h.sound, fun i hi => ?_⟩
    · rw [Checked.walk_eq h, hwalk]
    · exact ⟨_, h.assemble_eq ht hwalk f state⟩
    · apply Checked.sortedKeys_eq
      rw [h.size_eq]
      omega

theorem threeNumbers_in_range : sums.build = .ok sumsGrammar ∧
    ∃ p events, (Graph.ofGrammar sumsGrammar).parse threeNumbers = .ok p ∧
      Checked.parse (Graph.ofGrammar sumsGrammar) threeNumbers = some (.ok p) ∧
      p.chart.InRange (Graph.ofGrammar sumsGrammar) ∧ Checked.walk p = some (.ok events) ∧
      Checked.derivationCount p = some (some 2) := by
  obtain ⟨p, hp⟩ := Graph.recognizes_iff.1 recognizes_threeNumbers
  have hcount : ((Graph.ofGrammar sumsGrammar).parse threeNumbers).toOption.map
      (·.derivationCount) = some (some 2) := by decide +kernel
  obtain ⟨-, hcharts, ⟨here, hmade⟩, hparse, haccepted⟩ := accesses_in_range build_sums threeNumbers
  obtain ⟨hchart, ⟨events, -, hwalk⟩, hcounted, -⟩ := haccepted p hp
  obtain ⟨hrange, -⟩ := hcharts here _ hmade
  rw [hp] at hcount hparse
  have htwo : p.derivationCount = some 2 := Option.some.inj hcount
  rw [htwo] at hcounted
  rw [← hchart] at hrange
  exact ⟨build_sums, p, events, hp, hparse, hrange, hwalk, hcounted⟩

end GrammarFlow
