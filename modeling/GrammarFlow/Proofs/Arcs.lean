import GrammarFlow.Proofs.Numbering
import GrammarFlow.Proofs.Recognition
import Mathlib.Data.List.Induction

namespace GrammarFlow

/-- An edge with the vertex that it leaves. -/
structure Arc where
  source : Vertex
  edge : Edge
deriving DecidableEq, Repr

namespace Production

variable (p : Production)

/-- The arcs of a symbol at a place: a terminal is read, and a non-terminal is called and comes back. -/
def arcsAt (k : Nat) : Symbol → List Arc
  | .terminal t => [⟨.item ⟨p.id, k⟩, .shift t, .item ⟨p.id, k + 1⟩⟩]
  | .nonTerminal n =>
    [⟨.item ⟨p.id, k⟩, .call n, .start n⟩, ⟨.final n, .back n, .item ⟨p.id, k + 1⟩⟩]

/-- The arc into a production, those of its symbols and the arc out of it. -/
def arcs : List Arc :=
  ⟨.start p.lhs, .start, .item ⟨p.id, 0⟩⟩ :: (p.rhs.zipIdx.flatMap fun x => p.arcsAt x.2 x.1) ++
    [⟨.item ⟨p.id, p.rhs.length⟩, .final, .final p.lhs⟩]

end Production

def Grammar.arcs (g : Grammar) : List Arc := g.productions.toList.flatMap Production.arcs

/-- The second vertex is the item behind the next symbol of the first. -/
def Grammar.StepsOver (g : Grammar) (v w : Vertex) : Prop :=
  ∃ i p, g.production? i = some p ∧ ∃ k < p.rhs.length, v = .item ⟨i, k⟩ ∧ w = .item ⟨i, k + 1⟩

section

variable {α β : Type}

theorem flatMap_ite (xs : List α) (test : α → Bool) (f : α → β) :
    (xs.flatMap fun x => if test x then [f x] else []) = (xs.filter test).map f := by
  induction xs with
  | nil => rfl
  | cons x xs ih =>
    rw [List.flatMap_cons, ih]
    cases h : test x <;> simp [h]

theorem flatMap_eq_of_getElem? {xs : List α} {f : α → List β} {i : Nat} {x : α} (hx : xs[i]? = some x)
    (hother : ∀ j y, xs[j]? = some y → j ≠ i → f y = []) : xs.flatMap f = f x := by
  obtain ⟨hlt, rfl⟩ := List.getElem?_eq_some_iff.1 hx
  have hbefore : (xs.take i).flatMap f = [] := by
    rw [List.flatMap_eq_nil_iff]
    intro y hy
    obtain ⟨j, hj⟩ := List.mem_iff_getElem?.1 hy
    rw [List.getElem?_take] at hj
    split at hj
    · exact hother j y hj (by omega)
    · cases hj
  have hafter : (xs.drop (i + 1)).flatMap f = [] := by
    rw [List.flatMap_eq_nil_iff]
    intro y hy
    obtain ⟨j, hj⟩ := List.mem_iff_getElem?.1 hy
    rw [List.getElem?_drop] at hj
    exact hother _ y hj (by omega)
  calc xs.flatMap f = (xs.take i ++ xs[i] :: xs.drop (i + 1)).flatMap f := by
        rw [← List.drop_eq_getElem_cons hlt, List.take_append_drop]
    _ = f xs[i] := by rw [List.flatMap_append, List.flatMap_cons, hbefore, hafter]; simp

theorem flatMap_zipIdx (xs : List α) (f : α → Nat → List β) :
    (xs.zipIdx.flatMap fun x => f x.1 x.2) =
      (List.range xs.length).flatMap fun k => (xs[k]?).toList.flatMap (f · k) := by
  induction xs using List.reverseRecOn with
  | nil => rfl
  | append_singleton xs x ih =>
    rw [List.zipIdx_append, List.flatMap_append, ih, List.length_append, List.length_singleton,
      List.range_succ, List.flatMap_append]
    congr 1
    · apply List.flatMap_congr
      intro k hk
      rw [List.getElem?_append_left (List.mem_range.1 hk)]
    · simp

end

namespace Production

variable {p : Production} {v : Vertex}

theorem filter_arcsAt_item (k j : Nat) (s : Symbol) :
    (p.arcsAt k s).filter (·.source = .item ⟨p.id, j⟩) = if k = j then (p.arcsAt k s).take 1 else [] := by
  cases s <;> by_cases h : k = j <;> simp [arcsAt, h]

theorem filter_arcsAt_final (k n : Nat) (s : Symbol) :
    (p.arcsAt k s).filter (·.source = .final n) =
      if s = .nonTerminal n then [⟨.final n, .back n, .item ⟨p.id, k + 1⟩⟩] else [] := by
  cases s with
  | terminal t => simp [arcsAt]
  | nonTerminal m => by_cases h : m = n <;> simp [arcsAt, h]

theorem filter_arcs_start (n : Nat) : p.arcs.filter (·.source = .start n) =
    if p.lhs = n then [⟨.start n, .start, .item ⟨p.id, 0⟩⟩] else [] := by
  have hnone : ∀ k s, (p.arcsAt k s).filter (·.source = .start n) = [] := by
    intro k s
    cases s <;> simp [arcsAt]
  by_cases h : p.lhs = n <;> simp [arcs, List.filter_flatMap, hnone, h]

theorem filter_arcs_final (n : Nat) : p.arcs.filter (·.source = .final n) =
    (Grammar.returnsIn n p).map fun w => ⟨.final n, .back n, w⟩ := by
  have hsymbols : (p.rhs.zipIdx.flatMap fun x => p.arcsAt x.2 x.1).filter (·.source = .final n) =
      (Grammar.returnsIn n p).map fun w => ⟨.final n, .back n, w⟩ := by
    rw [List.filter_flatMap]
    simp only [filter_arcsAt_final]
    rw [flatMap_zipIdx p.rhs fun s k => if s = .nonTerminal n then
      [(⟨.final n, .back n, .item ⟨p.id, k + 1⟩⟩ : Arc)] else [], Grammar.returnsIn, List.map_map,
      ← flatMap_ite]
    apply List.flatMap_congr
    intro k _
    cases p.rhs[k]? <;> simp
  simp [arcs, hsymbols]

/-- An item is left once, over the symbol behind the dot or out of the production. -/
theorem filter_arcs_item {k : Nat} (hk : k ≤ p.rhs.length) : p.arcs.filter (·.source = .item ⟨p.id, k⟩) =
    match p.rhs[k]? with
    | some s => (p.arcsAt k s).take 1
    | none => [⟨.item ⟨p.id, k⟩, .final, .final p.lhs⟩] := by
  have hsymbols : (p.rhs.zipIdx.flatMap fun x => p.arcsAt x.2 x.1).filter (·.source = .item ⟨p.id, k⟩) =
      (p.rhs[k]?).toList.flatMap fun s => (p.arcsAt k s).take 1 := by
    rw [List.filter_flatMap]
    simp only [filter_arcsAt_item]
    cases h : p.rhs[k]? with
    | none =>
      rw [Option.toList_none, List.flatMap_nil, List.flatMap_eq_nil_iff]
      rintro ⟨s, j⟩ hs
      rw [List.mem_zipIdx_iff_getElem?] at hs
      rw [if_neg]
      rintro rfl
      cases h.symm.trans hs
    | some s =>
      rw [flatMap_eq_of_getElem? (i := k) (x := (s, k)) (by simp [h])]
      · simp
      · rintro j ⟨s', j'⟩ hj hne
        simp only [List.getElem?_zipIdx, Option.map_eq_some_iff, Prod.mk.injEq] at hj
        obtain ⟨-, -, -, rfl⟩ := hj
        rw [if_neg (by omega)]
  rcases Nat.lt_or_eq_of_le hk with hlt | rfl
  · have hne : p.rhs.length ≠ k := Nat.ne_of_gt hlt
    simp [arcs, hsymbols, hlt, hne]
  · simp [arcs, hsymbols]

theorem mem_arcs {arc : Arc} : arc ∈ p.arcs ↔ arc = ⟨.start p.lhs, .start, .item ⟨p.id, 0⟩⟩ ∨
    (∃ k s, p.rhs[k]? = some s ∧ arc ∈ p.arcsAt k s) ∨
      arc = ⟨.item ⟨p.id, p.rhs.length⟩, .final, .final p.lhs⟩ := by
  simp only [arcs, List.cons_append, List.mem_cons, List.mem_append, List.mem_flatMap, Prod.exists,
    List.mem_zipIdx_iff_getElem?, List.not_mem_nil, or_false]
  rw [exists_comm]

theorem filter_arcs_of_ne {i : Item} (h : i.production ≠ p.id) :
    p.arcs.filter (·.source = .item i) = [] := by
  rw [List.filter_eq_nil_iff]
  intro arc harc hsource
  rw [decide_eq_true_eq] at hsource
  apply h
  rcases mem_arcs.1 harc with rfl | ⟨k, s, -, hs⟩ | rfl
  · cases hsource
  · cases s <;> simp only [arcsAt, List.mem_cons, List.not_mem_nil, or_false] at hs
    case terminal t =>
      subst hs
      rw [← Vertex.item.inj hsource]
    case nonTerminal n =>
      rcases hs with rfl | rfl
      · rw [← Vertex.item.inj hsource]
      · cases hsource
  · rw [← Vertex.item.inj hsource]

end Production

namespace Graph

variable {G : Graph} {v w : Vertex} {n : Nat}

/-- The edges of a vertex are the arcs that leave it, as often and in the same order. -/
theorem edges_eq_arcs (hg : G.grammar.WellFormed) (hv : v ∈ G.grammar.vertices) :
    G.edges v = (G.grammar.arcs.filter (·.source = v)).map Arc.edge := by
  rw [Grammar.arcs, List.filter_flatMap]
  cases v with
  | start n =>
    simp only [Production.filter_arcs_start]
    rw [edges_start hg, Grammar.alternativesOf, List.map_map]
    have hite := flatMap_ite G.grammar.productions.toList (·.lhs == n)
      fun p => (⟨.start n, .start, .item ⟨p.id, 0⟩⟩ : Arc)
    simp only [beq_iff_eq] at hite
    rw [hite, List.map_map]
    rfl
  | final n =>
    simp only [Production.filter_arcs_final]
    rw [edges, List.map_flatMap, List.map_flatMap]
    simp only [List.map_map]
    rfl
  | item i =>
    obtain ⟨p, hp, hdot⟩ := exists_production_of_mem hg hv
    have hid : p.id = i.production := hg.id_eq hp
    rw [flatMap_eq_of_getElem? (i := i.production) (x := p) (by rwa [Array.getElem?_toList])]
    · obtain ⟨production, dot⟩ := i
      obtain rfl : p.id = production := hid
      rw [Production.filter_arcs_item hdot, edges, itemEdge?, Item.next?, Grammar.rhs_of_production? hp]
      dsimp only
      cases p.rhs[dot]? with
      | none =>
        rw [hp]
        rfl
      | some s => cases s <;> rfl
    · intro j q hq hne
      rw [Array.getElem?_toList] at hq
      apply Production.filter_arcs_of_ne
      rw [hg.id_eq hq]
      exact hne.symm

theorem successor?_eq_some_iff (hg : G.grammar.WellFormed) (hv : v ∈ G.grammar.vertices) :
    G.successor? v = some w ↔ G.grammar.StepsOver v w := by
  constructor
  · intro h
    obtain ⟨it, rfl, rfl, hmem, -⟩ := number_of_successor? hg hv h
    obtain ⟨p, hp, hdot⟩ := exists_production_of_mem hg hmem
    exact ⟨it.production, p, hp, it.dot, hdot, rfl, rfl⟩
  · rintro ⟨i, p, hp, k, hk, rfl, rfl⟩
    have hopen : ¬p.rhs.length ≤ k := Nat.not_le_of_gt hk
    simp [successor?, Item.isComplete, Item.length, Grammar.rhs_of_production? hp, hopen, Item.advance]

theorem predecessor?_eq_some_iff (hg : G.grammar.WellFormed) (hw : w ∈ G.grammar.vertices) :
    w.predecessor? = some v ↔ G.grammar.StepsOver v w := by
  constructor
  · intro h
    obtain ⟨it, rfl, rfl, -, -⟩ := number_of_predecessor? hg hw h
    obtain ⟨p, hp, hdot⟩ := exists_production_of_mem hg hw
    exact ⟨it.production, p, hp, it.dot, hdot, rfl, rfl⟩
  · rintro ⟨i, p, hp, k, hk, rfl, rfl⟩
    rfl

theorem number_of_stepsOver (h : G.grammar.StepsOver v w) : G.number w = G.number v + 1 := by
  obtain ⟨i, p, hp, k, hk, rfl, rfl⟩ := h
  rfl

theorem call_mem_edges_iff : ⟨.call n, .start n⟩ ∈ G.edges v ↔
    ∃ it : Item, v = .item it ∧ it.next? G.grammar = some (.nonTerminal n) := by
  cases v with
  | start m => simp [edges]
  | final m => simp [edges]
  | item it =>
    rw [edges, Option.mem_toList, itemEdge?]
    cases hnext : it.next? G.grammar with
    | none => cases G.grammar.production? it.production <;> simp [hnext]
    | some s => cases s <;> simp [hnext]

theorem back_mem_edges_iff (hg : G.grammar.WellFormed) : ⟨.back n, w⟩ ∈ G.edges (.final n) ↔
    ∃ it : Item, w = .item it.advance ∧ it.next? G.grammar = some (.nonTerminal n) := by
  simp only [edges, Grammar.returnsIn, List.mem_map, List.mem_flatMap, List.mem_filter,
    List.mem_range, Array.mem_toList_iff, Edge.mk.injEq, true_and, beq_iff_eq, exists_eq_right]
  constructor
  · rintro ⟨p, hp, k, ⟨-, hk⟩, rfl⟩
    refine ⟨⟨p.id, k⟩, rfl, ?_⟩
    rw [Item.next?, hg.rhs_id hp]
    exact hk
  · rintro ⟨it, rfl, hnext⟩
    obtain ⟨p, hp, hs⟩ := Item.exists_production_of_next? hnext
    refine ⟨p, Grammar.mem_of_production? hp, it.dot, ⟨(List.getElem?_eq_some_iff.1 hs).1, hs⟩, ?_⟩
    rw [hg.id_eq hp]
    rfl

theorem arc_mem_vertices (hg : G.grammar.WellFormed) {arc : Arc} (h : arc ∈ G.grammar.arcs) :
    arc.source ∈ G.grammar.vertices ∧ arc.edge.target ∈ G.grammar.vertices := by
  obtain ⟨p, hp, harc⟩ := List.mem_flatMap.1 h
  rw [Array.mem_toList_iff] at hp
  have hitem : ∀ {dot}, dot ≤ p.rhs.length → Vertex.item ⟨p.id, dot⟩ ∈ G.grammar.vertices :=
    fun hdot => item_mem_vertices hg (hg.production?_id hp) hdot
  have hsource : arc.source ∈ G.grammar.vertices := by
    rcases Production.mem_arcs.1 harc with rfl | ⟨k, s, hk, hs⟩ | rfl
    · exact Grammar.mem_vertices.2 (.inl ⟨p.lhs, hg.lhs_lt hp, .inl rfl⟩)
    · have hdot : k ≤ p.rhs.length := Nat.le_of_lt (List.getElem?_eq_some_iff.1 hk).1
      cases s <;> simp only [Production.arcsAt, List.mem_cons, List.not_mem_nil, or_false] at hs
      case terminal t =>
        subst hs
        exact hitem hdot
      case nonTerminal m =>
        rcases hs with rfl | rfl
        · exact hitem hdot
        · exact Grammar.mem_vertices.2
            (.inl ⟨m, hg.nonTerminal_lt hp (List.mem_of_getElem? hk), .inr rfl⟩)
    · exact hitem (Nat.le_refl _)
  refine ⟨hsource, target_mem hg hsource ?_⟩
  rw [edges_eq_arcs hg hsource, List.mem_map]
  exact ⟨arc, List.mem_filter.2 ⟨h, decide_eq_true rfl⟩, rfl⟩

/-- Over a non-terminal, the next item is where an edge comes back from the end of the non-terminal. -/
theorem successor?_iff_back (hg : G.grammar.WellFormed) (hcall : ⟨.call n, .start n⟩ ∈ G.edges v) :
    G.successor? v = some w ↔ ⟨.back n, w⟩ ∈ G.edges (.final n) ∧ w.predecessor? = some v := by
  obtain ⟨it, rfl, hnext⟩ := call_mem_edges_iff.1 hcall
  have hopen : it.isComplete G.grammar = false := by
    rw [Bool.eq_false_iff, ne_eq, ← Item.next?_eq_none_iff, hnext]
    exact nofun
  rw [back_mem_edges_iff hg, successor?, hopen]
  constructor
  · intro h
    obtain rfl := Option.some.inj h
    exact ⟨⟨it, rfl, hnext⟩, rfl⟩
  · rintro ⟨⟨it', rfl, -⟩, h⟩
    obtain rfl : it' = it := Vertex.item.inj (Option.some.inj h)
    rfl

/-- Every edge that comes back has its call, right before. -/
theorem exists_call_of_back (hg : G.grammar.WellFormed) (h : ⟨.back n, w⟩ ∈ G.edges (.final n)) :
    ∃ v ∈ G.grammar.vertices, ⟨.call n, .start n⟩ ∈ G.edges v ∧ G.successor? v = some w := by
  obtain ⟨it, rfl, hnext⟩ := (back_mem_edges_iff hg).1 h
  obtain ⟨p, hp, hs⟩ := Item.exists_production_of_next? hnext
  have hcall : ⟨.call n, .start n⟩ ∈ G.edges (.item it) := call_mem_edges_iff.2 ⟨it, rfl, hnext⟩
  exact ⟨.item it, item_mem_vertices hg hp (Nat.le_of_lt (List.getElem?_eq_some_iff.1 hs).1), hcall,
    (successor?_iff_back hg hcall).2 ⟨h, rfl⟩⟩

/-- An entry that waits for a non-terminal goes on along an edge that comes back. -/
theorem exists_resume_eq (hg : G.grammar.WellFormed) {c : Chart} {caller : Ref} {e : Entry}
    (he : c.entry? caller = some e) (hcall : ⟨.call n, .start n⟩ ∈ G.edges e.vertex) (ended : Ref) :
    ∃ w, ⟨.back n, w⟩ ∈ G.edges (.final n) ∧ w.predecessor? = some e.vertex ∧
      c.resume G caller ended = c.push ended.position w e.origin (some ended) := by
  obtain ⟨it, hv, hnext⟩ := call_mem_edges_iff.1 hcall
  have hback : ⟨.back n, .item it.advance⟩ ∈ G.edges (.final n) :=
    (back_mem_edges_iff hg).2 ⟨it, rfl, hnext⟩
  have hbefore : (Vertex.item it.advance).predecessor? = some e.vertex := by
    rw [hv]
    rfl
  refine ⟨.item it.advance, hback, hbefore, ?_⟩
  rw [Chart.resume, he]
  dsimp only
  rw [(successor?_iff_back hg hcall).2 ⟨hback, hbefore⟩]

/-- The graph is that of the grammar. The vertices are the starts, the ends and the items, each with a
number of its own; every edge is an arc of a production, as often as it is drawn; and the step over a
symbol, by which also a caller goes on, keeps to the edges. -/
structure Draws (G : Graph) (g : Grammar) : Prop where
  id_eq : ∀ {i p}, g.production? i = some p → p.id = i
  mem_vertices : ∀ {v}, v ∈ G.vertices ↔
    (∃ n < g.nonTerminals.size, v = .start n ∨ v = .final n) ∨
      ∃ i p, g.production? i = some p ∧ ∃ dot ≤ p.rhs.length, v = .item ⟨i, dot⟩
  nodup_vertices : G.vertices.toList.Nodup
  bijOn : Set.BijOn G.number {v | v ∈ G.vertices} (Set.Iio G.size)
  vertex?_iff : ∀ {i v}, G.vertex? i = some v ↔ v ∈ G.vertices ∧ G.number v = i
  edges_eq : ∀ {v}, v ∈ G.vertices → G.edges v = (g.arcs.filter (·.source = v)).map Arc.edge
  arc_mem : ∀ {arc}, arc ∈ g.arcs → arc.source ∈ G.vertices ∧ arc.edge.target ∈ G.vertices
  edges_start : ∀ n, G.edges (.start n) =
    (g.productions.toList.filter (·.lhs == n)).map fun p => ⟨.start, .item ⟨p.id, 0⟩⟩
  /-- The one item of an empty production is left to the end only. -/
  edges_empty : ∀ {i p}, g.production? i = some p → p.rhs = [] →
    (∀ dot, .item ⟨i, dot⟩ ∈ G.vertices ↔ dot = 0) ∧ G.edges (.item ⟨i, 0⟩) = [⟨.final, .final p.lhs⟩]
  successor : ∀ {v w}, v ∈ G.vertices → (G.successor? v = some w ↔ g.StepsOver v w)
  predecessor : ∀ {v w}, w ∈ G.vertices → (w.predecessor? = some v ↔ g.StepsOver v w)
  number : ∀ {v w}, g.StepsOver v w → G.number w = G.number v + 1
  back : ∀ {v w n}, ⟨.call n, .start n⟩ ∈ G.edges v →
    (G.successor? v = some w ↔ ⟨.back n, w⟩ ∈ G.edges (.final n) ∧ w.predecessor? = some v)
  call : ∀ {w n}, ⟨.back n, w⟩ ∈ G.edges (.final n) →
    ∃ v ∈ G.vertices, ⟨.call n, .start n⟩ ∈ G.edges v ∧ G.successor? v = some w
  resume : ∀ {c : Chart} {caller e n}, c.entry? caller = some e →
    ⟨.call n, .start n⟩ ∈ G.edges e.vertex → ∀ ended, ∃ w, ⟨.back n, w⟩ ∈ G.edges (.final n) ∧
      w.predecessor? = some e.vertex ∧
        c.resume G caller ended = c.push ended.position w e.origin (some ended)

theorem edges_of_rhs_eq_nil (hg : G.grammar.WellFormed) {i : Nat} {p : Production}
    (hp : G.grammar.production? i = some p) (hrhs : p.rhs = []) :
    (∀ dot, .item ⟨i, dot⟩ ∈ G.grammar.vertices ↔ dot = 0) ∧
      G.edges (.item ⟨i, 0⟩) = [⟨.final, .final p.lhs⟩] := by
  refine ⟨fun dot => ⟨fun h => ?_, ?_⟩, ?_⟩
  · obtain ⟨q, hq, hdot⟩ := exists_production_of_mem hg h
    obtain rfl := Option.some.inj (hp.symm.trans hq)
    rw [hrhs] at hdot
    exact Nat.le_zero.1 hdot
  · rintro rfl
    exact item_mem_vertices hg hp (Nat.zero_le _)
  · rw [edges, itemEdge?, Item.next?, Grammar.rhs_of_production? hp, hrhs, hp]
    rfl

end Graph

/-- The graph of a grammar that has been built is exactly its flow graph. -/
theorem ofGrammar_draws {d : Declaration} {g : Grammar} (hg : d.build = .ok g) :
    (Graph.ofGrammar g).Draws g := by
  have hw : (Graph.ofGrammar g).grammar.WellFormed := Declaration.wellFormed_of_build hg
  exact {
    id_eq := hw.id_eq
    mem_vertices := hw.mem_vertices_iff
    nodup_vertices := hw.nodup_vertices
    bijOn := Graph.bijOn_number hw
    vertex?_iff := Graph.vertex?_eq_some_iff hw
    edges_eq := Graph.edges_eq_arcs hw
    arc_mem := Graph.arc_mem_vertices hw
    edges_start := fun n => by
      rw [Graph.edges_start hw, Grammar.alternativesOf, List.map_map]
      rfl
    edges_empty := Graph.edges_of_rhs_eq_nil hw
    successor := Graph.successor?_eq_some_iff hw
    predecessor := Graph.predecessor?_eq_some_iff hw
    number := Graph.number_of_stepsOver (G := Graph.ofGrammar g)
    back := Graph.successor?_iff_back hw
    call := Graph.exists_call_of_back hw
    resume := Graph.exists_resume_eq hw }

theorem sums_drawn : sums.build = .ok sumsGrammar ∧
    (Graph.ofGrammar sumsGrammar).Draws sumsGrammar ∧ (Graph.ofGrammar sumsGrammar).size = 8 ∧
      (Graph.ofGrammar sumsGrammar).edges (.final 0) =
        [⟨.back 0, .item ⟨0, 1⟩⟩, ⟨.back 0, .item ⟨0, 3⟩⟩] :=
  ⟨build_sums, ofGrammar_draws build_sums, by decide +kernel, by decide +kernel⟩

end GrammarFlow
