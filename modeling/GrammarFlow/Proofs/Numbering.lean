import GrammarFlow.Proofs.Chart.Saturation
import GrammarFlow.Proofs.Grammar.Building
import Mathlib.Data.Set.Function
import Mathlib.Order.Interval.Set.Defs

namespace GrammarFlow

theorem getElem?_pairs {α : Type} (a b : Nat → α) {m n : Nat} (h : n < m) :
    ((List.range m).flatMap fun n => [a n, b n])[2 * n]? = some (a n) ∧
      ((List.range m).flatMap fun n => [a n, b n])[2 * n + 1]? = some (b n) := by
  have hlength : ∀ m, ((List.range m).flatMap fun n => [a n, b n]).length = 2 * m := by
    intro m
    simp [List.length_flatMap, Nat.mul_comm]
  induction m with
  | zero => exact absurd h (Nat.not_lt_zero n)
  | succ m ih =>
    rw [List.range_succ, List.flatMap_append]
    rcases Nat.lt_succ_iff_lt_or_eq.1 h with hlt | rfl
    · rw [List.getElem?_append_left (by rw [hlength]; omega),
        List.getElem?_append_left (by rw [hlength]; omega)]
      exact ih hlt
    · rw [List.getElem?_append_right (by rw [hlength]), List.getElem?_append_right (by rw [hlength]; omega),
        hlength]
      simp

/-- Starts and ends come before items, then the order is that of the subjects and of the places. -/
def Vertex.Before (v w : Vertex) : Prop :=
  Key.tier v < Key.tier w ∨ Key.tier v = Key.tier w ∧
    (Key.subject v < Key.subject w ∨ Key.subject v = Key.subject w ∧ Key.place v < Key.place w)

theorem Vertex.not_before_self (v : Vertex) : ¬ v.Before v := by
  simp [Before]

theorem Vertex.Before.asymm {v w : Vertex} (h : v.Before w) : ¬ w.Before v := by
  unfold Before at *
  omega

theorem Key.cmp_eq_lt_iff {k k' : Key} : Key.cmp k k' = .lt ↔
    k.vertex.Before k'.vertex ∨ k.vertex = k'.vertex ∧ k.origin < k'.origin := by
  simp only [Key.cmp, compareLex, compareOn, Ordering.then_eq_lt, Nat.compare_eq_lt, Nat.compare_eq_eq,
    Vertex.Before]
  constructor
  · rintro (ht | ⟨ht, hs | ⟨hs, hp | ⟨hp, ho⟩⟩⟩)
    · exact .inl (.inl ht)
    · exact .inl (.inr ⟨ht, .inl hs⟩)
    · exact .inl (.inr ⟨ht, .inr ⟨hs, hp⟩⟩)
    · exact .inr ⟨vertex_ext ht hs hp, ho⟩
  · rintro ((ht | ⟨ht, hs | ⟨hs, hp⟩⟩) | ⟨hv, ho⟩)
    · exact .inl ht
    · exact .inr ⟨ht, .inl hs⟩
    · exact .inr ⟨ht, .inr ⟨hs, .inl hp⟩⟩
    · rw [hv]
      exact .inr ⟨rfl, .inr ⟨rfl, .inr ⟨rfl, ho⟩⟩⟩

namespace Grammar

variable {g : Grammar} {v w : Vertex}

theorem length_itemsOf (p : Production) : (itemsOf p).length = p.rhs.length + 1 := by
  simp [itemsOf]

/-- The items of a production stand in order behind those of the productions before it. -/
theorem getElem?_items {productions : List Production} {i : Nat} {p : Production}
    (hp : productions[i]? = some p) (base : Nat) {dot : Nat} (hdot : dot ≤ p.rhs.length) :
    ∃ first, (itemBasesFrom base productions)[i]? = some (base + first) ∧
      (productions.flatMap itemsOf)[first + dot]? = some (.item ⟨p.id, dot⟩) := by
  induction productions generalizing i base with
  | nil => simp at hp
  | cons q rest ih =>
    cases i with
    | zero =>
      obtain rfl : q = p := Option.some.inj hp
      refine ⟨0, rfl, ?_⟩
      rw [List.flatMap_cons, List.getElem?_append_left (by rw [length_itemsOf]; omega)]
      simp [itemsOf, Nat.lt_succ_of_le hdot]
    | succ i =>
      obtain ⟨first, hbase, hitem⟩ := ih hp (base + q.rhs.length + 1)
      refine ⟨q.rhs.length + 1 + first, ?_, ?_⟩
      · rw [itemBasesFrom, List.getElem?_cons_succ, hbase]
        congr 1
        omega
      · rw [List.flatMap_cons, List.getElem?_append_right (by rw [length_itemsOf]; omega),
          length_itemsOf, ← hitem]
        congr 1
        omega

theorem WellFormed.pairwise_vertices (hg : g.WellFormed) : g.vertices.toList.Pairwise Vertex.Before := by
  have hends : ((List.range g.nonTerminals.size).flatMap
      fun n => [Vertex.start n, Vertex.final n]).Pairwise Vertex.Before := by
    rw [List.pairwise_flatMap]
    refine ⟨fun n _ => by simp [Vertex.Before, Key.tier, Key.subject, Key.place], ?_⟩
    refine List.pairwise_lt_range.imp fun hmn v hv w hw => .inr ?_
    simp only [List.mem_cons, List.not_mem_nil, or_false] at hv hw
    rcases hv with rfl | rfl <;> rcases hw with rfl | rfl <;> exact ⟨rfl, .inl hmn⟩
  have hitems : (g.productions.toList.flatMap itemsOf).Pairwise Vertex.Before := by
    rw [List.pairwise_flatMap]
    refine ⟨fun p _ => ?_, ?_⟩
    · rw [itemsOf, List.pairwise_map]
      exact List.pairwise_lt_range.imp fun hjk => .inr ⟨rfl, .inr ⟨rfl, hjk⟩⟩
    · have hids : (g.productions.toList.map (·.id)).Pairwise (· < ·) := by
        rw [hg.map_id_productions]
        exact List.pairwise_lt_range
      refine (List.pairwise_map.1 hids).imp fun hpq v hv w hw => .inr ?_
      obtain ⟨j, -, rfl⟩ := List.mem_map.1 hv
      obtain ⟨k, -, rfl⟩ := List.mem_map.1 hw
      exact ⟨rfl, .inl hpq⟩
  rw [vertices, List.pairwise_append]
  refine ⟨hends, hitems, fun v hv w hw => .inl ?_⟩
  obtain ⟨n, -, hv⟩ := List.mem_flatMap.1 hv
  obtain ⟨p, -, hw⟩ := List.mem_flatMap.1 hw
  obtain ⟨dot, -, rfl⟩ := List.mem_map.1 hw
  simp only [List.mem_cons, List.not_mem_nil, or_false] at hv
  rcases hv with rfl | rfl <;> exact Nat.zero_lt_one

theorem WellFormed.nodup_vertices (hg : g.WellFormed) : g.vertices.toList.Nodup := by
  refine hg.pairwise_vertices.imp ?_
  rintro v _ h rfl
  exact v.not_before_self h

theorem WellFormed.mem_vertices_iff (hg : g.WellFormed) {v : Vertex} : v ∈ g.vertices ↔
    (∃ n < g.nonTerminals.size, v = .start n ∨ v = .final n) ∨
      ∃ i p, g.production? i = some p ∧ ∃ dot ≤ p.rhs.length, v = .item ⟨i, dot⟩ := by
  rw [mem_vertices]
  apply or_congr_right
  constructor
  · rintro ⟨p, hp, hv⟩
    exact ⟨p.id, p, hg.production?_id hp, hv⟩
  · rintro ⟨i, p, hp, hv⟩
    rw [← hg.id_eq hp] at hv
    exact ⟨p, mem_of_production? hp, hv⟩

end Grammar

namespace Graph

variable {G : Graph} {v w : Vertex}

theorem vertex?_number (hg : G.grammar.WellFormed) (hv : v ∈ G.grammar.vertices) :
    G.vertex? (G.number v) = some v := by
  have hlength : ((List.range G.grammar.nonTerminals.size).flatMap
      fun n => [Vertex.start n, Vertex.final n]).length = 2 * G.grammar.nonTerminals.size := by
    simp [List.length_flatMap, Nat.mul_comm]
  rw [vertex?, G.vertices_eq, Grammar.vertices, List.getElem?_toArray]
  rcases Grammar.mem_vertices.1 hv with ⟨n, hn, rfl | rfl⟩ | ⟨p, hp, dot, hdot, rfl⟩
  · rw [number, List.getElem?_append_left (by rw [hlength]; omega)]
    exact (getElem?_pairs Vertex.start Vertex.final hn).1
  · rw [number, List.getElem?_append_left (by rw [hlength]; omega)]
    exact (getElem?_pairs Vertex.start Vertex.final hn).2
  · have hfound : G.grammar.productions.toList[p.id]? = some p := by
      rw [Array.getElem?_toList]
      exact hg.production?_id hp
    obtain ⟨first, hbase, hitem⟩ :=
      Grammar.getElem?_items hfound (2 * G.grammar.nonTerminals.size) hdot
    have hnumber : G.number (.item ⟨p.id, dot⟩) =
        2 * G.grammar.nonTerminals.size + first + dot := by
      rw [number, G.itemBases_eq, Grammar.itemBases, List.getElem?_toArray, hbase, Option.getD_some]
    rw [hnumber, List.getElem?_append_right (by rw [hlength]; omega), hlength, ← hitem]
    congr 1
    omega

theorem number_lt (hg : G.grammar.WellFormed) (hv : v ∈ G.grammar.vertices) :
    G.number v < G.size := by
  have hfound : G.vertices[G.number v]? = some v := vertex?_number hg hv
  exact (Array.getElem?_eq_some_iff.1 hfound).1

theorem vertex?_eq_some_iff (hg : G.grammar.WellFormed) {i : Nat} :
    G.vertex? i = some v ↔ v ∈ G.grammar.vertices ∧ G.number v = i := by
  constructor
  · intro h
    have hfound : G.vertices[i]? = some v := h
    have hv : v ∈ G.grammar.vertices := by
      rw [← G.vertices_eq]
      exact Array.mem_of_getElem? hfound
    have hnodup : G.vertices.toList.Nodup := by
      rw [G.vertices_eq]
      exact hg.nodup_vertices
    refine ⟨hv, (List.getElem?_inj (number_lt hg hv) hnodup).1 ?_⟩
    rw [Array.getElem?_toList, Array.getElem?_toList, hfound]
    exact vertex?_number hg hv
  · rintro ⟨hv, rfl⟩
    exact vertex?_number hg hv

/-- The numbers are those below the size, one for each vertex. -/
theorem bijOn_number (hg : G.grammar.WellFormed) :
    Set.BijOn G.number {v | v ∈ G.grammar.vertices} (Set.Iio G.size) := by
  refine ⟨fun v hv => number_lt hg hv, fun v hv w hw h => ?_, fun i hi => ?_⟩
  · apply Option.some.inj
    rw [← vertex?_number hg hv, h]
    exact vertex?_number hg hw
  · exact ⟨_, (vertex?_eq_some_iff hg).1 (Array.getElem?_eq_getElem hi)⟩

theorem number_lt_number_iff (hg : G.grammar.WellFormed) (hv : v ∈ G.grammar.vertices)
    (hw : w ∈ G.grammar.vertices) : G.number v < G.number w ↔ v.Before w := by
  have hbefore : ∀ {v w}, v ∈ G.grammar.vertices → w ∈ G.grammar.vertices →
      G.number v < G.number w → v.Before w := by
    intro v w hv hw hlt
    have hpairs := List.pairwise_iff_getElem.1 hg.pairwise_vertices
    have hplace : ∀ {v}, v ∈ G.grammar.vertices →
        ∃ h : G.number v < G.grammar.vertices.toList.length, G.grammar.vertices.toList[G.number v] = v := by
      intro v hv
      have hfound := vertex?_number hg hv
      rw [vertex?, G.vertices_eq, ← Array.getElem?_toList] at hfound
      exact List.getElem?_eq_some_iff.1 hfound
    obtain ⟨hvlt, hvplace⟩ := hplace hv
    obtain ⟨hwlt, hwplace⟩ := hplace hw
    have hbefore := hpairs _ _ hvlt hwlt hlt
    rwa [hvplace, hwplace] at hbefore
  refine ⟨hbefore hv hw, fun h => ?_⟩
  by_contra hle
  rcases Nat.lt_or_eq_of_le (Nat.le_of_not_lt hle) with hlt | heq
  · exact h.asymm (hbefore hw hv hlt)
  · obtain rfl := (bijOn_number hg).injOn hw hv heq
    exact Vertex.not_before_self _ h

theorem item_mem_vertices {p : Production} {production dot : Nat} (hg : G.grammar.WellFormed)
    (hp : G.grammar.production? production = some p) (hdot : dot ≤ p.rhs.length) :
    Vertex.item ⟨production, dot⟩ ∈ G.grammar.vertices := by
  refine Grammar.mem_vertices.2 (.inr ⟨p, Grammar.mem_of_production? hp, dot, hdot, ?_⟩)
  rw [hg.id_eq hp]

theorem exists_production_of_mem (hg : G.grammar.WellFormed) {it : Item}
    (h : Vertex.item it ∈ G.grammar.vertices) :
    ∃ p, G.grammar.production? it.production = some p ∧ it.dot ≤ p.rhs.length := by
  rcases Grammar.mem_vertices.1 h with ⟨n, -, hv | hv⟩ | ⟨p, hp, dot, hdot, hv⟩
  · cases hv
  · cases hv
  · obtain rfl := Vertex.item.inj hv
    exact ⟨p, hg.production?_id hp, hdot⟩

/-- Edges lead to vertices of the graph. -/
theorem target_mem (hg : G.grammar.WellFormed) (hv : v ∈ G.grammar.vertices) {edge : Edge}
    (h : edge ∈ G.edges v) : edge.target ∈ G.grammar.vertices := by
  cases v with
  | start n =>
    rw [edges_start hg, List.mem_map] at h
    obtain ⟨i, hi, rfl⟩ := h
    obtain ⟨p, hp, -, rfl⟩ := Grammar.mem_alternativesOf.1 hi
    exact item_mem_vertices hg (hg.production?_id hp) (Nat.zero_le _)
  | final n =>
    simp only [edges, Grammar.returnsIn, List.mem_map, List.mem_flatMap, List.mem_filter,
      List.mem_range, Array.mem_toList_iff] at h
    obtain ⟨_, ⟨p, hp, k, ⟨hk, -⟩, rfl⟩, rfl⟩ := h
    exact item_mem_vertices hg (hg.production?_id hp) hk
  | item it =>
    obtain ⟨p, hp, hdot⟩ := exists_production_of_mem hg hv
    rw [edges, Option.mem_toList, itemEdge?] at h
    cases hn : it.next? G.grammar with
    | none =>
      rw [hn, hp] at h
      obtain rfl := Option.some.inj h
      exact Grammar.mem_vertices.2
        (.inl ⟨p.lhs, hg.lhs_lt (Grammar.mem_of_production? hp), .inr rfl⟩)
    | some s =>
      obtain ⟨q, hq, hs⟩ := Item.exists_production_of_next? hn
      rw [hn] at h
      cases s with
      | terminal t =>
        obtain rfl := Option.some.inj h
        exact item_mem_vertices hg hq (List.getElem?_eq_some_iff.1 hs).1
      | nonTerminal n =>
        obtain rfl := Option.some.inj h
        have hlt := hg.nonTerminal_lt (Grammar.mem_of_production? hq) (List.mem_of_getElem? hs)
        exact Grammar.mem_vertices.2 (.inl ⟨n, hlt, .inl rfl⟩)

theorem number_of_successor? (hg : G.grammar.WellFormed) (hv : v ∈ G.grammar.vertices)
    (h : G.successor? v = some w) : ∃ it, v = .item it ∧ w = .item it.advance ∧
      w ∈ G.grammar.vertices ∧ G.number w = G.number v + 1 := by
  cases v with
  | start n => cases h
  | final n => cases h
  | item it =>
    obtain ⟨p, hp, -⟩ := exists_production_of_mem hg hv
    simp only [successor?, Item.isComplete, Item.length, Grammar.rhs_of_production? hp] at h
    split at h
    · cases h
    · next hdot =>
      obtain rfl := Option.some.inj h
      rw [decide_eq_true_eq, Nat.not_le] at hdot
      exact ⟨it, rfl, rfl, item_mem_vertices hg hp hdot, rfl⟩

theorem number_of_predecessor? (hg : G.grammar.WellFormed) (hv : v ∈ G.grammar.vertices)
    (h : v.predecessor? = some w) : ∃ it, w = .item it ∧ v = .item it.advance ∧
      w ∈ G.grammar.vertices ∧ G.number v = G.number w + 1 := by
  cases v with
  | start n => cases h
  | final n => cases h
  | item it =>
    obtain ⟨production, dot⟩ := it
    obtain ⟨p, hp, hdot⟩ := exists_production_of_mem hg hv
    cases dot with
    | zero => cases h
    | succ dot =>
      obtain rfl := Option.some.inj h
      exact ⟨_, rfl, rfl, item_mem_vertices hg hp (Nat.le_of_succ_le hdot), rfl⟩

end Graph

end GrammarFlow
