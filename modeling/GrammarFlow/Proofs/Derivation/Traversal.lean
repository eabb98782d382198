import GrammarFlow.Derivation.Walk
import GrammarFlow.Proofs.Grammar.DerivationTree
import GrammarFlow.Proofs.Grammar.WellFormed

namespace GrammarFlow

def Event.leaf? : Event → Option (Nat × Nat)
  | .leaf terminal token _ => some (terminal, token)
  | _ => none

namespace DerivationTree

mutual

/-- The events of a tree over the tokens from `low` on. The slot is its place in its parent; only a node
can be a root. -/
def events : DerivationTree → Nat → Option Nat → List Event
  | .leaf a, low, slot => [.leaf a low (slot.getD 0)]
  | .node p ts, low, slot =>
    let span : Span := ⟨low, low + (forestYield ts).length⟩
    .enter p.lhs p.id span slot :: (forestEvents ts low 0 ++ [.reduce p.id span])

/-- The events of the children of a node from slot `k` on, the last child first. -/
def forestEvents : List DerivationTree → Nat → Nat → List Event
  | [], _, _ => []
  | t :: ts, low, k =>
    forestEvents ts (low + t.yield.length) (k + 1) ++ t.events low (some k)

end

variable {g : Grammar}

@[simp] theorem events_leaf (a low : Nat) (slot : Option Nat) :
    (leaf a).events low slot = [.leaf a low (slot.getD 0)] := by rw [events]

theorem events_node (p : Production) (ts : List DerivationTree) (low : Nat) (slot : Option Nat) :
    (node p ts).events low slot =
      .enter p.lhs p.id ⟨low, low + (forestYield ts).length⟩ slot ::
        (forestEvents ts low 0 ++ [.reduce p.id ⟨low, low + (forestYield ts).length⟩]) := by
  rw [events]

@[simp] theorem forestEvents_nil (low k : Nat) : forestEvents [] low k = [] := by rw [forestEvents]

theorem forestEvents_cons (t : DerivationTree) (ts : List DerivationTree) (low k : Nat) :
    forestEvents (t :: ts) low k =
      forestEvents ts (low + t.yield.length) (k + 1) ++ t.events low (some k) := by
  rw [forestEvents]

theorem forestEvents_concat (ts : List DerivationTree) (t : DerivationTree) (low k : Nat) :
    forestEvents (ts ++ [t]) low k =
      t.events (low + (forestYield ts).length) (some (k + ts.length)) ++ forestEvents ts low k := by
  induction ts generalizing low k with
  | nil => simp [forestEvents_cons]
  | cons u ts ih =>
    rw [List.cons_append, forestEvents_cons, ih, forestEvents_cons, List.append_assoc]
    rw [forestYield_cons, List.length_append, List.length_cons, Nat.add_assoc low,
      Nat.add_right_comm k, Nat.add_assoc k]

mutual

/-- The leaves are the symbols of the yield with the tokens from `low` on, the last one first. -/
theorem leaves_events : ∀ (t : DerivationTree) (low : Nat) (slot : Option Nat),
    (t.events low slot).filterMap Event.leaf? = (t.yield.zipIdx low).reverse
  | .leaf a, low, slot => by
    rw [events_leaf]
    rfl
  | .node p ts, low, slot => by
    rw [events_node, List.filterMap_cons_none rfl, List.filterMap_append,
      leaves_forestEvents ts low 0]
    exact List.append_nil _

theorem leaves_forestEvents : ∀ (ts : List DerivationTree) (low k : Nat),
    (forestEvents ts low k).filterMap Event.leaf? = ((forestYield ts).zipIdx low).reverse
  | [], low, k => by
    rw [forestEvents_nil]
    rfl
  | t :: ts, low, k => by
    rw [forestEvents_cons, List.filterMap_append, leaves_forestEvents ts, leaves_events t,
      forestYield_cons, List.zipIdx_append, List.reverse_append]

end

mutual

theorem production_of_enter (hg : g.WellFormed) : ∀ {t : DerivationTree} {s : Symbol} {low : Nat}
    {outer : Option Nat} {n q : Nat} {span : Span} {slot : Option Nat}, t.IsFrom g s →
      .enter n q span slot ∈ t.events low outer → ∃ p, g.production? q = some p ∧ p.lhs = n
  | .leaf a, _, low, outer, n, q, span, slot, _, h => by
    rw [events_leaf] at h
    cases List.mem_singleton.1 h
  | .node p ts, _, low, outer, n, q, span, slot, ht, h => by
    obtain ⟨hp, -, hts⟩ := ht
    rw [events_node] at h
    rcases List.mem_cons.1 h with heq | h
    · cases heq
      exact ⟨p, hg.production?_id hp, rfl⟩
    · rcases List.mem_append.1 h with h | h
      · exact production_of_forest_enter hg hts h
      · cases List.mem_singleton.1 h

theorem production_of_forest_enter (hg : g.WellFormed) : ∀ {ts : List DerivationTree}
    {ss : List Symbol} {low k n q : Nat} {span : Span} {slot : Option Nat}, ForestIsFrom g ts ss →
      .enter n q span slot ∈ forestEvents ts low k → ∃ p, g.production? q = some p ∧ p.lhs = n
  | [], _, low, k, n, q, span, slot, _, h => by
    rw [forestEvents_nil] at h
    cases h
  | t :: ts, s :: ss, low, k, n, q, span, slot, hts, h => by
    rw [forestEvents_cons] at h
    rcases List.mem_append.1 h with h | h
    · exact production_of_forest_enter hg hts.2 h
    · exact production_of_enter hg hts.1 h

end

/-- The leaves of a derivation stand at the tokens, from the last to the first. -/
theorem tokens_of_leaves {tokens : List Token} {t : DerivationTree} (ht : t ∈ g.derivations tokens) :
    ((t.events 0 none).filterMap Event.leaf?).map Prod.snd = (List.range tokens.length).reverse := by
  have hlength := ht.2.length_eq
  rw [leaves_events, List.map_reverse, List.zipIdx_map_snd, ← List.range_eq_range', hlength]

theorem terminal_of_leaf {tokens : List Token} {t : DerivationTree} {a i k : Nat}
    (ht : t ∈ g.derivations tokens) (h : .leaf a i k ∈ t.events 0 none) :
    ∃ token, tokens[i]? = some token ∧ g.terminalId? token.terminal = some a := by
  have hmem : (a, i) ∈ (t.events 0 none).filterMap Event.leaf? :=
    List.mem_filterMap.2 ⟨_, h, rfl⟩
  rw [leaves_events, List.mem_reverse, List.mem_zipIdx_iff_getElem?] at hmem
  have hspells := congrArg (·[i]?) ht.2
  simp only [List.getElem?_map, hmem, Option.map_some] at hspells
  exact Option.map_eq_some_iff.1 hspells

end DerivationTree

end GrammarFlow
