import GrammarFlow.Proofs.Derivation.Assembly
import GrammarFlow.Proofs.Tree.Preorder

namespace GrammarFlow

/-- The spans stand side by side from one token index to another. -/
def Span.Adjoin : Nat → List Span → Nat → Prop
  | low, [], high => low = high
  | low, s :: spans, high => s.low = low ∧ s.low ≤ s.high ∧ Adjoin s.high spans high

def Grammar.nodeName (g : Grammar) : Symbol → NodeName
  | .terminal a => .terminal (g.terminalName a)
  | .nonTerminal n => .nonTerminal (g.nonTerminalName n)

theorem Grammar.terminal_of_coming {g : Grammar} {tokens : List Token} {i a : Nat}
    (h : g.coming tokens i = some a) : (tokens.getD i default).terminal = g.terminalName a := by
  obtain ⟨token, htoken, ha⟩ := Option.bind_eq_some_iff.1 h
  rw [List.getD_eq_getElem?_getD, htoken, Option.getD_some]
  exact (Grammar.terminalId?_eq_some_iff.1 ha).2.symm

namespace Tree

/-- The node is made by the production: it is named after the left-hand side, and its children stand for
the symbols of the right-hand side and cover the span of the node. -/
structure Applies (t : Tree) (g : Grammar) (p : Production) : Prop where
  eq_branch : t = branch (g.nonTerminalName p.lhs) t.span t.children
  names : t.children.map name = p.rhs.map g.nodeName
  adjoin : Span.Adjoin t.span.low (t.children.map span) t.span.high

/-- The tree of the tokens: its root is the start symbol over all of them, its leaves are the tokens, and
all its other nodes are made by productions. -/
structure Parses (t : Tree) (g : Grammar) (tokens : List Token) : Prop where
  name : t.name = .nonTerminal g.startName
  span : t.span = ⟨0, tokens.length⟩
  leaves : t.leaves = tokens.mapIdx fun i token => leaf token.terminal token.lexeme ⟨i, i + 1⟩
  applies : ∀ node ∈ t.nodes, node.isTerminal = false → ∃ p ∈ g.productions, node.Applies g p

end Tree

namespace DerivationTree

section

variable (g : Grammar) (tokens : List Token)

/-- The concrete tree of a derivation over the tokens from a position on. -/
def concrete : DerivationTree → Nat → Tree :=
  value (fun token => .leaf token.terminal token.lexeme) (fun p => .branch (g.nonTerminalName p.lhs))
    tokens

def forestConcrete : List DerivationTree → Nat → List Tree :=
  forestValues (fun token => .leaf token.terminal token.lexeme)
    (fun p => .branch (g.nonTerminalName p.lhs)) tokens

end

variable {g : Grammar} {tokens : List Token} {low high : Nat}

theorem concrete_leaf (a low : Nat) : (leaf a).concrete g tokens low =
    .leaf (tokens.getD low default).terminal (tokens.getD low default).lexeme ⟨low, low + 1⟩ := by
  rw [concrete, value]

theorem concrete_node (p : Production) (ts : List DerivationTree) (low : Nat) :
    (node p ts).concrete g tokens low = .branch (g.nonTerminalName p.lhs)
      ⟨low, low + (forestYield ts).length⟩ (forestConcrete g tokens ts low) := by
  rw [concrete, value, forestConcrete]

theorem forestConcrete_nil (low : Nat) : forestConcrete g tokens [] low = [] := by
  rw [forestConcrete, forestValues]

theorem forestConcrete_cons (t : DerivationTree) (ts : List DerivationTree) (low : Nat) :
    forestConcrete g tokens (t :: ts) low =
      t.concrete g tokens low :: forestConcrete g tokens ts (low + t.yield.length) := by
  rw [forestConcrete, forestValues, concrete]

theorem fold_factory (t : DerivationTree) (low : Nat) :
    (t.fold Tree.factory g tokens low ()).1 = t.concrete g tokens low :=
  fold_eq_value (fun _ _ _ => rfl) (fun _ _ _ _ => rfl) t low ()

theorem span_concrete (t : DerivationTree) (low : Nat) :
    (t.concrete g tokens low).span = ⟨low, low + t.yield.length⟩ := by
  cases t with
  | leaf a =>
    rw [concrete_leaf]
    rfl
  | node p ts =>
    rw [concrete_node]
    rfl

theorem name_concrete {t : DerivationTree} {s : Symbol} (ht : t.IsFrom g s)
    (hr : Reads (g.coming tokens) low t.yield high) :
    (t.concrete g tokens low).name = g.nodeName s := by
  cases t with
  | leaf a =>
    obtain rfl : s = .terminal a := ht
    have hterminal := Grammar.terminal_of_coming (Reads.singleton_iff.1 hr).1
    rw [concrete_leaf, hterminal]
    rfl
  | node p ts =>
    obtain ⟨-, rfl, -⟩ := ht
    rw [concrete_node]
    rfl

theorem names_forestConcrete {ts : List DerivationTree} {ss : List Symbol}
    (hts : ForestIsFrom g ts ss) (hr : Reads (g.coming tokens) low (forestYield ts) high) :
    (forestConcrete g tokens ts low).map Tree.name = ss.map g.nodeName := by
  induction ss generalizing ts low with
  | nil =>
    rw [forestIsFrom_nil.1 hts, forestConcrete_nil]
    rfl
  | cons s ss ih =>
    obtain ⟨t, us, rfl, ht, hus⟩ := forestIsFrom_cons.1 hts
    rw [forestYield_cons, Reads.append_iff] at hr
    obtain ⟨mid, hfirst, hrest⟩ := hr
    rw [hfirst.length_eq] at hrest
    rw [forestConcrete_cons, List.map_cons, List.map_cons, name_concrete ht hfirst, ih hus hrest]

theorem adjoin_forestConcrete (ts : List DerivationTree) (low : Nat) :
    Span.Adjoin low ((forestConcrete g tokens ts low).map Tree.span)
      (low + (forestYield ts).length) := by
  induction ts generalizing low with
  | nil =>
    rw [forestConcrete_nil]
    rfl
  | cons t ts ih =>
    rw [forestConcrete_cons, List.map_cons, span_concrete, forestYield_cons, List.length_append,
      ← Nat.add_assoc]
    exact ⟨rfl, Nat.le_add_right _ _, ih _⟩

theorem applies_concrete {p : Production} {ts : List DerivationTree} (hts : ForestIsFrom g ts p.rhs)
    (hr : Reads (g.coming tokens) low (forestYield ts) high) :
    ((node p ts).concrete g tokens low).Applies g p := by
  rw [concrete_node]
  exact ⟨rfl, names_forestConcrete hts hr, adjoin_forestConcrete ts low⟩

mutual

theorem applies_of_mem_nodes : ∀ {t : DerivationTree} {s : Symbol} {low high : Nat},
    t.IsFrom g s → Reads (g.coming tokens) low t.yield high →
      ∀ x ∈ (t.concrete g tokens low).nodes, x.isTerminal = false →
        ∃ p ∈ g.productions, x.Applies g p
  | .leaf a, _, low, _, _, _, x, hx, hterminal => by
    rw [concrete_leaf, Tree.nodes_leaf, List.mem_singleton] at hx
    rw [hx] at hterminal
    cases hterminal
  | .node p ts, _, low, _, ⟨hp, _, hts⟩, hr, x, hx, hterminal => by
    rw [Tree.nodes_eq, List.mem_cons] at hx
    rcases hx with rfl | hx
    · exact ⟨p, hp, applies_concrete hts hr⟩
    · rw [concrete_node] at hx
      exact applies_of_mem_forest_nodes hts hr x hx hterminal

theorem applies_of_mem_forest_nodes : ∀ {ts : List DerivationTree} {ss : List Symbol}
    {low high : Nat}, ForestIsFrom g ts ss → Reads (g.coming tokens) low (forestYield ts) high →
      ∀ x ∈ (forestConcrete g tokens ts low).flatMap Tree.nodes, x.isTerminal = false →
        ∃ p ∈ g.productions, x.Applies g p
  | [], _, low, _, _, _, x, hx, _ => by
    rw [forestConcrete_nil] at hx
    cases hx
  | t :: ts, s :: ss, low, _, ⟨ht, hts⟩, hr, x, hx, hterminal => by
    rw [forestYield_cons, Reads.append_iff] at hr
    obtain ⟨mid, hfirst, hrest⟩ := hr
    rw [hfirst.length_eq] at hrest
    rw [forestConcrete_cons, List.flatMap_cons, List.mem_append] at hx
    rcases hx with hx | hx
    · exact applies_of_mem_nodes ht hfirst x hx hterminal
    · exact applies_of_mem_forest_nodes hts hrest x hx hterminal

end

mutual

theorem leaves_concrete : ∀ (t : DerivationTree) (low : Nat), (t.concrete g tokens low).leaves =
    (List.range' low t.yield.length).map fun i => .leaf (tokens.getD i default).terminal
      (tokens.getD i default).lexeme ⟨i, i + 1⟩
  | .leaf a, low => by
    rw [concrete_leaf, Tree.leaves_leaf]
    rfl
  | .node p ts, low => by
    rw [concrete_node, Tree.leaves_branch, leaves_forestConcrete, yield_node]

theorem leaves_forestConcrete : ∀ (ts : List DerivationTree) (low : Nat),
    (forestConcrete g tokens ts low).flatMap Tree.leaves =
      (List.range' low (forestYield ts).length).map fun i =>
        .leaf (tokens.getD i default).terminal (tokens.getD i default).lexeme ⟨i, i + 1⟩
  | [], low => by
    rw [forestConcrete_nil]
    rfl
  | t :: ts, low => by
    rw [forestConcrete_cons, List.flatMap_cons, leaves_concrete t, leaves_forestConcrete ts,
      forestYield_cons, List.length_append, ← List.range'_append_1, List.map_append]

end

theorem parses_concrete {t : DerivationTree} (ht : t ∈ g.derivations tokens) :
    (t.concrete g tokens 0).Parses g tokens := by
  have hlength : tokens.length = t.yield.length := ht.2.length_eq
  have hr : Reads (g.coming tokens) 0 t.yield tokens.length :=
    (Grammar.reads_coming_iff (Nat.zero_le _)).2 ht.2
  refine ⟨name_concrete ht.1 hr, ?_, ?_, applies_of_mem_nodes ht.1 hr⟩
  · rw [span_concrete, Nat.zero_add, hlength]
  · rw [leaves_concrete, ← hlength, List.mapIdx_eq_zipIdx_map, zipIdx_eq_map_range', List.map_map]
    rfl

end DerivationTree

/-- The concrete tree of accepted tokens gives them back, and is made by the productions of the grammar
from the start symbol down. -/
theorem parseTree_roundTrip {d : Declaration} {g : Grammar} (hg : d.build = .ok g)
    {tokens : List Token} {p : Parsing} (hp : (Graph.ofGrammar g).parse tokens = .ok p) :
    ∃ tree, (Graph.ofGrammar g).parseTree tokens = .ok tree ∧ tree.Parses g tokens := by
  obtain ⟨rfl, h⟩ := Graph.accepts_of_parse hg hp
  obtain ⟨t, ht, hwalk, -⟩ := h.exists_walk
  refine ⟨t.concrete p.grammar tokens 0, ?_, DerivationTree.parses_concrete ht⟩
  have htree : p.tree = .ok (t.concrete p.grammar tokens 0) := by
    rw [Parsing.tree, h.assemble_eq ht hwalk, ← DerivationTree.fold_factory]
    rfl
  rw [Graph.parseTree, hp]
  dsimp only
  rw [htree]
  rfl

theorem threeNumbers_roundTrip : sums.build = .ok sumsGrammar ∧
    (∃ p, (Graph.ofGrammar sumsGrammar).parse threeNumbers = .ok p) ∧
      ∃ tree, (Graph.ofGrammar sumsGrammar).parseTree threeNumbers = .ok tree ∧
        tree.name = .nonTerminal "E" ∧ tree.span = ⟨0, 5⟩ ∧ tree.leaves.length = 5 ∧
          tree.Parses sumsGrammar threeNumbers := by
  obtain ⟨p, hp⟩ := Graph.recognizes_iff.1 recognizes_threeNumbers
  obtain ⟨tree, htree, h⟩ := parseTree_roundTrip build_sums hp
  refine ⟨build_sums, ⟨p, hp⟩, tree, htree, h.name, h.span, ?_, h⟩
  rw [h.leaves, List.length_mapIdx]
  rfl

end GrammarFlow
