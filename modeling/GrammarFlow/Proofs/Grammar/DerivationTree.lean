import GrammarFlow.Proofs.Grammar.Sentence
import GrammarFlow.Proofs.Grammar.WellFormed
import Mathlib.Data.Set.Basic

namespace GrammarFlow

inductive DerivationTree where
  | leaf (terminal : Nat)
  | node (production : Production) (children : List DerivationTree)

namespace DerivationTree

mutual

/-- The terminals at the leaves, from left to right. -/
def yield : DerivationTree → List Nat
  | .leaf t => [t]
  | .node _ ts => forestYield ts

def forestYield : List DerivationTree → List Nat
  | [] => []
  | t :: ts => t.yield ++ forestYield ts

end

mutual

/-- The tree is a derivation from the symbol: each node has one child for each symbol of its
production, and that child is a derivation from it. -/
def IsFrom (g : Grammar) : DerivationTree → Symbol → Prop
  | .leaf t, s => s = .terminal t
  | .node p ts, s => p ∈ g.productions ∧ s = .nonTerminal p.lhs ∧ ForestIsFrom g ts p.rhs

def ForestIsFrom (g : Grammar) : List DerivationTree → List Symbol → Prop
  | [], [] => True
  | t :: ts, s :: ss => t.IsFrom g s ∧ ForestIsFrom g ts ss
  | [], _ :: _ => False
  | _ :: _, [] => False

end

@[simp] theorem yield_leaf (t : Nat) : (leaf t).yield = [t] := rfl

@[simp] theorem yield_node (p : Production) (ts : List DerivationTree) :
    (node p ts).yield = forestYield ts := rfl

@[simp] theorem forestYield_nil : forestYield [] = [] := rfl

@[simp] theorem forestYield_cons (t : DerivationTree) (ts : List DerivationTree) :
    forestYield (t :: ts) = t.yield ++ forestYield ts := rfl

@[simp] theorem forestYield_append (ts us : List DerivationTree) :
    forestYield (ts ++ us) = forestYield ts ++ forestYield us := by
  induction ts with
  | nil => rfl
  | cons t ts ih => simp only [List.cons_append, forestYield_cons, ih, List.append_assoc]

variable {g : Grammar}

@[simp] theorem forestIsFrom_nil {ts : List DerivationTree} : ForestIsFrom g ts [] ↔ ts = [] := by
  cases ts <;> simp [ForestIsFrom]

@[simp] theorem forestIsFrom_cons {ts : List DerivationTree} {s : Symbol} {ss : List Symbol} :
    ForestIsFrom g ts (s :: ss) ↔ ∃ t us, ts = t :: us ∧ t.IsFrom g s ∧ ForestIsFrom g us ss := by
  cases ts with
  | nil => simp [ForestIsFrom]
  | cons t us =>
    constructor
    · exact fun h => ⟨t, us, rfl, h.1, h.2⟩
    · rintro ⟨_, _, ⟨⟩, ht, hu⟩
      exact ⟨ht, hu⟩

theorem forestIsFrom_append {ts : List DerivationTree} {ss rs : List Symbol} :
    ForestIsFrom g ts (ss ++ rs) ↔
      ∃ us vs, ts = us ++ vs ∧ ForestIsFrom g us ss ∧ ForestIsFrom g vs rs := by
  induction ss generalizing ts with
  | nil =>
    constructor
    · exact fun h => ⟨[], ts, rfl, forestIsFrom_nil.2 rfl, h⟩
    · rintro ⟨us, vs, rfl, hu, hv⟩
      obtain rfl := forestIsFrom_nil.1 hu
      exact hv
  | cons s ss ih =>
    simp only [List.cons_append, forestIsFrom_cons, ih]
    constructor
    · rintro ⟨t, _, rfl, ht, us, vs, rfl, hu, hv⟩
      exact ⟨t :: us, vs, rfl, ⟨t, us, rfl, ht, hu⟩, hv⟩
    · rintro ⟨_, vs, rfl, ⟨t, us, rfl, ht, hu⟩, hv⟩
      exact ⟨t, us ++ vs, rfl, ht, us, vs, rfl, hu, hv⟩

theorem forestIsFrom_concat {ts : List DerivationTree} {ss : List Symbol} {s : Symbol} :
    ForestIsFrom g ts (ss ++ [s]) ↔
      ∃ us t, ts = us ++ [t] ∧ ForestIsFrom g us ss ∧ t.IsFrom g s := by
  rw [forestIsFrom_append]
  constructor
  · rintro ⟨us, vs, rfl, hu, hv⟩
    obtain ⟨t, _, rfl, ht, hnil⟩ := forestIsFrom_cons.1 hv
    obtain rfl := forestIsFrom_nil.1 hnil
    exact ⟨us, t, rfl, hu, ht⟩
  · rintro ⟨us, t, rfl, hu, ht⟩
    exact ⟨us, [t], rfl, hu, forestIsFrom_cons.2 ⟨t, [], rfl, ht, forestIsFrom_nil.2 rfl⟩⟩

theorem length_of_forestIsFrom {ts : List DerivationTree} {ss : List Symbol}
    (h : ForestIsFrom g ts ss) : ts.length = ss.length := by
  induction ss generalizing ts with
  | nil => rw [forestIsFrom_nil.1 h, List.length_nil, List.length_nil]
  | cons s ss ih =>
    obtain ⟨t, us, rfl, -, hu⟩ := forestIsFrom_cons.1 h
    rw [List.length_cons, List.length_cons, ih hu]

theorem isFrom_terminal {t : DerivationTree} {a : Nat} :
    t.IsFrom g (.terminal a) ↔ t = leaf a := by
  cases t <;> simp [IsFrom, eq_comm]

theorem isFrom_nonTerminal {t : DerivationTree} {n : Nat} :
    t.IsFrom g (.nonTerminal n) ↔
      ∃ p ts, t = node p ts ∧ p ∈ g.productions ∧ p.lhs = n ∧ ForestIsFrom g ts p.rhs := by
  cases t with
  | leaf a => simp [IsFrom]
  | node p ts =>
    constructor
    · exact fun h => ⟨p, ts, rfl, h.1, (Symbol.nonTerminal.inj h.2.1).symm, h.2.2⟩
    · rintro ⟨_, _, ⟨⟩, hp, rfl, hts⟩
      exact ⟨hp, rfl, hts⟩

mutual

theorem derives_of_isFrom : ∀ {t : DerivationTree} {s : Symbol}, t.IsFrom g s →
    g.Derives [s] (t.yield.map .terminal)
  | .leaf t, s, h => by
    obtain rfl : s = .terminal t := h
    exact .refl _
  | .node p ts, s, h => by
    obtain ⟨hp, rfl, hts⟩ := h
    exact (Grammar.Derives.of_production hp).trans (derives_of_forestIsFrom hts)

theorem derives_of_forestIsFrom : ∀ {ts : List DerivationTree} {ss : List Symbol},
    ForestIsFrom g ts ss → g.Derives ss ((forestYield ts).map .terminal)
  | [], [], _ => .refl _
  | t :: ts, s :: ss, h => by
    obtain ⟨ht, hts⟩ := h
    rw [forestYield_cons, List.map_append]
    exact (derives_of_isFrom ht).append (derives_of_forestIsFrom hts)

end

theorem forestIsFrom_leaves (word : List Nat) :
    ForestIsFrom g (word.map leaf) (word.map .terminal) := by
  induction word with
  | nil => trivial
  | cons a word ih => exact ⟨rfl, ih⟩

theorem forestYield_leaves (word : List Nat) : forestYield (word.map leaf) = word := by
  induction word with
  | nil => rfl
  | cons a word ih => rw [List.map_cons, forestYield_cons, ih, yield_leaf, List.singleton_append]

/-- A rewriting step folds the trees of a right-hand side into one node. -/
theorem exists_forest_of_rewrites {ss rs : List Symbol} (h : g.Rewrites ss rs)
    {ts : List DerivationTree} (hts : ForestIsFrom g ts rs) :
    ∃ us, ForestIsFrom g us ss ∧ forestYield us = forestYield ts := by
  obtain ⟨before, after, p, hp⟩ := h
  obtain ⟨front, right, rfl, hfront, hright⟩ := forestIsFrom_append.1 hts
  obtain ⟨left, children, rfl, hleft, hchildren⟩ := forestIsFrom_append.1 hfront
  refine ⟨left ++ node p children :: right, ?_, ?_⟩
  · exact forestIsFrom_append.2 ⟨left, _, rfl, hleft,
      forestIsFrom_cons.2 ⟨_, right, rfl, ⟨hp, rfl, hchildren⟩, hright⟩⟩
  · simp only [forestYield_append, forestYield_cons, yield_node, List.append_assoc]

theorem exists_forest_of_derives {ss : List Symbol} {word : List Nat}
    (h : g.Derives ss (word.map .terminal)) :
    ∃ ts, ForestIsFrom g ts ss ∧ forestYield ts = word := by
  induction h using Relation.ReflTransGen.head_induction_on with
  | refl => exact ⟨word.map leaf, forestIsFrom_leaves word, forestYield_leaves word⟩
  | head hstep _ ih =>
    obtain ⟨ts, hts, hy⟩ := ih
    obtain ⟨us, hus, hy'⟩ := exists_forest_of_rewrites hstep hts
    exact ⟨us, hus, hy'.trans hy⟩

theorem derives_iff_exists_tree {s : Symbol} {word : List Nat} :
    g.Derives [s] (word.map .terminal) ↔ ∃ t : DerivationTree, t.IsFrom g s ∧ t.yield = word := by
  constructor
  · intro h
    obtain ⟨ts, hts, rfl⟩ := exists_forest_of_derives h
    obtain ⟨t, _, rfl, ht, hnil⟩ := forestIsFrom_cons.1 hts
    obtain rfl := forestIsFrom_nil.1 hnil
    exact ⟨t, ht, by rw [forestYield_cons, forestYield_nil, List.append_nil]⟩
  · rintro ⟨t, ht, rfl⟩
    exact derives_of_isFrom ht

mutual

/-- The numbers of the productions at the nodes, a parent before its children. -/
def productionIds : DerivationTree → List Nat
  | .leaf _ => []
  | .node p ts => p.id :: forestProductionIds ts

def forestProductionIds : List DerivationTree → List Nat
  | [] => []
  | t :: ts => t.productionIds ++ forestProductionIds ts

end

mutual

/-- A tree is known from its productions and the symbol that it derives. -/
theorem eq_of_productionIds (hg : g.WellFormed) : ∀ {t u : DerivationTree} {s : Symbol}
    {is js : List Nat}, t.IsFrom g s → u.IsFrom g s →
      t.productionIds ++ is = u.productionIds ++ js → t = u ∧ is = js
  | .leaf a, u, _, is, js, ht, hu, h => by
    obtain rfl : _ = _ := ht
    obtain rfl := isFrom_terminal.1 hu
    exact ⟨rfl, h⟩
  | .node p ts, u, _, is, js, ht, hu, h => by
    obtain ⟨hp, rfl, hts⟩ := ht
    obtain ⟨q, us, rfl, hq, -, hus⟩ := isFrom_nonTerminal.1 hu
    -- The production gives the number of children, so their lists split at the same places.
    obtain ⟨hid, hrest⟩ := List.cons.inj h
    obtain rfl := hg.id_injective hp hq hid
    obtain ⟨rfl, rfl⟩ := eq_of_forestProductionIds hg hts hus hrest
    exact ⟨rfl, rfl⟩

theorem eq_of_forestProductionIds (hg : g.WellFormed) : ∀ {ts us : List DerivationTree}
    {ss : List Symbol} {is js : List Nat}, ForestIsFrom g ts ss → ForestIsFrom g us ss →
      forestProductionIds ts ++ is = forestProductionIds us ++ js → ts = us ∧ is = js
  | [], us, [], is, js, _, hus, h => by
    obtain rfl := forestIsFrom_nil.1 hus
    exact ⟨rfl, h⟩
  | t :: ts, us, s :: ss, is, js, hts, hus, h => by
    obtain ⟨ht, hts⟩ := hts
    obtain ⟨u, vs, rfl, hu, hvs⟩ := forestIsFrom_cons.1 hus
    rw [forestProductionIds, forestProductionIds, List.append_assoc, List.append_assoc] at h
    obtain ⟨rfl, hrest⟩ := eq_of_productionIds hg ht hu h
    obtain ⟨rfl, rfl⟩ := eq_of_forestProductionIds hg hts hvs hrest
    exact ⟨rfl, rfl⟩

end

end DerivationTree

/-- The derivation trees of tokens: from the start symbol, with the tokens' terminals as yield. -/
def Grammar.derivations (g : Grammar) (tokens : List Token) : Set DerivationTree :=
  {t | t.IsFrom g (.nonTerminal g.start) ∧ g.Spells tokens t.yield}

theorem Grammar.isSentence_iff {g : Grammar} {tokens : List Token} :
    g.IsSentence tokens ↔ (g.derivations tokens).Nonempty := by
  constructor
  · rintro ⟨word, hword, hd⟩
    obtain ⟨t, ht, rfl⟩ := DerivationTree.derives_iff_exists_tree.1 hd
    exact ⟨t, ht, hword⟩
  · rintro ⟨t, ht, hword⟩
    exact ⟨t.yield, hword, DerivationTree.derives_of_isFrom ht⟩

theorem Grammar.injOn_productionIds {g : Grammar} (hg : g.WellFormed) (tokens : List Token) :
    Set.InjOn DerivationTree.productionIds (g.derivations tokens) := by
  intro t ht u hu h
  have h' : t.productionIds ++ [] = u.productionIds ++ [] := by rw [h]
  exact (DerivationTree.eq_of_productionIds hg ht.1 hu.1 h').1

end GrammarFlow
