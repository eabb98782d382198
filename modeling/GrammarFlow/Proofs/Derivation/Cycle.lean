import GrammarFlow.Proofs.Derivation.Trees
import Mathlib.Order.Interval.Finset.Nat

namespace GrammarFlow

namespace DerivationTree

mutual

def weight : DerivationTree → Nat
  | .leaf _ => 1
  | .node _ ts => forestWeight ts + 2

def forestWeight : List DerivationTree → Nat
  | [] => 0
  | t :: ts => t.weight + forestWeight ts

end

@[simp] theorem weight_leaf (t : Nat) : (leaf t).weight = 1 := rfl

@[simp] theorem weight_node (p : Production) (ts : List DerivationTree) :
    (node p ts).weight = forestWeight ts + 2 := rfl

@[simp] theorem forestWeight_nil : forestWeight [] = 0 := rfl

@[simp] theorem forestWeight_cons (t : DerivationTree) (ts : List DerivationTree) :
    forestWeight (t :: ts) = t.weight + forestWeight ts := rfl

@[simp] theorem forestWeight_append (ts us : List DerivationTree) :
    forestWeight (ts ++ us) = forestWeight ts + forestWeight us := by
  induction ts with
  | nil => rw [List.nil_append, forestWeight_nil, Nat.zero_add]
  | cons t ts ih => rw [List.cons_append, forestWeight_cons, forestWeight_cons, ih, Nat.add_assoc]

theorem weight_pos (t : DerivationTree) : 0 < t.weight := by
  cases t with
  | leaf t => exact Nat.zero_lt_one
  | node p ts => exact Nat.succ_pos _

end DerivationTree

namespace Parsing

open DerivationTree

/-- The weight of trees at an entry. At an item they weigh one more, so that to carry an end over to an
item adds weight even if the item has no other tree. -/
def weight (p : Parsing) (r : Ref) (us : List DerivationTree) : Nat :=
  forestWeight us + ((p.chart.key? r).map fun k => Key.tier k.vertex).getD 0

def Unbounded (p : Parsing) (r : Ref) : Prop := ∀ m, ∃ us ∈ p.trees r, m ≤ p.weight r us

theorem Unbounded.infinite {p : Parsing} {r : Ref} (h : p.Unbounded r) : (p.trees r).Infinite := by
  apply Set.Infinite.of_image (p.weight r)
  apply Set.infinite_of_forall_exists_gt
  intro m
  obtain ⟨us, hus, hle⟩ := h (m + 1)
  exact ⟨_, Set.mem_image_of_mem _ hus, hle⟩

namespace Accepts

variable {p : Parsing} {tokens : List Token} {r q : Ref} {k : Key}

/-- Every tree of an entry is part of a heavier tree of the entry that it feeds. -/
theorem exists_heavier (h : p.Accepts tokens) (hf : p.Feeds r q) {us : List DerivationTree}
    (hus : us ∈ p.trees q) : ∃ ws ∈ p.trees r, p.weight q us < p.weight r ws := by
  obtain ⟨⟨v, o, antecedents⟩, ts, term, he, hts, hmem, hsup⟩ := h.exists_supports_of_feeds hf
  have hr : p.chart.key? r = some ⟨v, o⟩ := Chart.key?_of_entry he
  rcases h.vertex_cases he with ⟨n, rfl⟩ | ⟨m, rfl⟩ | ⟨n, rfl⟩ | ⟨it, s, rfl, hs⟩
  · cases hts
  · cases hts
  · obtain ⟨a, m, rfl, hpos, hm, rfl, ha⟩ := h.supports_final_iff.1 hsup
    obtain rfl : q = a := by simpa [Term.refs] using hmem
    refine ⟨_, h.trees_final hr hm ha hpos hus, ?_⟩
    simp [weight, hr, ha, Key.tier]
  · rcases Chart.supports_advance hsup with ⟨a, t, rfl, hpos, ha, ht, hnext⟩ |
      ⟨a, b, n, rfl, hpos, ha, hb, hn⟩
    · obtain rfl : q = a := by simpa [Term.refs] using hmem
      refine ⟨_, h.trees_shift hr ht ha hpos hnext hus, ?_⟩
      simp [weight, hr, ha, Key.tier]
    -- A tree of the end gains the extra weight of an item, trees of the caller that of the end.
    · obtain rfl | rfl : q = a ∨ q = b := by simpa [Term.refs] using hmem
      · obtain ⟨ws, hws⟩ := h.trees_nonempty hb
        refine ⟨_, h.trees_back hr hn ha hb hpos hus hws, ?_⟩
        simp [weight, hr, ha, Key.tier]
      · obtain ⟨ws, hws⟩ := h.trees_nonempty ha
        obtain ⟨t, rfl, -⟩ := (h.trees_eq ha).subset hws
        have hpositive := t.weight_pos
        refine ⟨_, h.trees_back hr hn ha hb hpos hws hus, ?_⟩
        simp only [weight, hr, hb, Key.tier, Option.map_some, Option.getD_some, forestWeight_append,
          forestWeight_cons, forestWeight_nil]
        omega

theorem exists_heavier_of_transGen (h : p.Accepts tokens) (hf : Relation.TransGen p.Feeds r q)
    {us : List DerivationTree} (hus : us ∈ p.trees q) :
    ∃ ws ∈ p.trees r, p.weight q us < p.weight r ws := by
  induction hf using Relation.TransGen.head_induction_on with
  | single hf => exact h.exists_heavier hf hus
  | head hf _ ih =>
    obtain ⟨ws, hws, hlt⟩ := ih
    obtain ⟨xs, hxs, hlt'⟩ := h.exists_heavier hf hws
    exact ⟨xs, hxs, hlt.trans hlt'⟩

/-- An entry that takes part in its own derivation can be derived over and over. -/
theorem unbounded_of_cycle (h : p.Accepts tokens) (hf : Relation.TransGen p.Feeds r r) :
    p.Unbounded r := by
  intro m
  induction m with
  | zero =>
    obtain ⟨q, -, hfeeds⟩ := Relation.TransGen.tail'_iff.1 hf
    obtain ⟨k, hr⟩ := h.exists_key?_of_feeds hfeeds
    obtain ⟨us, hus⟩ := h.trees_nonempty hr
    exact ⟨us, hus, Nat.zero_le _⟩
  | succ m ih =>
    obtain ⟨us, hus, hle⟩ := ih
    obtain ⟨ws, hws, hlt⟩ := h.exists_heavier_of_transGen hf hus
    exact ⟨ws, hws, Nat.succ_le_of_lt (Nat.lt_of_le_of_lt hle hlt)⟩

theorem infinite_of_cycle (h : p.Accepts tokens) (hreach : Relation.ReflTransGen p.Feeds r q)
    (hf : Relation.TransGen p.Feeds q q) : (p.trees r).Infinite := by
  apply Unbounded.infinite
  induction hreach using Relation.ReflTransGen.head_induction_on with
  | refl => exact h.unbounded_of_cycle hf
  | head hstep _ ih =>
    intro m
    obtain ⟨us, hus, hle⟩ := ih m
    obtain ⟨ws, hws, hlt⟩ := h.exists_heavier hstep hus
    exact ⟨ws, hws, hle.trans (Nat.le_of_lt hlt)⟩

end Accepts

end Parsing

end GrammarFlow
