import GrammarFlow.Proofs.Derivation.Terms
import Mathlib.Data.Set.Card

namespace GrammarFlow

/-- The size of a union that a list of sets makes up, none of which meets another. -/
theorem encard_eq_sum {α β : Type} {l : List α} (hl : l.Nodup) {s : Set β} {f : α → Set β}
    (hs : ∀ b, b ∈ s ↔ ∃ x ∈ l, b ∈ f x)
    (hd : ∀ x ∈ l, ∀ y ∈ l, ∀ b, b ∈ f x → b ∈ f y → x = y) {size : α → ℕ∞}
    (hsize : ∀ x ∈ l, (f x).encard = size x) : s.encard = (l.map size).sum := by
  induction l generalizing s with
  | nil =>
    have hempty : s = ∅ := by
      ext b
      simp [hs]
    rw [hempty, Set.encard_empty]
    rfl
  | cons x l ih =>
    obtain ⟨hx, hl⟩ := List.nodup_cons.1 hl
    have hunion : s = f x ∪ {b | ∃ y ∈ l, b ∈ f y} := by
      ext b
      simp [hs]
    have hdisjoint : Disjoint (f x) {b | ∃ y ∈ l, b ∈ f y} := by
      rw [Set.disjoint_left]
      rintro b hb ⟨y, hy, hb'⟩
      obtain rfl := hd x List.mem_cons_self y (List.mem_cons_of_mem x hy) b hb hb'
      exact hx hy
    have hrest : {b | ∃ y ∈ l, b ∈ f y}.encard = (l.map size).sum := by
      refine ih hl (fun b => Iff.rfl) (fun y hy z hz => ?_) fun y hy => ?_
      · exact hd y (List.mem_cons_of_mem x hy) z (List.mem_cons_of_mem x hz)
      · exact hsize y (List.mem_cons_of_mem x hy)
    rw [hunion, Set.encard_union_eq hdisjoint, List.map_cons, List.sum_cons, hrest,
      hsize x List.mem_cons_self]

theorem Grammar.le_of_mem_forests_final {g : Grammar} {next : Nat → Option Nat} {i j n : Nat}
    {us : List DerivationTree} (h : us ∈ g.forests next i ⟨.final n, j⟩) : j ≤ i := by
  obtain ⟨t, -, -, hreads⟩ := h
  rw [hreads.length_eq]
  exact Nat.le_add_right j _

namespace Parsing

/-- The trees that an entry stands for. -/
def trees (p : Parsing) (r : Ref) : Set (List DerivationTree) :=
  {ts | ∃ k, p.chart.key? r = some k ∧
    ts ∈ p.grammar.forests (p.grammar.coming p.tokens.toList) r.position k}

def shifted (p : Parsing) (t : Nat) (term : Term) : Set (List DerivationTree) :=
  (· ++ [.leaf t]) '' p.trees term.source

/-- The nodes on the trees of a complete item from an origin. -/
def closed (p : Parsing) (o : Nat) (term : Term) : Set (List DerivationTree) :=
  {us | ∃ q ∈ p.grammar.productions,
    p.chart.key? term.source = some ⟨.item ⟨q.id, q.rhs.length⟩, o⟩ ∧
      us ∈ (fun ws => [DerivationTree.node q ws]) '' p.trees term.source}

/-- The trees of a caller with a tree of its callee behind them. -/
def joined (p : Parsing) (term : Term) : Set (List DerivationTree) :=
  {us | ∃ q, term.caller = some q ∧
    us ∈ (fun x => x.2 ++ x.1) '' (p.trees term.source ×ˢ p.trees q)}

namespace Accepts

variable {p : Parsing} {tokens : List Token} {r : Ref} {k : Key} {e : Entry} {ts : List Term}

theorem trees_eq (h : p.Accepts tokens) (hr : p.chart.key? r = some k) :
    p.trees r = p.grammar.forests (p.grammar.coming tokens) r.position k := by
  ext us
  simp [trees, hr, h.tokens_eq]

theorem trees_nonempty (h : p.Accepts tokens) (hr : p.chart.key? r = some k) :
    (p.trees r).Nonempty := by
  rw [h.trees_eq hr]
  exact (h.deducible hr).forests_nonempty h.wellFormed

/-- The accepting entry stands for the derivations of the tokens. -/
theorem trees_accept (hp : p.Accepts tokens) :
    p.trees p.accept = (fun t => [t]) '' p.grammar.derivations tokens := by
  rw [hp.trees_eq hp.key?_accept, hp.position_accept]
  ext us
  have hreads : ∀ t : DerivationTree, Reads (p.grammar.coming tokens) 0 t.yield tokens.length ↔
      p.grammar.Spells tokens t.yield := fun t => by
    rw [Grammar.reads_coming_iff (Nat.zero_le _), List.drop_zero]
  constructor
  · rintro ⟨t, rfl, ht, hr⟩
    exact ⟨t, ⟨ht, (hreads t).1 hr⟩, rfl⟩
  · rintro ⟨t, ⟨ht, hspells⟩, rfl⟩
    exact ⟨t, rfl, ht, (hreads t).2 hspells⟩

theorem nodup_terms (h : p.Accepts tokens) (he : p.chart.entry? r = some e)
    (hts : p.termsOf e = some ts) : ts.Nodup :=
  ((h.sound.entry he).nodup.sublist (sources_sublist hts)).of_map _

theorem trees_of_termsOf_none (h : p.Accepts tokens) (he : p.chart.entry? r = some e)
    (hts : p.termsOf e = none) : p.trees r = {[]} := by
  have hr := Chart.key?_of_entry he
  have hd := h.deducible hr
  rw [h.trees_eq hr]
  obtain ⟨v, o, antecedents⟩ := e
  rcases h.vertex_cases he with ⟨n, rfl⟩ | ⟨q, rfl⟩ | ⟨n, rfl⟩ | ⟨it, s, rfl, hs⟩
  · rfl
  · obtain ⟨us, hus⟩ := hd.forests_nonempty h.wellFormed
    obtain ⟨-, ho⟩ := Grammar.mem_forests_item_zero.1 hus
    ext us
    rw [Entry.key, Grammar.mem_forests_item_zero, Set.mem_singleton_iff, and_iff_left ho]
  · cases hts
  · simp only [termsOf, Item.previous?_advance, hs] at hts
    cases s with
    | terminal t => cases hts
    | nonTerminal n => cases hts

theorem trees_shift (h : p.Accepts tokens) {a : Ref} {it : Item} {o t : Nat}
    (hr : p.chart.key? r = some ⟨.item it.advance, o⟩) (ht : it.next? p.grammar = some (.terminal t))
    (ha : p.chart.key? a = some ⟨.item it, o⟩) (hpos : a.position + 1 = r.position)
    (hnext : p.grammar.coming tokens a.position = some t) {us : List DerivationTree}
    (hus : us ∈ p.trees a) : us ++ [.leaf t] ∈ p.trees r := by
  rw [h.trees_eq ha] at hus
  rw [h.trees_eq hr, Grammar.mem_forests_shift ht]
  exact ⟨a.position, us, hpos, hnext, hus, rfl⟩

theorem trees_final (h : p.Accepts tokens) {a : Ref} {q : Production} {o : Nat}
    (hr : p.chart.key? r = some ⟨.final q.lhs, o⟩) (hq : q ∈ p.grammar.productions)
    (ha : p.chart.key? a = some ⟨.item ⟨q.id, q.rhs.length⟩, o⟩) (hpos : a.position = r.position)
    {us : List DerivationTree} (hus : us ∈ p.trees a) : [.node q us] ∈ p.trees r := by
  rw [h.trees_eq ha, hpos] at hus
  rw [h.trees_eq hr, h.wellFormed.mem_forests_final]
  exact ⟨q, us, hq, rfl, hus, rfl⟩

theorem trees_back (h : p.Accepts tokens) {a q : Ref} {it : Item} {o n : Nat}
    (hr : p.chart.key? r = some ⟨.item it.advance, o⟩)
    (hn : it.next? p.grammar = some (.nonTerminal n))
    (ha : p.chart.key? a = some ⟨.final n, q.position⟩) (hq : p.chart.key? q = some ⟨.item it, o⟩)
    (hpos : a.position = r.position) {us ws : List DerivationTree} (hus : us ∈ p.trees a)
    (hws : ws ∈ p.trees q) : ws ++ us ∈ p.trees r := by
  rw [h.trees_eq ha, hpos] at hus
  rw [h.trees_eq hq] at hws
  obtain ⟨t, rfl, ht⟩ := hus
  rw [h.trees_eq hr, Grammar.mem_forests_back hn]
  exact ⟨q.position, ws, t, ⟨t, rfl, ht⟩, hws, rfl⟩

/-- Trees for a part of a production stand at an entry. -/
theorem exists_item (h : p.Accepts tokens) {o i dot : Nat} {q : Production}
    (hstart : p.grammar.Deducible (p.grammar.coming tokens) o ⟨.start q.lhs, o⟩)
    (hq : q ∈ p.grammar.productions) (hdot : dot ≤ q.rhs.length) {us : List DerivationTree}
    (hus : us ∈ p.grammar.forests (p.grammar.coming tokens) i ⟨.item ⟨q.id, dot⟩, o⟩)
    (hi : i ≤ tokens.length) :
    ∃ a, a.position = i ∧ p.chart.key? a = some ⟨.item ⟨q.id, dot⟩, o⟩ ∧ us ∈ p.trees a := by
  have hd := Grammar.Deducible.item_of_mem_forests h.wellFormed hstart hq hdot hus
  obtain ⟨a, rfl, ha⟩ := h.exists_key? hd hi
  refine ⟨a, rfl, ha, ?_⟩
  rw [h.trees_eq ha]
  exact hus

/-- Where an item has moved over a symbol, the item before the symbol stands at an entry too. -/
theorem exists_retreat (h : p.Accepts tokens) {it : Item} {o i : Nat} {s : Symbol}
    (hr : p.chart.key? r = some ⟨.item it.advance, o⟩) (hs : it.next? p.grammar = some s)
    {us : List DerivationTree}
    (hus : us ∈ p.grammar.forests (p.grammar.coming tokens) i ⟨.item it, o⟩)
    (hi : i ≤ r.position) :
    ∃ a, a.position = i ∧ p.chart.key? a = some ⟨.item it, o⟩ ∧ us ∈ p.trees a := by
  obtain ⟨q, hq, hdot⟩ := Item.exists_production_of_next? hs
  have hstart := (h.deducible hr).start_of_item h.wellFormed hq
  have hid : (⟨q.id, it.dot⟩ : Item) = it := by rw [h.wellFormed.id_eq hq]
  rw [← hid] at hus ⊢
  exact h.exists_item hstart (Grammar.mem_of_production? hq)
    (Nat.le_of_lt (List.getElem?_eq_some_iff.1 hdot).1) hus (hi.trans (h.position_le hr))

theorem exists_final (h : p.Accepts tokens) {q : Ref} {it : Item} {o i n : Nat} {t : DerivationTree}
    (hq : p.chart.key? q = some ⟨.item it, o⟩) (hn : it.next? p.grammar = some (.nonTerminal n))
    (ht : [t] ∈ p.grammar.forests (p.grammar.coming tokens) i ⟨.final n, q.position⟩)
    (hi : i ≤ tokens.length) :
    ∃ a, a.position = i ∧ p.chart.key? a = some ⟨.final n, q.position⟩ ∧ [t] ∈ p.trees a := by
  obtain ⟨u, heq, hu, hreads⟩ := id ht
  obtain rfl := (List.cons.inj heq).1
  have hd := Grammar.Deducible.final_of_tree h.wellFormed hu hreads ((h.deducible hq).call hn)
  obtain ⟨a, rfl, ha⟩ := h.exists_key? hd hi
  refine ⟨a, rfl, ha, ?_⟩
  rw [h.trees_eq ha]
  exact ht

theorem exists_shift (h : p.Accepts tokens) {it : Item} {o t : Nat}
    (hr : p.chart.key? r = some ⟨.item it.advance, o⟩) (ht : it.next? p.grammar = some (.terminal t))
    {us : List DerivationTree} (hus : us ∈ p.trees r) :
    ∃ a ws, p.chart.Supports p.grammar (p.grammar.coming tokens) ⟨a, none⟩ r.position
      ⟨.item it.advance, o⟩ ∧ ws ∈ p.trees a ∧ us = ws ++ [.leaf t] := by
  rw [h.trees_eq hr, Grammar.mem_forests_shift ht] at hus
  obtain ⟨j, ws, hj, hnext, hws, rfl⟩ := hus
  obtain ⟨a, rfl, ha, hws⟩ := h.exists_retreat hr ht hws (by omega)
  have hsup := (Chart.supports_shift_iff ht).2 ⟨a, rfl, hj, ha, hnext⟩
  exact ⟨a, ws, hsup, hws, rfl⟩

theorem exists_exit (h : p.Accepts tokens) {n o : Nat} (hr : p.chart.key? r = some ⟨.final n, o⟩)
    {us : List DerivationTree} (hus : us ∈ p.trees r) :
    ∃ a q ws, p.chart.Supports p.grammar (p.grammar.coming tokens) ⟨a, none⟩ r.position
      ⟨.final n, o⟩ ∧ q ∈ p.grammar.productions ∧
        p.chart.key? a = some ⟨.item ⟨q.id, q.rhs.length⟩, o⟩ ∧ ws ∈ p.trees a ∧
          us = [.node q ws] := by
  rw [h.trees_eq hr, h.wellFormed.mem_forests_final] at hus
  obtain ⟨q, ws, hq, rfl, hws, rfl⟩ := hus
  have hstart := (h.deducible hr).start_of_final h.wellFormed
  obtain ⟨a, hpos, ha, hws⟩ := h.exists_item hstart hq (Nat.le_refl _) hws (h.position_le hr)
  have hsup := h.supports_final_iff.2 ⟨a, q, rfl, hpos, hq, rfl, ha⟩
  exact ⟨a, q, ws, hsup, hq, ha, hws, rfl⟩

theorem exists_back (h : p.Accepts tokens) {it : Item} {o n : Nat}
    (hr : p.chart.key? r = some ⟨.item it.advance, o⟩)
    (hn : it.next? p.grammar = some (.nonTerminal n)) {us : List DerivationTree}
    (hus : us ∈ p.trees r) :
    ∃ a q u ws, p.chart.Supports p.grammar (p.grammar.coming tokens) ⟨a, some q⟩ r.position
      ⟨.item it.advance, o⟩ ∧ u ∈ p.trees a ∧ ws ∈ p.trees q ∧ us = ws ++ u := by
  rw [h.trees_eq hr, Grammar.mem_forests_back hn] at hus
  obtain ⟨j, ws, t, ht, hws, rfl⟩ := hus
  have hle : j ≤ r.position := Grammar.le_of_mem_forests_final ht
  obtain ⟨q, rfl, hq, hws⟩ := h.exists_retreat hr hn hws hle
  obtain ⟨a, hpos, ha, ht⟩ := h.exists_final hq hn ht (h.position_le hr)
  refine ⟨a, q, [t], ws, ?_, ht, hws, rfl⟩
  exact (Chart.supports_back_iff hn).2 ⟨a, q, rfl, hpos, ha, hq⟩

theorem production_unique (h : p.Accepts tokens) {o : Nat} {q q' : Production}
    (hq : q ∈ p.grammar.productions) (hq' : q' ∈ p.grammar.productions)
    (hr : p.chart.key? r = some ⟨.item ⟨q.id, q.rhs.length⟩, o⟩)
    (hr' : p.chart.key? r = some ⟨.item ⟨q'.id, q'.rhs.length⟩, o⟩) : q = q' := by
  have hkey := Option.some.inj (hr.symm.trans hr')
  apply h.wellFormed.id_injective hq hq'
  exact (Item.mk.inj (Vertex.item.inj (Key.mk.inj hkey).1)).1

theorem append_unique (h : p.Accepts tokens) {a a' : Ref} {n j j' : Nat}
    {us us' ws ws' : List DerivationTree} (ha : p.chart.key? a = some ⟨.final n, j⟩)
    (ha' : p.chart.key? a' = some ⟨.final n, j'⟩) (hus : us ∈ p.trees a) (hus' : us' ∈ p.trees a')
    (heq : ws ++ us = ws' ++ us') : ws = ws' ∧ us = us' := by
  rw [h.trees_eq ha] at hus
  rw [h.trees_eq ha'] at hus'
  obtain ⟨t, rfl, -⟩ := hus
  obtain ⟨t', rfl, -⟩ := hus'
  exact List.append_inj' heq rfl

theorem encard_shifted (t : Nat) (a : Ref) :
    (p.shifted t ⟨a, none⟩).encard = (p.trees a).encard :=
  (List.append_left_injective [DerivationTree.leaf t]).encard_image _

theorem encard_closed (h : p.Accepts tokens) {a : Ref} {q : Production} {o : Nat}
    (hq : q ∈ p.grammar.productions)
    (ha : p.chart.key? a = some ⟨.item ⟨q.id, q.rhs.length⟩, o⟩) :
    (p.closed o ⟨a, none⟩).encard = (p.trees a).encard := by
  have hinj : Function.Injective fun ws => [DerivationTree.node q ws] := by
    intro ws ws' heq
    simpa using heq
  rw [← hinj.encard_image (p.trees a)]
  congr 1
  ext us
  constructor
  · rintro ⟨q', hq', ha', hus⟩
    obtain rfl := h.production_unique hq' hq ha' ha
    exact hus
  · intro hus
    exact ⟨q, hq, ha, hus⟩

theorem encard_joined (h : p.Accepts tokens) {a q : Ref} {n j : Nat}
    (ha : p.chart.key? a = some ⟨.final n, j⟩) :
    (p.joined ⟨a, some q⟩).encard = (p.trees a).encard * (p.trees q).encard := by
  have hinj : Set.InjOn (fun x : List DerivationTree × List DerivationTree => x.2 ++ x.1)
      (p.trees a ×ˢ p.trees q) := by
    rintro ⟨u, ws⟩ ⟨hu, -⟩ ⟨u', ws'⟩ ⟨hu', -⟩ heq
    obtain ⟨rfl, rfl⟩ := h.append_unique ha ha hu hu' heq
    rfl
  rw [← Set.encard_prod, ← hinj.encard_image]
  congr 1
  ext us
  simp [joined]

/-- The terms of an item behind a terminal add the terminal to the trees of the item before it. -/
theorem encard_shift (h : p.Accepts tokens) {it : Item} {o t : Nat}
    (hr : p.chart.key? r = some ⟨.item it.advance, o⟩) (ht : it.next? p.grammar = some (.terminal t))
    (hnodup : ts.Nodup) (hterms : ∀ term, term ∈ ts ↔
      p.chart.Supports p.grammar (p.grammar.coming tokens) term r.position ⟨.item it.advance, o⟩) :
    (p.trees r).encard =
      (ts.map fun term => (term.refs.map fun q => (p.trees q).encard).prod).sum := by
  have hsup : ∀ term ∈ ts, ∃ a, term = ⟨a, none⟩ ∧ a.position + 1 = r.position ∧
      p.chart.key? a = some ⟨.item it, o⟩ ∧ p.grammar.coming tokens a.position = some t :=
    fun term hterm => (Chart.supports_shift_iff ht).1 ((hterms term).1 hterm)
  apply encard_eq_sum hnodup (f := p.shifted t)
  · intro us
    constructor
    · intro hus
      obtain ⟨a, ws, hsup, hws, rfl⟩ := h.exists_shift hr ht hus
      exact ⟨⟨a, none⟩, (hterms _).2 hsup, ws, hws, rfl⟩
    · rintro ⟨term, hterm, ws, hws, rfl⟩
      obtain ⟨a, rfl, hpos, ha, hnext⟩ := hsup term hterm
      exact h.trees_shift hr ht ha hpos hnext hws
  · intro x hx y hy us _ _
    obtain ⟨a, rfl, hpos, ha, -⟩ := hsup x hx
    obtain ⟨b, rfl, hpos', hb, -⟩ := hsup y hy
    rw [h.sound.consistent.ref_unique ha hb (by omega)]
  · intro term hterm
    obtain ⟨a, rfl, -⟩ := hsup term hterm
    rw [encard_shifted]
    simp [Term.refs]

/-- The terms of an end put a node on the trees of each complete production. -/
theorem encard_final (h : p.Accepts tokens) {n o : Nat}
    (hr : p.chart.key? r = some ⟨.final n, o⟩) (hnodup : ts.Nodup) (hterms : ∀ term, term ∈ ts ↔
      p.chart.Supports p.grammar (p.grammar.coming tokens) term r.position ⟨.final n, o⟩) :
    (p.trees r).encard =
      (ts.map fun term => (term.refs.map fun q => (p.trees q).encard).prod).sum := by
  have hsup : ∀ term ∈ ts, ∃ a q, term = ⟨a, none⟩ ∧ a.position = r.position ∧
      q ∈ p.grammar.productions ∧ q.lhs = n ∧
        p.chart.key? a = some ⟨.item ⟨q.id, q.rhs.length⟩, o⟩ :=
    fun term hterm => h.supports_final_iff.1 ((hterms term).1 hterm)
  apply encard_eq_sum hnodup (f := p.closed o)
  · intro us
    constructor
    · intro hus
      obtain ⟨a, q, ws, hsup, hq, ha, hws, rfl⟩ := h.exists_exit hr hus
      exact ⟨⟨a, none⟩, (hterms _).2 hsup, q, hq, ha, ws, hws, rfl⟩
    · rintro ⟨term, hterm, q', hq', ha', ws, hws, rfl⟩
      obtain ⟨a, q, rfl, hpos, hq, rfl, ha⟩ := hsup term hterm
      obtain rfl := h.production_unique hq' hq ha' ha
      exact h.trees_final hr hq' ha' hpos hws
  · rintro x hx y hy us ⟨q, hq, ha, ws, hws, rfl⟩ ⟨q', hq', hb, ws', hws', heq⟩
    obtain ⟨a, _, rfl, hpos, -⟩ := hsup x hx
    obtain ⟨b, _, rfl, hpos', -⟩ := hsup y hy
    -- Of one production there is one complete item from the origin.
    simp only [List.cons.injEq, DerivationTree.node.injEq, and_true] at heq
    obtain ⟨rfl, -⟩ := heq
    obtain rfl : a = b := h.sound.consistent.ref_unique ha hb (hpos.trans hpos'.symm)
    rfl
  · intro term hterm
    obtain ⟨a, q, rfl, -, hq, -, ha⟩ := hsup term hterm
    rw [h.encard_closed hq ha]
    simp [Term.refs]

/-- The terms of an item behind a non-terminal join each tree of an end to the trees of its caller. -/
theorem encard_back (h : p.Accepts tokens) {it : Item} {o n : Nat}
    (hr : p.chart.key? r = some ⟨.item it.advance, o⟩)
    (hn : it.next? p.grammar = some (.nonTerminal n))
    (hnodup : ts.Nodup) (hterms : ∀ term, term ∈ ts ↔
      p.chart.Supports p.grammar (p.grammar.coming tokens) term r.position ⟨.item it.advance, o⟩) :
    (p.trees r).encard =
      (ts.map fun term => (term.refs.map fun q => (p.trees q).encard).prod).sum := by
  have hsup : ∀ term ∈ ts, ∃ a q, term = ⟨a, some q⟩ ∧ a.position = r.position ∧
      p.chart.key? a = some ⟨.final n, q.position⟩ ∧ p.chart.key? q = some ⟨.item it, o⟩ :=
    fun term hterm => (Chart.supports_back_iff hn).1 ((hterms term).1 hterm)
  apply encard_eq_sum hnodup (f := p.joined)
  · intro us
    constructor
    · intro hus
      obtain ⟨a, q, u, ws, hsup, hu, hws, rfl⟩ := h.exists_back hr hn hus
      exact ⟨⟨a, some q⟩, (hterms _).2 hsup, q, rfl, ⟨u, ws⟩, ⟨hu, hws⟩, rfl⟩
    · rintro ⟨term, hterm, q', hcaller, ⟨u, ws⟩, ⟨hu, hws⟩, rfl⟩
      obtain ⟨a, q, rfl, hpos, ha, hq⟩ := hsup term hterm
      obtain rfl := Option.some.inj hcaller
      exact h.trees_back hr hn ha hq hpos hu hws
  · rintro x hx y hy _ ⟨_, hcaller, ⟨u, ws⟩, ⟨hu, hws⟩, rfl⟩ ⟨_, hcaller', ⟨u', ws'⟩, ⟨hu', hws'⟩, heq⟩
    obtain ⟨a, q, rfl, hpos, ha, hq⟩ := hsup x hx
    obtain ⟨a', q', rfl, hpos', ha', hq'⟩ := hsup y hy
    obtain rfl := Option.some.inj hcaller
    obtain rfl := Option.some.inj hcaller'
    obtain ⟨rfl, rfl⟩ := h.append_unique ha' ha hu' hu heq
    -- The caller stands where its trees end, which are the same for both terms.
    rw [h.trees_eq hq] at hws
    rw [h.trees_eq hq'] at hws'
    have hposition : q.position = q'.position := by rw [hws.2.length_eq, hws'.2.length_eq]
    obtain rfl : q = q' := h.sound.consistent.ref_unique hq hq' hposition
    obtain rfl : a = a' := h.sound.consistent.ref_unique ha ha' (hpos.trans hpos'.symm)
    rfl
  · intro term hterm
    obtain ⟨a, q, rfl, -, ha, -⟩ := hsup term hterm
    rw [h.encard_joined ha]
    simp [Term.refs]

/-- The number of trees of an entry is the sum over its terms of the products of those it is made
from. -/
theorem encard_trees (h : p.Accepts tokens) (he : p.chart.entry? r = some e)
    (hts : p.termsOf e = some ts) : (p.trees r).encard =
      (ts.map fun term => (term.refs.map fun q => (p.trees q).encard).prod).sum := by
  have hr := Chart.key?_of_entry he
  have hnodup := h.nodup_terms he hts
  have hterms : ∀ term, term ∈ ts ↔
      p.chart.Supports p.grammar (p.grammar.coming tokens) term r.position e.key := fun term =>
    h.mem_termsOf_iff he hts
  obtain ⟨v, o, antecedents⟩ := e
  rcases h.vertex_cases he with ⟨n, rfl⟩ | ⟨q, rfl⟩ | ⟨n, rfl⟩ | ⟨it, s, rfl, hs⟩
  · cases hts
  · cases hts
  · exact h.encard_final hr hnodup hterms
  · cases s with
    | terminal t => exact h.encard_shift hr hs hnodup hterms
    | nonTerminal n => exact h.encard_back hr hs hnodup hterms

end Accepts

end Parsing

end GrammarFlow
