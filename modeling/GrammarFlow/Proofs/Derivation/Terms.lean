import GrammarFlow.Proofs.Recognition

namespace GrammarFlow

theorem Item.advance_injective : Function.Injective Item.advance := by
  rintro ⟨p, k⟩ ⟨q, m⟩ h
  obtain ⟨rfl, hkm⟩ := Item.mk.inj h
  exact congrArg (Item.mk p) (Nat.succ.inj hkm)

namespace Chart

variable {g : Grammar} {next : Nat → Option Nat} {c : Chart} {i o n : Nat} {it : Item} {term : Term}

theorem supports_zero {production : Nat} (h : c.Supports g next term i ⟨.item ⟨production, 0⟩, o⟩) :
    ∃ a n, term = ⟨a, none⟩ ∧ c.key? a = some ⟨.start n, o⟩ := by
  generalize hk : (⟨.item ⟨production, 0⟩, o⟩ : Key) = k at h
  cases h with
  | @expand a o q ha hp =>
    obtain ⟨-, rfl⟩ := Key.mk.inj hk
    exact ⟨a, q.lhs, rfl, ha⟩
  | call ha hn => cases hk
  | shift ha ht hnext => simp [Item.advance] at hk
  | exit ha hp hend => cases hk
  | back ha hq hn => simp [Item.advance] at hk

/-- The dot of an item is moved by a shift or by the end of a non-terminal. -/
theorem supports_advance (h : c.Supports g next term i ⟨.item it.advance, o⟩) :
    (∃ a t, term = ⟨a, none⟩ ∧ a.position + 1 = i ∧ c.key? a = some ⟨.item it, o⟩ ∧
        it.next? g = some (.terminal t) ∧ next a.position = some t) ∨
      ∃ a q n, term = ⟨a, some q⟩ ∧ a.position = i ∧ c.key? a = some ⟨.final n, q.position⟩ ∧
        c.key? q = some ⟨.item it, o⟩ ∧ it.next? g = some (.nonTerminal n) := by
  generalize hk : (⟨.item it.advance, o⟩ : Key) = k at h
  cases h with
  | expand ha hp => simp [Item.advance] at hk
  | call ha hn => cases hk
  | @shift a _ t _ ha ht hnext =>
    obtain ⟨hv, rfl⟩ := Key.mk.inj hk
    obtain rfl := Item.advance_injective (Vertex.item.inj hv)
    exact Or.inl ⟨a, t, rfl, rfl, ha, ht, hnext⟩
  | exit ha hp hend => cases hk
  | @back a q _ n _ ha hq hn =>
    obtain ⟨hv, rfl⟩ := Key.mk.inj hk
    obtain rfl := Item.advance_injective (Vertex.item.inj hv)
    exact Or.inr ⟨a, q, n, rfl, rfl, ha, hq, hn⟩

theorem supports_shift_iff {t : Nat} (ht : it.next? g = some (.terminal t)) :
    c.Supports g next term i ⟨.item it.advance, o⟩ ↔
      ∃ a, term = ⟨a, none⟩ ∧ a.position + 1 = i ∧ c.key? a = some ⟨.item it, o⟩ ∧
        next a.position = some t := by
  constructor
  · intro h
    rcases supports_advance h with ⟨a, t', rfl, rfl, ha, ht', hnext⟩ | ⟨a, q, n, -, -, -, -, hn⟩
    · obtain rfl := Symbol.terminal.inj (Option.some.inj (ht.symm.trans ht'))
      exact ⟨a, rfl, rfl, ha, hnext⟩
    · rw [ht] at hn
      cases hn
  · rintro ⟨a, rfl, rfl, ha, hnext⟩
    exact .shift ha ht hnext

theorem supports_back_iff (hn : it.next? g = some (.nonTerminal n)) :
    c.Supports g next term i ⟨.item it.advance, o⟩ ↔
      ∃ a q, term = ⟨a, some q⟩ ∧ a.position = i ∧ c.key? a = some ⟨.final n, q.position⟩ ∧
        c.key? q = some ⟨.item it, o⟩ := by
  constructor
  · intro h
    rcases supports_advance h with ⟨a, t, -, -, -, ht, -⟩ | ⟨a, q, n', rfl, rfl, ha, hq, hn'⟩
    · rw [hn] at ht
      cases ht
    · obtain rfl := Symbol.nonTerminal.inj (Option.some.inj (hn.symm.trans hn'))
      exact ⟨a, q, rfl, rfl, ha, hq⟩
  · rintro ⟨a, q, rfl, rfl, ha, hq⟩
    exact .back ha hq hn

end Chart

namespace Parsing

/-- An entry is counted from the entries in its terms. -/
def Feeds (p : Parsing) (r q : Ref) : Prop :=
  ∃ ts, p.terms r = some ts ∧ q ∈ ts.flatMap Term.refs

variable {p : Parsing} {e : Entry} {ts : List Term}

theorem sources_plainTerms : (plainTerms e).map Term.source = e.antecedents.toList := by
  rw [plainTerms, List.map_map]
  exact List.map_id _

theorem sources_returnTerms : ((p.returnTerms e).map Term.source).Sublist e.antecedents.toList := by
  rw [returnTerms]
  induction e.antecedents.toList with
  | nil => exact List.Sublist.slnil
  | cons a rest ih =>
    rw [List.filterMap_cons]
    split
    · exact ih.cons a
    · next term hterm =>
      obtain ⟨caller, -, hterm⟩ := Option.bind_eq_some_iff.1 hterm
      obtain ⟨callee, -, hterm⟩ := Option.bind_eq_some_iff.1 hterm
      obtain ⟨q, -, hterm⟩ := Option.bind_eq_some_iff.1 hterm
      obtain rfl := Option.some.inj hterm
      exact ih.cons_cons a

theorem sources_sublist (h : p.termsOf e = some ts) :
    (ts.map Term.source).Sublist e.antecedents.toList := by
  rw [termsOf] at h
  split at h
  · cases h
  · obtain rfl := Option.some.inj h
    rw [sources_plainTerms]
  · split at h
    · cases h
    · obtain rfl := Option.some.inj h
      rw [sources_plainTerms]
    · obtain rfl := Option.some.inj h
      exact sources_returnTerms

namespace Accepts

variable {p : Parsing} {tokens : List Token} {r a q : Ref} {k : Key} {e : Entry} {ts : List Term}
  {term : Term}

theorem deducible (h : p.Accepts tokens) (hr : p.chart.key? r = some k) :
    p.grammar.Deducible (p.grammar.coming tokens) r.position k := h.sound.deducible hr

theorem position_le (h : p.Accepts tokens) (hr : p.chart.key? r = some k) :
    r.position ≤ tokens.length := by
  have hlt := Chart.lt_size_of_key? hr
  rw [h.size_eq] at hlt
  exact Nat.le_of_lt_succ hlt

theorem exists_key? (h : p.Accepts tokens) {i : Nat}
    (hd : p.grammar.Deducible (p.grammar.coming tokens) i k) (hi : i ≤ tokens.length) :
    ∃ r, r.position = i ∧ p.chart.key? r = some k :=
  h.saturated.exists_key? h.wellFormed h.seed hd (Nat.lt_succ_of_le hi)

theorem supports_final_iff (h : p.Accepts tokens) {i n o : Nat} :
    p.chart.Supports p.grammar (p.grammar.coming tokens) term i ⟨.final n, o⟩ ↔
      ∃ a q, term = ⟨a, none⟩ ∧ a.position = i ∧ q ∈ p.grammar.productions ∧ q.lhs = n ∧
        p.chart.key? a = some ⟨.item ⟨q.id, q.rhs.length⟩, o⟩ := by
  constructor
  · intro hsup
    cases hsup with
    | @exit a _ it q ha hq hend =>
      rw [(h.deducible ha).eq_of_next?_eq_none h.wellFormed hq hend] at ha
      exact ⟨a, q, rfl, rfl, Grammar.mem_of_production? hq, rfl, ha⟩
  · rintro ⟨a, q, rfl, rfl, hq, rfl, ha⟩
    refine .exit ha (h.wellFormed.production?_id hq) ?_
    rw [Item.next?, h.wellFormed.rhs_id hq]
    exact List.getElem?_eq_none (Nat.le_refl _)

theorem mem_antecedents_iff (h : p.Accepts tokens) (he : p.chart.entry? r = some e) :
    a ∈ e.antecedents ↔ ∃ term, term.source = a ∧
      p.chart.Supports p.grammar (p.grammar.coming tokens) term r.position e.key := by
  constructor
  · exact (h.sound.entry he).supported a
  · rintro ⟨term, rfl, hsup⟩
    obtain ⟨place, e', he', hk, ha⟩ := h.saturated.linked hsup fun q hq => by
      obtain ⟨k, hk⟩ := hsup.exists_key? q hq
      exact Or.inl (Nat.lt_succ_of_le (h.position_le hk))
    have hr : r = ⟨r.position, place⟩ :=
      h.sound.consistent.ref_unique (Chart.key?_of_entry he)
        (hk ▸ Chart.key?_of_entry he') rfl
    rw [hr, he'] at he
    obtain rfl := Option.some.inj he
    exact ha

theorem mem_plainTerms_iff (h : p.Accepts tokens) (he : p.chart.entry? r = some e)
    (hplain : ∀ {term}, p.chart.Supports p.grammar (p.grammar.coming tokens) term r.position e.key →
      term.caller = none) :
    term ∈ plainTerms e ↔
      p.chart.Supports p.grammar (p.grammar.coming tokens) term r.position e.key := by
  simp only [plainTerms, List.mem_map, Array.mem_toList_iff, h.mem_antecedents_iff he]
  constructor
  · rintro ⟨_, ⟨term, rfl, hsup⟩, rfl⟩
    rw [← hplain hsup]
    exact hsup
  · intro hsup
    refine ⟨_, ⟨term, rfl, hsup⟩, ?_⟩
    rw [← hplain hsup]

/-- The caller is found in the set where the non-terminal began. -/
theorem mem_returnTerms_iff (h : p.Accepts tokens) (he : p.chart.entry? r = some e) {it : Item}
    {n : Nat} (hv : e.vertex = .item it.advance) (hn : it.next? p.grammar = some (.nonTerminal n)) :
    term ∈ p.returnTerms e ↔
      p.chart.Supports p.grammar (p.grammar.coming tokens) term r.position e.key := by
  obtain ⟨_, o, antecedents⟩ := e
  obtain rfl : _ = _ := hv
  -- The origin of the callee is the position of its caller, which holds the caller's key once.
  have hfind : ∀ {a q : Ref} {callee : Entry},
      p.chart.key? a = some ⟨.final n, q.position⟩ → p.chart.key? q = some ⟨.item it, o⟩ →
      p.chart.entry? a = some callee →
      p.chart.find? callee.origin (.item it) o = some q := by
    intro a q callee ha hq hcallee
    rw [Chart.key?_of_entry hcallee] at ha
    obtain ⟨-, horigin⟩ := Key.mk.inj (Option.some.inj ha)
    exact (h.sound.consistent.find?_iff (k := ⟨.item it, o⟩)).2 ⟨horigin.symm, hq⟩
  rw [Entry.key, Chart.supports_back_iff hn]
  simp only [returnTerms, List.mem_filterMap, Array.mem_toList_iff, h.mem_antecedents_iff he,
    Entry.key, Chart.supports_back_iff hn, Vertex.predecessor?, Item.retreat?_advance]
  constructor
  · rintro ⟨_, ⟨_, rfl, a, q, rfl, hpos, ha, hq⟩, hterm⟩
    obtain ⟨callee, hcallee, -⟩ := Chart.exists_entry?_of_key? ha
    simp only [hcallee, Option.map_some, Option.bind_eq_bind, Option.bind_some,
      hfind ha hq hcallee] at hterm
    obtain rfl := Option.some.inj hterm
    exact ⟨a, q, rfl, hpos, ha, hq⟩
  · rintro ⟨a, q, rfl, hpos, ha, hq⟩
    obtain ⟨callee, hcallee, -⟩ := Chart.exists_entry?_of_key? ha
    refine ⟨a, ⟨_, rfl, a, q, rfl, hpos, ha, hq⟩, ?_⟩
    simp only [hcallee, Option.map_some, Option.bind_eq_bind, Option.bind_some,
      hfind ha hq hcallee]
    rfl

/-- An entry is the start of a non-terminal, its end, or an item that has passed no symbol or one
more than another item. -/
theorem vertex_cases (h : p.Accepts tokens) (he : p.chart.entry? r = some e) :
    (∃ n, e.vertex = .start n) ∨ (∃ q, e.vertex = .item ⟨q, 0⟩) ∨ (∃ n, e.vertex = .final n) ∨
      ∃ (it : Item) (s : Symbol), e.vertex = .item it.advance ∧ it.next? p.grammar = some s := by
  have hd := h.deducible (Chart.key?_of_entry he)
  obtain ⟨v, o, antecedents⟩ := e
  cases v with
  | start n => exact Or.inl ⟨n, rfl⟩
  | final n => exact Or.inr (Or.inr (Or.inl ⟨n, rfl⟩))
  | item it =>
    obtain ⟨production, dot⟩ := it
    cases dot with
    | zero => exact Or.inr (Or.inl ⟨production, rfl⟩)
    | succ dot =>
      obtain ⟨q, hq, hle⟩ := hd.exists_production h.wellFormed
      refine Or.inr (Or.inr (Or.inr ⟨⟨production, dot⟩, q.rhs[dot], rfl, ?_⟩))
      rw [Item.next?, Grammar.rhs_of_production? hq]
      exact List.getElem?_eq_getElem hle

theorem mem_termsOf_iff (h : p.Accepts tokens) (he : p.chart.entry? r = some e)
    (hts : p.termsOf e = some ts) :
    term ∈ ts ↔ p.chart.Supports p.grammar (p.grammar.coming tokens) term r.position e.key := by
  rcases h.vertex_cases he with ⟨n, hv⟩ | ⟨q, hv⟩ | ⟨n, hv⟩ | ⟨it, s, hv, hs⟩
  · rw [termsOf, hv] at hts
    cases hts
  · rw [termsOf, hv] at hts
    cases hts
  · rw [termsOf, hv] at hts
    obtain rfl := Option.some.inj hts
    apply h.mem_plainTerms_iff he
    intro term hsup
    rw [Entry.key, hv, h.supports_final_iff] at hsup
    obtain ⟨a, q, rfl, -⟩ := hsup
    rfl
  · simp only [termsOf, hv, Item.previous?_advance, hs] at hts
    cases s with
    | terminal t =>
      obtain rfl := Option.some.inj hts
      apply h.mem_plainTerms_iff he
      intro term hsup
      rw [Entry.key, hv, Chart.supports_shift_iff hs] at hsup
      obtain ⟨a, rfl, -⟩ := hsup
      rfl
    | nonTerminal n =>
      obtain rfl := Option.some.inj hts
      exact h.mem_returnTerms_iff he hv hs

theorem exists_supports_of_feeds (h : p.Accepts tokens) (hf : p.Feeds r q) :
    ∃ e ts term, p.chart.entry? r = some e ∧ p.termsOf e = some ts ∧ q ∈ term.refs ∧
      p.chart.Supports p.grammar (p.grammar.coming tokens) term r.position e.key := by
  obtain ⟨ts, hts, hq⟩ := hf
  obtain ⟨e, he, hts⟩ := Option.bind_eq_some_iff.1 hts
  obtain ⟨term, hterm, hq⟩ := List.mem_flatMap.1 hq
  exact ⟨e, ts, term, he, hts, hq, (h.mem_termsOf_iff he hts).1 hterm⟩

theorem exists_key?_of_feeds (h : p.Accepts tokens) (hf : p.Feeds r q) :
    ∃ k, p.chart.key? q = some k := by
  obtain ⟨e, ts, term, -, -, hq, hsup⟩ := h.exists_supports_of_feeds hf
  exact hsup.exists_key? q hq

end Accepts

end Parsing

end GrammarFlow
