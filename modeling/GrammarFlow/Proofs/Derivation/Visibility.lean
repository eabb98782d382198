import GrammarFlow.Proofs.Derivation.Acyclic
import GrammarFlow.Proofs.Derivation.Ambiguity
import Mathlib.Algebra.Order.BigOperators.Group.List

namespace GrammarFlow

/-- An end or an item, each of whose antecedents is a way to derive it. -/
def Vertex.IsDerived : Vertex → Prop
  | .start _ => False
  | .final _ => True
  | .item _ => True

theorem Vertex.isDerived_iff {v : Vertex} : v.IsDerived ↔ ∀ n, v ≠ .start n := by
  cases v <;> simp [IsDerived]

theorem Chart.of_supports_zero {g : Grammar} {next : Nat → Option Nat} {c : Chart} {term : Term}
    {i m o : Nat} (h : c.Supports g next term i ⟨.item ⟨m, 0⟩, o⟩) : ∃ q ∈ g.productions, q.id = m ∧
      term.source.position = i ∧ c.key? term.source = some ⟨.start q.lhs, o⟩ := by
  generalize hk : (⟨.item ⟨m, 0⟩, o⟩ : Key) = k at h
  cases h with
  | @expand a _ q ha hq =>
    obtain ⟨hv, rfl⟩ := Key.mk.inj hk
    exact ⟨q, hq, (Item.mk.inj (Vertex.item.inj hv)).1.symm, rfl, ha⟩
  | call ha hn => cases hk
  | shift ha ht hnext => simp [Item.advance] at hk
  | exit ha hq hend => cases hk
  | back ha hq hn => simp [Item.advance] at hk

namespace Parsing

open Relation

variable {p : Parsing} {tokens : List Token} {r q a : Ref} {k : Key} {e : Entry} {ts : List Term}
  {term : Term}

theorem mem_ambiguousEntries_iff :
    r ∈ p.chart.ambiguousEntries ↔ ∃ e, p.chart.entry? r = some e ∧ 1 < e.antecedents.size := by
  simp only [Chart.ambiguousEntries, List.mem_filter, Option.any_eq_true, Entry.isAmbiguous,
    decide_eq_true_eq]
  refine and_iff_right_of_imp ?_
  rintro ⟨e, he, -⟩
  exact mem_refs (Chart.key?_of_entry he)

theorem isDerived_of_termsOf (hts : p.termsOf e = some ts) : e.vertex.IsDerived := by
  rw [Vertex.isDerived_iff]
  intro n hn
  rw [termsOf, hn] at hts
  cases hts

theorem feeds_of_mem_refs (he : p.chart.entry? r = some e) (hts : p.termsOf e = some ts)
    (hterm : term ∈ ts) (hq : q ∈ term.refs) : p.Feeds r q := by
  refine ⟨ts, ?_, List.mem_flatMap.2 ⟨term, hterm, hq⟩⟩
  rw [terms, he]
  exact hts

namespace Accepts

theorem one_le_encard (h : p.Accepts tokens) (hr : p.chart.key? r = some k) :
    1 ≤ (p.trees r).encard :=
  Set.one_le_encard_iff_nonempty.2 (h.trees_nonempty hr)

section Terms

variable (h : p.Accepts tokens) (he : p.chart.entry? r = some e) (hts : p.termsOf e = some ts)
include h he hts

theorem one_le_encard_of_term (hterm : term ∈ ts) (hq : q ∈ term.refs) :
    1 ≤ (p.trees q).encard := by
  obtain ⟨k, hk⟩ := h.exists_key?_of_feeds (feeds_of_mem_refs he hts hterm hq)
  exact h.one_le_encard hk

/-- A term stands for as many trees as any of its entries, or more. -/
theorem encard_le_prod (hterm : term ∈ ts) (hq : q ∈ term.refs) :
    (p.trees q).encard ≤ (term.refs.map fun q => (p.trees q).encard).prod := by
  have hone : ∀ q ∈ term.refs, 1 ≤ (p.trees q).encard := fun q =>
    h.one_le_encard_of_term he hts hterm
  obtain ⟨source, _ | caller⟩ := term
  · obtain rfl : q = source := by simpa [Term.refs] using hq
    simp [Term.refs]
  · have hsource := hone source (by simp [Term.refs])
    have hcaller := hone caller (by simp [Term.refs])
    simp only [Term.refs, Option.toList_some, List.map_cons, List.map_nil, List.prod_cons,
      List.prod_nil, mul_one]
    obtain rfl | rfl : q = source ∨ q = caller := by simpa [Term.refs] using hq
    · exact le_mul_of_one_le_right' hcaller
    · exact le_mul_of_one_le_left' hsource

theorem one_le_prod (hterm : term ∈ ts) :
    1 ≤ (term.refs.map fun q => (p.trees q).encard).prod :=
  (h.one_le_encard_of_term he hts hterm List.mem_cons_self).trans
    (h.encard_le_prod he hts hterm List.mem_cons_self)

theorem length_le_encard : (ts.length : ℕ∞) ≤ (p.trees r).encard := by
  have hone : ∀ x ∈ ts.map fun term => (term.refs.map fun q => (p.trees q).encard).prod, 1 ≤ x := by
    intro x hx
    obtain ⟨term, hterm, rfl⟩ := List.mem_map.1 hx
    exact h.one_le_prod he hts hterm
  have hsum := List.card_nsmul_le_sum _ 1 hone
  rwa [List.length_map, nsmul_one, ← h.encard_trees he hts] at hsum

theorem size_le_length : e.antecedents.size ≤ ts.length := by
  have hsub : e.antecedents.toList ⊆ ts.map Term.source := by
    intro a ha
    obtain ⟨term, rfl, hsup⟩ := (h.mem_antecedents_iff he).1 (Array.mem_toList_iff.1 ha)
    exact List.mem_map_of_mem ((h.mem_termsOf_iff he hts).2 hsup)
  have hle := (h.sound.entry he).nodup.length_le_of_subset hsub
  rwa [Array.length_toList, List.length_map] at hle

/-- An entry with one antecedent is counted from older entries. -/
theorem exists_older_term (hsize : e.antecedents.size ≤ 1) :
    ∃ term, ts = [term] ∧ ∀ q ∈ term.refs, q < r := by
  have hv := Vertex.isDerived_iff.1 (isDerived_of_termsOf hts)
  obtain ⟨term, -, hsup, hlt⟩ := h.founded he hv
  have hmem := (h.mem_termsOf_iff he hts).2 hsup
  have hlength : ts.length ≤ e.antecedents.size := by
    simpa using (sources_sublist hts).length_le
  obtain ⟨first, rfl⟩ : ∃ first, ts = [first] := by
    apply List.length_eq_one_iff.1
    have hpos := List.length_pos_of_mem hmem
    omega
  obtain rfl := List.mem_singleton.1 hmem
  exact ⟨term, rfl, hlt⟩

end Terms

/-- An entry stands for as many trees as any entry that it is counted from, or more. -/
theorem encard_le_of_feeds (h : p.Accepts tokens) (hf : p.Feeds r q) :
    (p.trees q).encard ≤ (p.trees r).encard := by
  obtain ⟨e, ts, term, he, hts, hq, hsup⟩ := h.exists_supports_of_feeds hf
  have hterm := (h.mem_termsOf_iff he hts).2 hsup
  rw [h.encard_trees he hts]
  exact (h.encard_le_prod he hts hterm hq).trans (List.le_sum_of_mem (List.mem_map_of_mem hterm))

theorem encard_le_of_reflTransGen (h : p.Accepts tokens) (hf : ReflTransGen p.Feeds r q) :
    (p.trees q).encard ≤ (p.trees r).encard := by
  induction hf with
  | refl => exact le_rfl
  | tail _ hstep ih => exact (h.encard_le_of_feeds hstep).trans ih

theorem size_le_one_of_termsOf_none (h : p.Accepts tokens) (he : p.chart.entry? r = some e)
    (hv : e.vertex.IsDerived) (hts : p.termsOf e = none) : e.antecedents.size ≤ 1 := by
  have hbegins : ∃ m, e.vertex = .item ⟨m, 0⟩ := by
    rcases h.vertex_cases he with ⟨n, hn⟩ | hzero | ⟨n, hn⟩ | ⟨it, s, hit, hs⟩
    · exact absurd hn (Vertex.isDerived_iff.1 hv n)
    · exact hzero
    · rw [termsOf, hn] at hts
      cases hts
    · simp only [termsOf, hit, Item.previous?_advance, hs] at hts
      cases s with
      | terminal t => cases hts
      | nonTerminal n => cases hts
  obtain ⟨m, hm⟩ := hbegins
  obtain ⟨first, -, hfirst, -⟩ := h.founded he (Vertex.isDerived_iff.1 hv)
  rw [Entry.key, hm] at hfirst
  obtain ⟨q, hq, rfl, hpos, hkey⟩ := Chart.of_supports_zero hfirst
  have hsub : e.antecedents.toList ⊆ [first.source] := by
    intro a ha
    obtain ⟨term, rfl, hsup⟩ := (h.mem_antecedents_iff he).1 (Array.mem_toList_iff.1 ha)
    rw [Entry.key, hm] at hsup
    obtain ⟨q', hq', hid, hpos', hkey'⟩ := Chart.of_supports_zero hsup
    obtain rfl := h.wellFormed.id_injective hq' hq hid
    exact List.mem_singleton.2 (h.sound.consistent.ref_unique hkey' hkey (hpos'.trans hpos.symm))
  simpa using (h.sound.entry he).nodup.length_le_of_subset hsub

/-- Without a second antecedent anywhere below, there is one tree: by induction on the rank, since what
an entry is counted from is older. -/
theorem encard_eq_one (h : p.Accepts tokens) (hr : p.chart.key? r = some k)
    (hsingle : ∀ q e, ReflTransGen p.Feeds r q → p.chart.entry? q = some e → e.vertex.IsDerived →
      e.antecedents.size ≤ 1) : (p.trees r).encard = 1 := by
  induction hrank : p.chart.rank r using Nat.strong_induction_on generalizing r k with
  | _ rank ih =>
    obtain ⟨e, he, rfl⟩ := Chart.exists_entry?_of_key? hr
    cases hts : p.termsOf e with
    | none => rw [h.trees_of_termsOf_none he hts, Set.encard_singleton]
    | some ts =>
      obtain ⟨term, rfl, hlt⟩ :=
        h.exists_older_term he hts (hsingle r e .refl he (isDerived_of_termsOf hts))
      have hone : ∀ q ∈ term.refs, (p.trees q).encard = 1 := by
        intro q hq
        have hf := feeds_of_mem_refs he hts List.mem_cons_self hq
        obtain ⟨k, hk⟩ := h.exists_key?_of_feeds hf
        exact ih _ (hrank ▸ Chart.rank_lt_rank hk (hlt q hq)) hk
          (fun q' e' hreach => hsingle q' e' (.head hf hreach)) rfl
      rw [h.encard_trees he hts, List.map_singleton, List.sum_singleton, List.map_congr_left hone]
      simp

theorem size_pos (h : p.Accepts tokens) (he : p.chart.entry? r = some e) (hv : e.vertex.IsDerived) :
    0 < e.antecedents.size := by
  obtain ⟨term, hfirst, -⟩ := h.founded he (Vertex.isDerived_iff.1 hv)
  exact (Array.getElem?_eq_some_iff.1 hfirst).1

/-- An entry that is derived has no more antecedents than trees. -/
theorem size_le_encard (h : p.Accepts tokens) (he : p.chart.entry? r = some e)
    (hv : e.vertex.IsDerived) : (e.antecedents.size : ℕ∞) ≤ (p.trees r).encard := by
  cases hts : p.termsOf e with
  | none =>
    have hle := h.size_le_one_of_termsOf_none he hv hts
    exact (Nat.cast_le_one.2 hle).trans (h.one_le_encard (Chart.key?_of_entry he))
  | some ts =>
    exact (Nat.cast_le.2 (h.size_le_length he hts)).trans (h.length_le_encard he hts)

/-- The accepting entry has one tree just when all that it is counted from has one antecedent. -/
theorem encard_accept_eq_one_iff (h : p.Accepts tokens) : (p.trees p.accept).encard = 1 ↔
    ∀ r e, ReflTransGen p.Feeds p.accept r → p.chart.entry? r = some e → e.vertex.IsDerived →
      e.antecedents.size = 1 := by
  constructor
  · intro hone r e hreach he hv
    have hle : (e.antecedents.size : ℕ∞) ≤ 1 := calc
      (e.antecedents.size : ℕ∞) ≤ (p.trees r).encard := h.size_le_encard he hv
      _ ≤ (p.trees p.accept).encard := h.encard_le_of_reflTransGen hreach
      _ = 1 := hone
    exact le_antisymm (Nat.cast_le_one.1 hle) (h.size_pos he hv)
  · intro hsingle
    exact h.encard_eq_one h.key?_accept fun q e hreach he hv => (hsingle q e hreach he hv).le

theorem derivationCount_eq_one_iff (h : p.Accepts tokens) :
    p.derivationCount = some 1 ↔ (p.trees p.accept).encard = 1 := by
  have hmax : 1 < maxCount := by decide
  rw [Set.encard_eq_one, ← Set.ncard_eq_one, h.ncard_trees_accept]
  rcases h.derivationCount_eq with ⟨hcount, hinfinite⟩ | ⟨hcount, -⟩
  · rw [hcount, hinfinite.ncard]
    simp
  · rw [hcount, Option.some.injEq]
    omega

theorem isAmbiguous_iff (h : p.Accepts tokens) :
    p.isAmbiguous = true ↔ p.derivationCount ≠ some 1 := by
  rw [isAmbiguous]
  rcases h.derivationCount_eq with ⟨hcount, -⟩ | ⟨hcount, hfinite⟩
  · rw [hcount]
    simp
  · have hpos : 0 < (p.grammar.derivations tokens).ncard :=
      (Set.ncard_pos hfinite).2 (Grammar.isSentence_iff.1 h.isSentence)
    have hmax : 1 < maxCount := by decide
    rw [hcount, decide_eq_true_iff, ne_eq, Option.some.injEq]
    omega

end Accepts

end Parsing

/-- A parse is ambiguous, with several derivations or with infinitely many, just when an end or an item
that the accepting entry is counted from is reported as ambiguous; and the count is one just when each of
them has a single antecedent. -/
theorem isAmbiguous_iff_exists_ambiguousEntry {d : Declaration} {g : Grammar} (hg : d.build = .ok g)
    {tokens : List Token} {p : Parsing} (hp : (Graph.ofGrammar g).parse tokens = .ok p) :
    (p.isAmbiguous = true ↔ ∃ r ∈ p.chart.ambiguousEntries, ∃ e, p.chart.entry? r = some e ∧
      e.vertex.IsDerived ∧ Relation.ReflTransGen p.Feeds p.accept r) ∧
    (p.derivationCount = some 1 ↔ ∀ r e, Relation.ReflTransGen p.Feeds p.accept r →
      p.chart.entry? r = some e → e.vertex.IsDerived → e.antecedents.size = 1) := by
  obtain ⟨rfl, h⟩ := Graph.accepts_of_parse hg hp
  have hone := h.derivationCount_eq_one_iff.trans h.encard_accept_eq_one_iff
  refine ⟨?_, hone⟩
  rw [h.isAmbiguous_iff, ne_eq, hone]
  constructor
  · intro hmany
    push Not at hmany
    obtain ⟨r, e, hreach, he, hv, hsize⟩ := hmany
    have hlt : 1 < e.antecedents.size := Nat.lt_of_le_of_ne (h.size_pos he hv) hsize.symm
    exact ⟨r, Parsing.mem_ambiguousEntries_iff.2 ⟨e, he, hlt⟩, e, he, hv, hreach⟩
  · rintro ⟨r, hr, e, he, hv, hreach⟩ hsingle
    obtain ⟨e', he', hlt⟩ := Parsing.mem_ambiguousEntries_iff.1 hr
    obtain rfl := Option.some.inj (he'.symm.trans he)
    exact hlt.ne' (hsingle r e' hreach he hv)

theorem loops_ambiguousEntry : ∃ (p : Parsing) (r : Ref) (e : Entry), loops.build = .ok loopsGrammar ∧
    (Graph.ofGrammar loopsGrammar).parse [⟨"x", "x"⟩] = .ok p ∧ p.derivationCount = none ∧
      r ∈ p.chart.ambiguousEntries ∧ p.chart.entry? r = some e ∧ e.vertex.IsDerived ∧
        Relation.ReflTransGen p.Feeds p.accept r := by
  obtain ⟨p, hp, hcount⟩ := exists_parse_loops
  have hambiguous : p.isAmbiguous = true := by rw [Parsing.isAmbiguous, hcount]
  obtain ⟨r, hr, e, he, hv, hreach⟩ :=
    (isAmbiguous_iff_exists_ambiguousEntry build_loops hp).1.1 hambiguous
  exact ⟨p, r, e, build_loops, hp, hcount, hr, he, hv, hreach⟩

end GrammarFlow
