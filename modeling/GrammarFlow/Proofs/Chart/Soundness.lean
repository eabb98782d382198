import GrammarFlow.Derivation.Count
import GrammarFlow.Proofs.Chart.Deduction
import GrammarFlow.Proofs.Chart.Store
import Mathlib.Data.List.Nodup
import Mathlib.Data.List.ProdSigma

namespace GrammarFlow

/-- Entries in chart order. -/
instance : LT Ref where
  lt a b := a.position < b.position ∨ a.position = b.position ∧ a.index < b.index

namespace Ref

theorem lt_iff {a b : Ref} :
    a < b ↔ a.position < b.position ∨ a.position = b.position ∧ a.index < b.index := Iff.rfl

theorem lt_irrefl (a : Ref) : ¬a < a := by
  rw [lt_iff]
  omega

theorem not_lt_zero (a : Ref) : ¬a < ⟨0, 0⟩ := by
  rintro (h | ⟨-, h⟩)
  · exact Nat.not_lt_zero _ h
  · exact Nat.not_lt_zero _ h

end Ref

namespace Chart

variable {g : Grammar} {next : Nat → Option Nat} {c c' : Chart} {i : Nat} {k : Key} {term : Term}

/-- The moves of the deduction system between the entries of a chart: a term yields a key at a
position. -/
inductive Supports (g : Grammar) (next : Nat → Option Nat) (c : Chart) : Term → Nat → Key → Prop where
  | expand {a : Ref} {o : Nat} {p : Production} (ha : c.key? a = some ⟨.start p.lhs, o⟩)
    (hp : p ∈ g.productions) : Supports g next c ⟨a, none⟩ a.position ⟨.item ⟨p.id, 0⟩, o⟩
  | call {a : Ref} {o n : Nat} {it : Item} (ha : c.key? a = some ⟨.item it, o⟩)
    (hn : it.next? g = some (.nonTerminal n)) :
    Supports g next c ⟨a, none⟩ a.position ⟨.start n, a.position⟩
  | shift {a : Ref} {o t : Nat} {it : Item} (ha : c.key? a = some ⟨.item it, o⟩)
    (ht : it.next? g = some (.terminal t)) (hnext : next a.position = some t) :
    Supports g next c ⟨a, none⟩ (a.position + 1) ⟨.item it.advance, o⟩
  | exit {a : Ref} {o : Nat} {it : Item} {p : Production} (ha : c.key? a = some ⟨.item it, o⟩)
    (hp : g.production? it.production = some p) (hend : it.next? g = none) :
    Supports g next c ⟨a, none⟩ a.position ⟨.final p.lhs, o⟩
  | back {a q : Ref} {o n : Nat} {it : Item} (ha : c.key? a = some ⟨.final n, q.position⟩)
    (hq : c.key? q = some ⟨.item it, o⟩) (hn : it.next? g = some (.nonTerminal n)) :
    Supports g next c ⟨a, some q⟩ a.position ⟨.item it.advance, o⟩

namespace Supports

theorem mono (h : c.Supports g next term i k) (he : ∀ {r k}, c.key? r = some k → c'.key? r = some k) :
    c'.Supports g next term i k := by
  cases h with
  | expand ha hp => exact .expand (he ha) hp
  | call ha hn => exact .call (he ha) hn
  | shift ha ht hnext => exact .shift (he ha) ht hnext
  | exit ha hp hend => exact .exit (he ha) hp hend
  | back ha hq hn => exact .back (he ha) (he hq) hn

theorem of_refs (h : c.Supports g next term i k)
    (he : ∀ q ∈ term.refs, ∀ k, c.key? q = some k → c'.key? q = some k) :
    c'.Supports g next term i k := by
  cases h with
  | expand ha hp => exact .expand (he _ (by simp [Term.refs]) _ ha) hp
  | call ha hn => exact .call (he _ (by simp [Term.refs]) _ ha) hn
  | shift ha ht hnext => exact .shift (he _ (by simp [Term.refs]) _ ha) ht hnext
  | exit ha hp hend => exact .exit (he _ (by simp [Term.refs]) _ ha) hp hend
  | back ha hq hn =>
    exact .back (he _ (by simp [Term.refs]) _ ha) (he _ (by simp [Term.refs]) _ hq) hn

theorem deducible (h : c.Supports g next term i k)
    (hd : ∀ {r k}, c.key? r = some k → g.Deducible next r.position k) : g.Deducible next i k := by
  cases h with
  | expand ha hp => exact (hd ha).expand hp
  | call ha hn => exact (hd ha).call hn
  | shift ha ht hnext => exact (hd ha).shift ht hnext
  | exit ha hp hend => exact (hd ha).exit hp hend
  | back ha hq hn => exact (hd ha).back (hd hq) hn

theorem exists_key? (h : c.Supports g next term i k) : ∀ q ∈ term.refs, ∃ k, c.key? q = some k := by
  cases h with
  | expand ha hp => simp [Term.refs, ha]
  | call ha hn => simp [Term.refs, ha]
  | shift ha ht hnext => simp [Term.refs, ha]
  | exit ha hp hend => simp [Term.refs, ha]
  | back ha hq hn => simp [Term.refs, ha, hq]

theorem position_le (h : c.Supports g next term i k)
    (ho : ∀ {r k}, c.key? r = some k → k.origin ≤ r.position) :
    ∀ q ∈ term.refs, q.position ≤ i := by
  cases h with
  | expand ha hp => simp [Term.refs]
  | call ha hn => simp [Term.refs]
  | shift ha ht hnext => simp [Term.refs]
  | exit ha hp hend => simp [Term.refs]
  | back ha hq hn => simpa [Term.refs] using ho ha

end Supports

/-- An entry of a sound chart, at its address. -/
structure EntrySound (g : Grammar) (next : Nat → Option Nat) (c : Chart) (r : Ref) (e : Entry) :
    Prop where
  deducible : g.Deducible next r.position e.key
  nodup : e.antecedents.toList.Nodup
  supported : ∀ a ∈ e.antecedents, ∃ term, term.source = a ∧ c.Supports g next term r.position e.key
  /-- Only the seed begins without an antecedent; its callers come later. -/
  founded : (r = ⟨0, 0⟩ ∧ e.vertex = .start g.start) ∨
    ∃ term, e.antecedents[0]? = some term.source ∧
      c.Supports g next term r.position e.key ∧ ∀ q ∈ term.refs, q < r

structure Sound (g : Grammar) (next : Nat → Option Nat) (c : Chart) : Prop where
  consistent : c.Consistent
  entry : ∀ {r e}, c.entry? r = some e → c.EntrySound g next r e

theorem EntrySound.mono {r : Ref} {e : Entry} (h : c.EntrySound g next r e)
    (he : ∀ {r k}, c.key? r = some k → c'.key? r = some k) : c'.EntrySound g next r e where
  deducible := h.deducible
  nodup := h.nodup
  supported a ha := by
    obtain ⟨term, hs, hsup⟩ := h.supported a ha
    exact ⟨term, hs, hsup.mono he⟩
  founded := h.founded.imp_right fun ⟨term, hs, hsup, hlt⟩ => ⟨term, hs, hsup.mono he, hlt⟩

/-- A sound entry stays sound when an antecedent is added that yields it. -/
theorem EntrySound.link {r : Ref} {e : Entry} (h : c.EntrySound g next r e)
    (hsup : c.Supports g next term r.position e.key) :
    c.EntrySound g next r (e.link (some term.source)) where
  deducible := by
    rw [Entry.key_link]
    exact h.deducible
  nodup := Entry.nodup_link h.nodup _
  supported a ha := by
    rw [Entry.key_link]
    rcases Entry.mem_link.1 ha with ha | rfl
    · exact h.supported a ha
    · exact ⟨term, rfl, hsup⟩
  founded := by
    rw [Entry.key_link]
    refine h.founded.imp (And.imp_right (congrArg Key.vertex (e.key_link _)).trans) ?_
    rintro ⟨first, hfirst, hrest⟩
    exact ⟨first, Entry.getElem?_zero_link hfirst _, hrest⟩

namespace Sound

theorem deducible (hs : c.Sound g next) {r : Ref} (h : c.key? r = some k) :
    g.Deducible next r.position k := by
  obtain ⟨e, he, rfl⟩ := exists_entry?_of_key? h
  exact (hs.entry he).deducible

/-- The premises of a move are older than any entry that would be new. -/
theorem refs_lt (hg : g.WellFormed) (hs : c.Sound g next) (h : c.Supports g next term i k) :
    ∀ q ∈ term.refs, q < ⟨i, (c.set i).size⟩ := by
  intro q hq
  obtain ⟨kq, hkq⟩ := h.exists_key? q hq
  obtain ⟨e, he, -⟩ := exists_entry?_of_key? hkq
  have hlt := index_lt_of_entry he
  rcases Nat.lt_or_eq_of_le (h.position_le (fun hr => (hs.deducible hr).origin_le hg) q hq) with
    hp | hp
  · exact Or.inl hp
  · exact Or.inr ⟨hp, hp ▸ hlt⟩

theorem push (hg : g.WellFormed) (hs : c.Sound g next) (h : c.Supports g next term i k)
    (hi : i < c.size) : (c.push i k.vertex k.origin (some term.source)).Sound g next where
  consistent := hs.consistent.push hi
  entry {r e} hr := by
    have hext : Extends i c (c.push i k.vertex k.origin (some term.source)) :=
      extends_push hi (Nat.le_refl i)
    -- Only an entry that is new needs its first antecedent to be older; a link goes to the end.
    rcases entry?_push hs.consistent hi hr with hold | ⟨e', hold, rfl, hk, rfl⟩ | ⟨rfl, rfl⟩
    · exact (hs.entry hold).mono hext.key
    · have hsup : c.Supports g next term r.position e'.key := by
        rw [hk]
        exact h
      exact ((hs.entry hold).link hsup).mono hext.key
    · have hsup := h.mono hext.key
      refine ⟨h.deducible hs.deducible, by simp, ?_, Or.inr ⟨term, rfl, hsup, hs.refs_lt hg h⟩⟩
      intro a ha
      obtain rfl : a = term.source := by simpa using ha
      exact ⟨term, rfl, hsup⟩

theorem addCaller (hs : c.Sound g next) {r : Ref} {n : Nat} (hr : r.position < c.size) :
    (c.addCaller r n).Sound g next where
  consistent := hs.consistent.addCaller hr
  entry h := by
    rw [entry?_addCaller hr] at h
    exact (hs.entry h).mono (extends_addCaller hr).key

theorem addSet (hs : c.Sound g next) : c.addSet.Sound g next where
  consistent j := by
    rw [set_addSet]
    exact hs.consistent j
  entry {r e} h := by
    rw [entry?_addSet] at h
    refine (hs.entry h).mono fun hr => ?_
    rw [key?, entry?_addSet]
    exact hr

theorem size_le (hg : g.WellFormed) (hs : c.Sound g next) (i : Nat) :
    (c.set i).size ≤ g.vertices.size * (i + 1) := by
  -- The keys of a set do not repeat, and each is a vertex with an origin up to the position.
  have hnodup := (hs.consistent i).nodup_keys
  have hsub : (c.set i).keys ⊆
      (g.vertices.toList ×ˢ List.range (i + 1)).map fun x => ⟨x.1, x.2⟩ := by
    intro k hk
    obtain ⟨r, rfl, hr⟩ := mem_keys_iff.1 hk
    have hd := hs.deducible hr
    refine List.mem_map.2 ⟨(k.vertex, k.origin), List.mem_product.2 ⟨?_, ?_⟩, rfl⟩
    · exact Array.mem_toList_iff.2 (hd.vertex_mem hg)
    · exact List.mem_range.2 (Nat.lt_succ_of_le (hd.origin_le hg))
  have hle := hnodup.length_le_of_subset hsub
  rw [StateSet.length_keys, List.length_map, List.length_product, List.length_range] at hle
  exact hle

end Sound

end Chart

end GrammarFlow
