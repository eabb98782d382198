import GrammarFlow.Proofs.Chart.Saturation

namespace GrammarFlow.Chart

variable {G : Graph} {next : Nat → Option Nat} {c c' : Chart} {i j o n place : Nat} {k : Key}
  {term : Term} {here q : Ref}

theorem lt_succ_iff : q < ⟨here.position, here.index + 1⟩ ↔ q < here ∨ q = here := by
  obtain ⟨position, index⟩ := here
  obtain ⟨position', index'⟩ := q
  simp only [Ref.lt_iff, Ref.mk.injEq]
  omega

/-- What an extension of the chart holds up to an entry was there before. -/
theorem Extends.key_of_le {k' : Key} (h : Extends here.position c c') (hk : c.key? here = some k)
    (hq : c'.key? q = some k') (hle : q < here ∨ q = here) : c.key? q = some k' := by
  obtain ⟨e, he, -⟩ := exists_entry?_of_key? hk
  obtain ⟨e', he', -⟩ := exists_entry?_of_key? hq
  have hhere := index_lt_of_entry he
  have hindex := index_lt_of_entry he'
  refine h.key_of_lt hq ?_
  rcases hle with (hlt | ⟨hpos, hlt⟩) | rfl
  · rwa [h.set_eq _ hlt] at hindex
  · rw [hpos]
    omega
  · exact hhere

section Process

variable (hg : G.grammar.WellFormed) (hs : c.Sound G.grammar next) (hk : c.key? here = some k)
  (hsat : c.Saturated G.grammar next here)
  (hroom : next here.position ≠ none → here.position + 1 < c.size)
include hg hs hk hsat hroom

theorem progress_process :
    Progress G.grammar next here.position c (c.process G (next here.position) here) := by
  obtain ⟨v, o⟩ := k
  cases v with
  | start n => exact (progress_start hg hs hk).1
  | final n =>
    rw [process_of_final hk]
    exact (progress_complete hg hs hk fun place hp => (hsat.mem_callers_iff.1 hp).2).1
  | item it =>
    cases hn : it.next? G.grammar with
    | none =>
      obtain ⟨p, hp, -⟩ := (hs.deducible hk).exists_production hg
      exact (progress_exit hg hs hk hp hn).1
    | some s =>
      cases s with
      | terminal t => exact (progress_shift hg hs hk hn hroom).1
      | nonTerminal n => exact (progress_call hg hs hk hn).1

/-- To process an entry records every move that it completes: its own ones, and the returns in which it
is the caller or the end, whichever of the two comes second. -/
theorem linked_process {k' : Key} (hsup : c.Supports G.grammar next term i k')
    (hmem : here ∈ term.refs) (hle : ∀ q ∈ term.refs, q < here ∨ q = here) :
    (c.process G (next here.position) here).Linked term.source i k' := by
  cases hsup with
  | expand ha hp =>
    obtain rfl := List.mem_singleton.1 hmem
    exact (progress_start hg hs ha).2 _ hp rfl
  | call ha hn =>
    obtain rfl := List.mem_singleton.1 hmem
    exact (progress_call hg hs ha hn).2.1
  | shift ha ht hnext =>
    obtain rfl := List.mem_singleton.1 hmem
    exact (progress_shift hg hs ha ht hroom).2 hnext
  | exit ha hp hend =>
    obtain rfl := List.mem_singleton.1 hmem
    exact (progress_exit hg hs ha hp hend).2
  | @back a q o n it ha hq hn =>
    simp only [Term.refs, Option.toList_some, List.mem_cons, List.not_mem_nil, or_false] at hmem
    rcases hmem with rfl | rfl
    -- The end comes second, and finds the caller among the callers.
    · have hne : q ≠ here := by
        rintro rfl
        simp [hq] at ha
      have hlt : q < here := (hle q (by simp [Term.refs])).resolve_right hne
      have hcaller : q.index ∈ (c.set q.position).callers n :=
        hsat.mem_callers_iff.2 ⟨hlt, it, o, hq, hn⟩
      rw [process_of_final ha]
      exact (progress_complete hg hs ha fun place hp => (hsat.mem_callers_iff.1 hp).2).2
        q.index hcaller hq
    -- The caller comes second, so the end has no extent and stands in the set of the caller.
    · have hpos : a.position = here.position := by
        have hlow := (hs.deducible ha).origin_le hg
        have hhigh := hle a (by simp [Term.refs])
        rcases hhigh with (hlt | ⟨heq, -⟩) | rfl
        · exact absurd hlow (Nat.not_le_of_lt hlt)
        · exact heq
        · rfl
      rw [hpos]
      exact (progress_call hg hs hq hn).2.2 hpos ha

theorem saturated_process :
    (c.process G (next here.position) here).Saturated G.grammar next
      ⟨here.position, here.index + 1⟩ := by
  have hprog := progress_process hg hs hk hsat hroom
  have hback : ∀ {q k'}, (c.process G (next here.position) here).key? q = some k' →
      q < here ∨ q = here → c.key? q = some k' := hprog.grows.key_of_le hk
  constructor
  · intro term i k' hsup hle
    simp only [lt_succ_iff] at hle
    have hsup' := hsup.of_refs fun q hq k' hk' => hback hk' (hle q hq)
    -- A move that the entry takes no part in was recorded before.
    by_cases hmem : here ∈ term.refs
    · exact linked_process hg hs hk hsat hroom hsup' hmem hle
    · have hlt : ∀ q ∈ term.refs, q < here := fun q hq =>
        (hle q hq).resolve_right fun he => hmem (he ▸ hq)
      exact hprog.grows.linked (hsat.linked hsup' hlt)
  · intro j n place
    rw [mem_callers_process hk, hsat.mem_callers_iff, lt_succ_iff]
    constructor
    · rintro (⟨hlt, hw⟩ | ⟨heq, hw⟩)
      · exact ⟨Or.inl hlt, hw.mono hprog.grows⟩
      · rw [heq]
        exact ⟨Or.inr rfl, hw.mono hprog.grows⟩
    · rintro ⟨hle, it, o, hkey, hn⟩
      have hw : c.Waits G.grammar ⟨j, place⟩ n := ⟨it, o, hback hkey hle, hn⟩
      rcases hle with hlt | heq
      · exact Or.inl ⟨hlt, hw⟩
      · exact Or.inr ⟨heq, heq ▸ hw⟩

end Process

/-- The work list ends with all entries of its position processed, if the fuel is enough for as many
entries as the set can hold. -/
theorem closeFrom_spec (hg : G.grammar.WellFormed) {fuel : Nat} (hs : c.Sound G.grammar next)
    (hsat : c.Saturated G.grammar next ⟨i, place⟩) (hroom : next i ≠ none → i + 1 < c.size)
    (hfuel : G.size * (i + 1) ≤ fuel + place) :
    Progress G.grammar next i c (closeFrom G (next i) i fuel place c) ∧
      ∃ place', (closeFrom G (next i) i fuel place c).Saturated G.grammar next ⟨i, place'⟩ ∧
        ((closeFrom G (next i) i fuel place c).set i).size ≤ place' := by
  -- The fuel and the cursor together stay beyond all that the set can come to hold.
  have hbound : (c.set i).size ≤ fuel + place := by
    rw [Graph.size, G.vertices_eq] at hfuel
    exact (hs.size_le hg i).trans hfuel
  induction fuel generalizing place c with
  | zero =>
    rw [Nat.zero_add] at hbound
    exact ⟨⟨.refl i c, hs⟩, place, hsat, hbound⟩
  | succ fuel ih =>
    rw [closeFrom]
    split
    · next hlt =>
      obtain ⟨e, he⟩ := exists_entry?_of_lt (c := c) (r := ⟨i, place⟩) hlt
      have hk := key?_of_entry he
      have hprog := progress_process hg hs hk hsat hroom
      have hnext := saturated_process hg hs hk hsat hroom
      have hroom' : next i ≠ none → i + 1 < (c.process G (next i) ⟨i, place⟩).size := by
        rw [hprog.grows.size_eq]
        exact hroom
      have hfuel' : G.size * (i + 1) ≤ fuel + (place + 1) := by
        rwa [Nat.add_comm place 1, ← Nat.add_assoc]
      obtain ⟨hrest, hend⟩ := ih hprog.sound hnext hroom' hfuel'
        ((hprog.sound.size_le hg i).trans (by rwa [Graph.size, G.vertices_eq] at hfuel'))
      exact ⟨hprog.trans hrest, hend⟩
    · next hge => exact ⟨⟨.refl i c, hs⟩, place, hsat, Nat.le_of_not_lt hge⟩

theorem Saturated.next_position {g : Grammar} (h : c.Saturated g next ⟨i, place⟩)
    (hplace : (c.set i).size ≤ place) : c.Saturated g next ⟨i + 1, 0⟩ := by
  have hiff : ∀ {q k}, c.key? q = some k → (q < ⟨i + 1, 0⟩ ↔ q < ⟨i, place⟩) := by
    intro q k hq
    obtain ⟨e, he, -⟩ := exists_entry?_of_key? hq
    have hlt := index_lt_of_entry he
    simp only [Ref.lt_iff]
    constructor
    · intro hp
      rcases Nat.lt_or_eq_of_le (show q.position ≤ i by omega) with hp | hp
      · exact Or.inl hp
      · rw [hp] at hlt
        exact Or.inr ⟨hp, by omega⟩
    · omega
  constructor
  · intro term j k hsup hle
    refine h.linked hsup fun q hq => ?_
    obtain ⟨kq, hkq⟩ := hsup.exists_key? q hq
    exact (hiff hkq).1 (hle q hq)
  · intro j n place'
    rw [h.mem_callers_iff]
    refine and_congr_left ?_
    rintro ⟨it, o, hkey, -⟩
    exact (hiff hkey).symm

theorem close_spec (hg : G.grammar.WellFormed) (hs : c.Sound G.grammar next)
    (hsat : c.Saturated G.grammar next ⟨i, 0⟩) (hroom : next i ≠ none → i + 1 < c.size) :
    Progress G.grammar next i c (c.close G (next i) i) ∧
      (c.close G (next i) i).Saturated G.grammar next ⟨i + 1, 0⟩ := by
  obtain ⟨hprog, place, hend, hsize⟩ := closeFrom_spec hg hs hsat hroom (Nat.le_refl _)
  exact ⟨hprog, hend.next_position hsize⟩

/-- A saturated chart holds all that can be deduced before its cursor. -/
theorem Saturated.exists_key? {g : Grammar} (hg : g.WellFormed) (hsat : c.Saturated g next ⟨i, 0⟩)
    (hseed : ∃ r, r.position = 0 ∧ c.key? r = some ⟨.start g.start, 0⟩)
    (h : g.Deducible next j k) (hj : j < i) : ∃ r, r.position = j ∧ c.key? r = some k := by
  have hlink : ∀ {term : Term} {j k}, c.Supports g next term j k →
      (∀ q ∈ term.refs, q.position < i) → ∃ r, r.position = j ∧ c.key? r = some k := by
    intro term j k hsup hlt
    exact (hsat.linked hsup fun q hq => Or.inl (hlt q hq)).exists_key?
  induction h with
  | seed => exact hseed
  | expand h hp ih =>
    obtain ⟨a, rfl, ha⟩ := ih hj
    exact hlink (.expand ha hp) (by simpa [Term.refs] using hj)
  | call h hn ih =>
    obtain ⟨a, rfl, ha⟩ := ih hj
    exact hlink (.call ha hn) (by simpa [Term.refs] using hj)
  | shift h ht hnext ih =>
    obtain ⟨a, rfl, ha⟩ := ih (Nat.lt_of_succ_lt hj)
    exact hlink (.shift ha ht hnext) (by simpa [Term.refs] using Nat.lt_of_succ_lt hj)
  | exit h hp hend ih =>
    obtain ⟨a, rfl, ha⟩ := ih hj
    exact hlink (.exit ha hp hend) (by simpa [Term.refs] using hj)
  | back h hcall hn ih ihcall =>
    have hle := h.origin_le hg
    obtain ⟨a, rfl, ha⟩ := ih hj
    obtain ⟨q, rfl, hq⟩ := ihcall (Nat.lt_of_le_of_lt hle hj)
    exact hlink (.back ha hq hn) (by simpa [Term.refs] using ⟨hj, Nat.lt_of_le_of_lt hle hj⟩)

/-- The positions up to `i` have been closed, from the seed on. -/
structure ClosedTo (g : Grammar) (next : Nat → Option Nat) (i : Nat) (c : Chart) : Prop where
  sound : c.Sound g next
  saturated : c.Saturated g next ⟨i + 1, 0⟩
  seed : ∃ r, r.position = 0 ∧ c.key? r = some ⟨.start g.start, 0⟩

theorem ClosedTo.mem_keys_iff {g : Grammar} (hg : g.WellFormed) (h : c.ClosedTo g next i)
    (hj : j ≤ i) : k ∈ (c.set j).keys ↔ g.Deducible next j k := by
  rw [Chart.mem_keys_iff]
  constructor
  · rintro ⟨r, rfl, hr⟩
    exact h.sound.deducible hr
  · intro hd
    exact h.saturated.exists_key? hg h.seed hd (Nat.lt_succ_of_le hj)

end GrammarFlow.Chart
