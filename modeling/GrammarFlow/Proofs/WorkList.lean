import GrammarFlow.Proofs.Lockstep

namespace GrammarFlow

/-- A run of the work list: the entries that it processes, in this order, and the chart that it leaves. -/
structure Filling where
  processed : List Ref
  chart : Chart

namespace Chart

variable {G : Graph} {next : Option Nat} {i place : Nat} {c : Chart} {f : Filling}

/-- The work list of position `i` from `place` on, which ends behind the last entry and nowhere else. -/
inductive Fills (G : Graph) (next : Option Nat) (i : Nat) : Nat → Chart → Filling → Prop where
  | done {place : Nat} {c : Chart} (hend : (c.set i).size ≤ place) : Fills G next i place c ⟨[], c⟩
  | step {place : Nat} {c : Chart} {f : Filling} (hlt : place < (c.set i).size)
    (h : Fills G next i (place + 1) (c.process G next ⟨i, place⟩) f) :
    Fills G next i place c ⟨⟨i, place⟩ :: f.processed, f.chart⟩

namespace Fills

theorem size_le (h : Fills G next i place c f) :
    (f.chart.set i).size ≤ place + f.processed.length := by
  induction h with
  | done hend => exact hend
  | @step place c f hlt h ih =>
    calc (f.chart.set i).size ≤ place + 1 + f.processed.length := ih
      _ = place + (⟨i, place⟩ :: f.processed).length := by
        rw [List.length_cons, Nat.add_assoc, Nat.add_comm 1]

/-- The bound on the steps does not show as long as it allows for all of them. -/
theorem closeFrom_eq (h : Fills G next i place c f) {fuel : Nat} (hfuel : f.processed.length ≤ fuel) :
    closeFrom G next i fuel place c = f.chart := by
  induction h generalizing fuel with
  | done hend =>
    cases fuel with
    | zero => rfl
    | succ fuel => rw [closeFrom, if_neg (Nat.not_lt_of_le hend)]
  | step hlt h ih =>
    cases fuel with
    | zero => exact absurd hfuel (Nat.not_succ_le_zero _)
    | succ fuel =>
      rw [closeFrom, if_pos hlt]
      exact ih (Nat.le_of_succ_le_succ hfuel)

end Fills

end Chart

namespace Graph

open Chart

variable {G : Graph} {tokens rest : List Token} {c : Chart} {here : Ref} {i place : Nat}

/-- Before a token is read there is a set for the entries behind it. -/
def withRoom (tokens : List Token) (i : Nat) (c : Chart) : Chart :=
  if i < tokens.length then c.addSet else c

/-- The charts that are made over the tokens, each with the address of the next entry to process. -/
inductive Makes (G : Graph) (tokens : List Token) : Ref → Chart → Prop where
  | seeded : Makes G tokens ⟨0, 0⟩ (withRoom tokens 0 (seeded G))
  | process {here : Ref} {c : Chart} (h : Makes G tokens here c)
    (hlt : here.index < (c.set here.position).size) :
    Makes G tokens ⟨here.position, here.index + 1⟩
      (c.process G (G.grammar.coming tokens here.position) here)
  | next {i place : Nat} {c : Chart} (h : Makes G tokens ⟨i, place⟩ c)
    (hend : (c.set i).size ≤ place) (hi : i < tokens.length) :
    Makes G tokens ⟨i + 1, 0⟩ (withRoom tokens (i + 1) c)

/-- What holds of all charts that are made. -/
structure Maintained (G : Graph) (tokens : List Token) (here : Ref) (c : Chart) : Prop where
  sound : c.Sound G.grammar (G.grammar.coming tokens)
  saturated : c.Saturated G.grammar (G.grammar.coming tokens) here
  position_le : here.position ≤ tokens.length
  size_eq : c.size = min (here.position + 1) tokens.length + 1

theorem maintained_withRoom (hs : c.Sound G.grammar (G.grammar.coming tokens))
    (hsat : c.Saturated G.grammar (G.grammar.coming tokens) ⟨i, 0⟩) (hi : i ≤ tokens.length)
    (hsize : c.size = i + 1) : Maintained G tokens ⟨i, 0⟩ (withRoom tokens i c) := by
  unfold withRoom
  split
  · refine ⟨hs.addSet, hsat.addSet, hi, ?_⟩
    rw [size_addSet]
    dsimp only
    omega
  · refine ⟨hs, hsat, hi, ?_⟩
    dsimp only
    omega

namespace Maintained

theorem room (h : Maintained G tokens here c)
    (hcoming : G.grammar.coming tokens here.position ≠ none) : here.position + 1 < c.size := by
  have hlt : here.position < tokens.length := by
    by_contra hge
    apply hcoming
    rw [Grammar.coming, List.getElem?_eq_none (Nat.le_of_not_lt hge)]
    rfl
  rw [h.size_eq]
  omega

theorem process (hg : G.grammar.WellFormed) (h : Maintained G tokens here c)
    (hlt : here.index < (c.set here.position).size) :
    Maintained G tokens ⟨here.position, here.index + 1⟩
      (c.process G (G.grammar.coming tokens here.position) here) := by
  obtain ⟨e, he⟩ := exists_entry?_of_lt hlt
  have hk := key?_of_entry he
  have hprog := progress_process hg h.sound hk h.saturated h.room
  refine ⟨hprog.sound, saturated_process hg h.sound hk h.saturated h.room, h.position_le, ?_⟩
  rw [hprog.grows.size_eq, h.size_eq]

theorem next (h : Maintained G tokens ⟨i, place⟩ c) (hend : (c.set i).size ≤ place)
    (hi : i < tokens.length) : Maintained G tokens ⟨i + 1, 0⟩ (withRoom tokens (i + 1) c) := by
  apply maintained_withRoom h.sound (h.saturated.next_position hend) hi
  rw [h.size_eq]
  dsimp only
  omega

end Maintained

theorem Makes.maintained (hg : G.grammar.WellFormed) (h : G.Makes tokens here c) :
    Maintained G tokens here c := by
  induction h with
  | seeded =>
    have hseeded := reached_seeded G (G.grammar.coming tokens)
    exact maintained_withRoom hseeded.sound hseeded.saturated (Nat.zero_le _) hseeded.size_eq
  | process h hlt ih => exact ih.process hg hlt
  | next h hend hi ih => exact ih.next hend hi

/-- What the seed has, and what is kept by another set and by the processing of an entry, all charts on
the way have. -/
theorem Makes.preserves {P : Chart → Prop} (h : G.Makes tokens here c) (hseeded : P (Chart.seeded G))
    (haddSet : ∀ {c : Chart}, P c → P c.addSet)
    (hprocess : ∀ {here : Ref} {c : Chart} {k : Key}, G.Makes tokens here c → c.key? here = some k →
      P c → P (c.process G (G.grammar.coming tokens here.position) here)) : P c := by
  have hroom : ∀ {i c}, P c → P (withRoom tokens i c) := by
    intro i c hc
    unfold withRoom
    split
    · exact haddSet hc
    · exact hc
  induction h with
  | seeded => exact hroom hseeded
  | process h hlt ih =>
    obtain ⟨e, he⟩ := exists_entry?_of_lt hlt
    exact hprocess h (key?_of_entry he) ih
  | next h hend hi ih => exact hroom ih

/-- There are no more entries than vertices and origins, however they are reached. -/
theorem Makes.size_le (hg : G.grammar.WellFormed) (h : G.Makes tokens here c) (j : Nat) :
    (c.set j).size ≤ G.size * (j + 1) := by
  rw [Graph.size, G.vertices_eq]
  exact (h.maintained hg).sound.size_le hg j

/-- From any chart on the way the work list comes to an end: what goes down is the number of entries that
the set may still come to hold behind the cursor. -/
theorem Makes.exists_fills (hg : G.grammar.WellFormed) (h : G.Makes tokens ⟨i, place⟩ c)
    (hplace : place ≤ (c.set i).size) :
    ∃ f, Fills G (G.grammar.coming tokens i) i place c f ∧
      place + f.processed.length ≤ (f.chart.set i).size ∧
        G.Makes tokens ⟨i, place + f.processed.length⟩ f.chart := by
  induction hleft : G.size * (i + 1) - place using Nat.strong_induction_on generalizing place c with
  | _ left ih =>
    subst hleft
    rcases Nat.lt_or_ge place (c.set i).size with hlt | hge
    · have hbound := h.size_le hg i
      obtain ⟨e, he⟩ := exists_entry?_of_lt (c := c) (r := ⟨i, place⟩) hlt
      have hm := h.maintained hg
      have hprog := progress_process hg hm.sound (key?_of_entry he) hm.saturated hm.room
      have hgrows := hprog.grows.size_le i
      obtain ⟨f, hf, hsize, hmakes⟩ := ih (G.size * (i + 1) - (place + 1)) (by omega) (h.process hlt)
        (Nat.le_trans hlt hgrows) rfl
      rw [Nat.add_assoc, Nat.add_comm 1] at hsize hmakes
      exact ⟨_, .step hlt hf, hsize, hmakes⟩
    · exact ⟨_, .done hge, hplace, h⟩

/-- At a position that has just been reached the program's own loop makes the chart that the work list
leaves, as its bound allows for all the entries that there can be. -/
theorem Makes.exists_close (hg : G.grammar.WellFormed) (h : G.Makes tokens ⟨i, 0⟩ c) :
    ∃ f, Fills G (G.grammar.coming tokens i) i 0 c f ∧
      f.processed.length = (f.chart.set i).size ∧
        c.close G (G.grammar.coming tokens i) i = f.chart ∧
          G.Makes tokens ⟨i, (f.chart.set i).size⟩ f.chart := by
  obtain ⟨f, hf, hle, hmakes⟩ := h.exists_fills hg (Nat.zero_le _)
  have hge := hf.size_le
  rw [Nat.zero_add] at hle hge hmakes
  have hlength : f.processed.length = (f.chart.set i).size := Nat.le_antisymm hle hge
  rw [hlength] at hmakes
  have hfuel : f.processed.length ≤ G.size * (i + 1) := hlength.trans_le (hmakes.size_le hg i)
  exact ⟨f, hf, hlength, hf.closeFrom_eq hfuel, hmakes⟩

/-- The chart that a run leaves behind has been made, by induction on the tokens to come. -/
theorem Makes.chartOn (hg : G.grammar.WellFormed) (h : G.Makes tokens ⟨i, 0⟩ (withRoom tokens i c))
    (hrest : tokens.drop i = rest) : ∃ here, G.Makes tokens here (G.chartOn i c rest) := by
  induction rest generalizing i c with
  | nil =>
    have hend : ¬i < tokens.length := Nat.not_lt_of_le (List.drop_eq_nil_iff.1 hrest)
    rw [withRoom, if_neg hend] at h
    obtain ⟨f, -, -, hclose, hmakes⟩ := h.exists_close hg
    rw [coming_of_drop_eq_nil hrest] at hclose
    rw [Graph.chartOn, hclose]
    exact ⟨_, hmakes⟩
  | cons t rest ih =>
    have hi : i < tokens.length := by
      have hlength := congrArg List.length hrest
      rw [List.length_drop, List.length_cons] at hlength
      omega
    rw [withRoom, if_pos hi] at h
    obtain ⟨f, -, -, hclose, hmakes⟩ := h.exists_close hg
    rw [coming_of_drop hrest] at hclose
    have hadvance : c.advance G i t = f.chart := hclose
    cases hempty : ((c.advance G i t).set (i + 1)).isEmpty with
    | true =>
      rw [chartOn_of_isEmpty hempty, hadvance]
      exact ⟨_, hmakes⟩
    | false =>
      rw [chartOn_of_not_isEmpty hempty, hadvance]
      exact ih (hmakes.next (Nat.le_refl _) hi) (drop_succ_of_drop hrest)

theorem makes_chartOf (hg : G.grammar.WellFormed) (tokens : List Token) :
    ∃ here, G.Makes tokens here (G.chartOf tokens) :=
  Makes.seeded.chartOn hg rfl

end Graph

end GrammarFlow
