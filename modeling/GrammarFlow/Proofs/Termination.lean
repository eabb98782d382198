import GrammarFlow.Proofs.Derivation.Acyclic
import GrammarFlow.Proofs.WorkList

namespace GrammarFlow

namespace Chart.Fills

variable {G : Graph} {next : Option Nat} {i place : Nat} {c : Chart} {f f' : Filling}

theorem unique (h : Fills G next i place c f) (h' : Fills G next i place c f') : f = f' := by
  induction h generalizing f' with
  | done hend =>
    cases h' with
    | done => rfl
    | step hlt => exact absurd hlt (Nat.not_lt_of_le hend)
  | step hlt h ih =>
    cases h' with
    | done hend => exact absurd hlt (Nat.not_lt_of_le hend)
    | step _ h' => rw [ih h']

theorem processed_eq (h : Fills G next i place c f) :
    f.processed = (List.range' place f.processed.length).map (⟨i, ·⟩) := by
  induction h with
  | done hend => rfl
  | step hlt h ih =>
    rw [List.length_cons, List.range'_succ, List.map_cons, ← ih]

end Chart.Fills

/-- A run of the work list of position `i` has processed each entry of its set once. There are no more
of them than vertices and origins, in this set and in those before, and no origin lies ahead. -/
structure Filling.Exhausts (f : Filling) (G : Graph) (i : Nat) : Prop where
  processed_eq : f.processed = (List.range (f.chart.set i).size).map (⟨i, ·⟩)
  nodup_keys (j : Nat) : (f.chart.set j).keys.Nodup
  size_le (j : Nat) : (f.chart.set j).size ≤ G.size * (j + 1)
  origin_le (j : Nat) : ∀ k ∈ (f.chart.set j).keys, k.origin ≤ j

namespace Graph

open Chart

variable {G : Graph} {tokens rest : List Token} {seen : Array Token} {next : Option Nat} {here : Ref}
  {i : Nat} {c : Chart} {f : Filling} {fillings fillings' : List Filling} {r r' : Run}

/-- Parsing without any bound, with the runs of the work list that it makes one after another. -/
inductive Halts (G : Graph) : Array Token → Chart → List Token → List Filling → Run → Prop where
  | accepted {seen : Array Token} {c : Chart} {f : Filling} {accept : Ref}
    (h : Fills G none seen.size 0 c f)
    (hend : f.chart.find? seen.size (.final G.grammar.start) 0 = some accept) :
    Halts G seen c [] [f] ⟨.ok ⟨G, f.chart, seen, accept⟩, []⟩
  | unfinished {seen : Array Token} {c : Chart} {f : Filling} (h : Fills G none seen.size 0 c f)
    (hend : f.chart.find? seen.size (.final G.grammar.start) 0 = none) :
    Halts G seen c [] [f] ⟨.error (f.chart.failure G seen.size none), []⟩
  | blocked {seen : Array Token} {c : Chart} {f : Filling} {t : Token} {rest : List Token}
    (h : Fills G (G.grammar.terminalId? t.terminal) seen.size 0 c.addSet f)
    (hempty : (f.chart.set (seen.size + 1)).isEmpty = true) :
    Halts G seen c (t :: rest) [f] ⟨.error (f.chart.failure G seen.size (some t)), rest⟩
  | token {seen : Array Token} {c : Chart} {f : Filling} {t : Token} {rest : List Token}
    {fillings : List Filling} {r : Run}
    (h : Fills G (G.grammar.terminalId? t.terminal) seen.size 0 c.addSet f)
    (hseeded : (f.chart.set (seen.size + 1)).isEmpty = false)
    (hrest : Halts G (seen.push t) f.chart rest fillings r) :
    Halts G seen c (t :: rest) (f :: fillings) r

theorem Halts.unique (h : G.Halts seen c rest fillings r) (h' : G.Halts seen c rest fillings' r') :
    fillings = fillings' ∧ r = r' := by
  induction h generalizing fillings' with
  | accepted h hend =>
    cases h' with
    | accepted h' hend' =>
      obtain rfl := h.unique h'
      obtain rfl := Option.some.inj (hend.symm.trans hend')
      exact ⟨rfl, rfl⟩
    | unfinished h' hend' =>
      obtain rfl := h.unique h'
      cases hend.symm.trans hend'
  | unfinished h hend =>
    cases h' with
    | accepted h' hend' =>
      obtain rfl := h.unique h'
      cases hend.symm.trans hend'
    | unfinished h' hend' =>
      obtain rfl := h.unique h'
      exact ⟨rfl, rfl⟩
  | blocked h hempty =>
    cases h' with
    | blocked h' =>
      obtain rfl := h.unique h'
      exact ⟨rfl, rfl⟩
    | token h' hseeded =>
      obtain rfl := h.unique h'
      cases hempty.symm.trans hseeded
  | token h hseeded hrest ih =>
    cases h' with
    | blocked h' hempty =>
      obtain rfl := h.unique h'
      cases hempty.symm.trans hseeded
    | token h' _ hrest' =>
      obtain rfl := h.unique h'
      obtain ⟨rfl, rfl⟩ := ih hrest'
      exact ⟨rfl, rfl⟩

/-- There is one run of the work list for each position that is reached. -/
theorem Halts.length_eq (h : G.Halts seen c rest fillings r) :
    seen.size + fillings.length = r.reach + 1 := by
  induction h with
  | accepted => rfl
  | unfinished => rfl
  | blocked => rfl
  | token h hseeded hrest ih =>
    rw [Array.size_push] at ih
    rw [List.length_cons, ← ih, Nat.add_comm _ 1, Nat.add_assoc]

/-- Of a position that has just been reached the work list processes each entry once. -/
theorem Makes.exhausts (hg : G.grammar.WellFormed) (h : G.Makes tokens here f.chart)
    (hf : Fills G next i 0 c f) (hlength : f.processed.length = (f.chart.set i).size) :
    f.Exhausts G i := by
  have hs := (h.maintained hg).sound
  have hprocessed := hf.processed_eq
  rw [hlength, ← List.range_eq_range'] at hprocessed
  refine ⟨hprocessed, fun j => (hs.consistent j).nodup_keys, h.size_le hg, fun j k hk => ?_⟩
  obtain ⟨r, rfl, hr⟩ := Chart.mem_keys_iff.1 hk
  exact (hs.deducible hr).origin_le hg

theorem exhausts_cons (hf : f.Exhausts G i)
    (hrest : ∀ (k : Nat) (f' : Filling), fillings[k]? = some f' → f'.Exhausts G (i + 1 + k)) (k : Nat)
    (f' : Filling) (h : (f :: fillings)[k]? = some f') : f'.Exhausts G (i + k) := by
  cases k with
  | zero =>
    obtain rfl : f = f' := Option.some.inj h
    exact hf
  | succ k =>
    rw [Nat.add_comm k 1, ← Nat.add_assoc]
    exact hrest k f' h

theorem Makes.exists_halts (hg : G.grammar.WellFormed)
    (h : G.Makes tokens ⟨seen.size, 0⟩ (withRoom tokens seen.size c))
    (hrest : tokens.drop seen.size = rest) :
    ∃ fillings, G.Halts seen c rest fillings (G.readOn seen c rest) ∧
      ∀ (k : Nat) (f : Filling), fillings[k]? = some f → f.Exhausts G (seen.size + k) := by
  -- By induction on the tokens to come: each position is exhausted, and the next one follows if the
  -- token there has led on.
  induction rest generalizing seen c with
  | nil =>
    have hend : ¬seen.size < tokens.length := Nat.not_lt_of_le (List.drop_eq_nil_iff.1 hrest)
    rw [withRoom, if_neg hend] at h
    obtain ⟨f, hf, hlength, hclose, hmakes⟩ := h.exists_close hg
    have hexhausts := hmakes.exhausts hg hf hlength
    rw [coming_of_drop_eq_nil hrest] at hf hclose
    refine ⟨[f], ?_, exhausts_cons hexhausts fun k f' h => by cases h⟩
    rw [readOn, hclose]
    split
    · next hfind => exact .accepted hf hfind
    · next hfind => exact .unfinished hf hfind
  | cons t rest ih =>
    have hlt : seen.size < tokens.length := by
      by_contra hge
      rw [List.drop_eq_nil_of_le (Nat.le_of_not_lt hge)] at hrest
      cases hrest
    rw [withRoom, if_pos hlt] at h
    obtain ⟨f, hf, hlength, hclose, hmakes⟩ := h.exists_close hg
    have hexhausts := hmakes.exhausts hg hf hlength
    rw [coming_of_drop hrest] at hf hclose
    have hadvance : c.advance G seen.size t = f.chart := hclose
    cases hempty : (f.chart.set (seen.size + 1)).isEmpty with
    | true =>
      rw [readOn_of_isEmpty rfl (hadvance ▸ hempty), hadvance]
      exact ⟨[f], .blocked hf hempty, exhausts_cons hexhausts fun k f' h => by cases h⟩
    | false =>
      have hnext := hmakes.next (Nat.le_refl _) hlt
      rw [← Array.size_push t] at hnext
      obtain ⟨fillings, hhalts, hall⟩ := ih hnext (by
        rw [Array.size_push]
        exact drop_succ_of_drop hrest)
      rw [Array.size_push] at hall
      rw [readOn_of_not_isEmpty rfl (hadvance ▸ hempty), hadvance]
      exact ⟨f :: fillings, .token hf hempty hhalts, exhausts_cons hexhausts hall⟩

end Graph

/-- Whatever the grammar, to parse any tokens comes to an end, with no bound on its steps: the work list of
each position that is reached processes each entry of its set once, while it adds to them, and then
stops. There is one such run, and it is the one that the program makes. -/
theorem run_halts {d : Declaration} {G : Graph} (hg : d.build = .ok G.grammar) (tokens : List Token) :
    ∃ fillings, G.Halts #[] (Chart.seeded G) tokens fillings (G.run tokens) ∧
      (∀ fillings' r, G.Halts #[] (Chart.seeded G) tokens fillings' r →
        fillings' = fillings ∧ r = G.run tokens) ∧
      fillings.length = (G.run tokens).reach + 1 ∧
      ∀ (i : Nat) (f : Filling), fillings[i]? = some f → f.Exhausts G i := by
  have hwf : G.grammar.WellFormed := Declaration.wellFormed_of_build hg
  have hseeded : G.Makes tokens ⟨(#[] : Array Token).size, 0⟩
      (Graph.withRoom tokens (#[] : Array Token).size (Chart.seeded G)) := .seeded
  obtain ⟨fillings, hhalts, hall⟩ := hseeded.exists_halts hwf rfl
  have hlength := hhalts.length_eq
  rw [Array.size_empty, Nat.zero_add] at hlength
  refine ⟨fillings, hhalts, fun fillings' r h => h.unique hhalts, hlength, fun i f hf => ?_⟩
  have hexhausts := hall i f hf
  rwa [Array.size_empty, Nat.zero_add] at hexhausts

/-- Also where a symbol may stand for itself. -/
theorem loops_halts : loops.build = .ok (Graph.ofGrammar loopsGrammar).grammar ∧
    ∃ fillings, (Graph.ofGrammar loopsGrammar).Halts #[] (Chart.seeded (Graph.ofGrammar loopsGrammar))
        [⟨"x", "x"⟩] fillings ((Graph.ofGrammar loopsGrammar).run [⟨"x", "x"⟩]) ∧
      fillings.length = 2 ∧
      ∀ (i : Nat) (f : Filling), fillings[i]? = some f →
        f.Exhausts (Graph.ofGrammar loopsGrammar) i := by
  have hreach : ((Graph.ofGrammar loopsGrammar).run [⟨"x", "x"⟩]).reach = 1 := by decide +kernel
  obtain ⟨fillings, hhalts, -, hlength, hall⟩ :=
    run_halts (G := Graph.ofGrammar loopsGrammar) build_loops [⟨"x", "x"⟩]
  rw [hreach] at hlength
  exact ⟨build_loops, fillings, hhalts, hlength, hall⟩

end GrammarFlow
