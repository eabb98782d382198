import GrammarFlow.Proofs.Chart.Lookahead

namespace GrammarFlow

open Chart

/-- The last position whose set is complete when a run ends. -/
def Run.reach (r : Run) : Nat :=
  match r.outcome with
  | .ok p => p.tokens.size
  | .error f => f.position

/-- What a run reports about the tokens, and about the chart that it leaves behind. -/
structure Run.Reports (r : Run) (G : Graph) (tokens : List Token) (c : Chart) : Prop where
  accepted : ∀ p, r.outcome = .ok p → p.chart = c ∧ p.tokens.toList = tokens ∧ r.unread = []
  refused : ∀ f, r.outcome = .error f → f = c.failure G f.position tokens[f.position]? ∧
    r.unread = tokens.drop (f.position + 1)

namespace Graph

/-- The chart that is left behind by reading on from position `i`. -/
def chartOn (g : Graph) (i : Nat) (c : Chart) : List Token → Chart
  | [] => c.close g none i
  | t :: rest =>
    let c := c.advance g i t
    if (c.set (i + 1)).isEmpty then c else g.chartOn (i + 1) c rest

def chartOf (g : Graph) (tokens : List Token) : Chart := g.chartOn 0 (seeded g) tokens

variable {G : Graph} {tokens rest rest' pre pre' : List Token} {seen seen' : Array Token} {c : Chart}
  {t u : Token} {i j : Nat}

theorem readOn_of_isEmpty (hi : seen.size = i)
    (h : ((c.advance G i t).set (i + 1)).isEmpty = true) :
    G.readOn seen c (t :: rest) = ⟨.error ((c.advance G i t).failure G i (some t)), rest⟩ := by
  subst hi
  rw [readOn, if_pos h]

theorem readOn_of_not_isEmpty (hi : seen.size = i)
    (h : ((c.advance G i t).set (i + 1)).isEmpty = false) :
    G.readOn seen c (t :: rest) = G.readOn (seen.push t) (c.advance G i t) rest := by
  subst hi
  rw [readOn, if_neg (Bool.eq_false_iff.1 h)]

theorem chartOn_of_isEmpty (h : ((c.advance G i t).set (i + 1)).isEmpty = true) :
    G.chartOn i c (t :: rest) = c.advance G i t := by
  rw [chartOn, if_pos h]

theorem chartOn_of_not_isEmpty (h : ((c.advance G i t).set (i + 1)).isEmpty = false) :
    G.chartOn i c (t :: rest) = G.chartOn (i + 1) (c.advance G i t) rest := by
  rw [chartOn, if_neg (Bool.eq_false_iff.1 h)]

theorem advance_congr (h : t.terminal = u.terminal) : c.advance G i t = c.advance G i u := by
  rw [Chart.advance, h, Chart.advance]

theorem coming_of_drop {g : Grammar} (h : tokens.drop i = t :: rest) :
    g.coming tokens i = g.terminalId? t.terminal := by
  have htoken : tokens[i]? = some t := by
    rw [← Nat.add_zero i, ← List.getElem?_drop, h]
    rfl
  rw [Grammar.coming, htoken]
  rfl

theorem coming_of_drop_eq_nil {g : Grammar} (h : tokens.drop i = []) :
    g.coming tokens i = none := by
  rw [Grammar.coming, List.getElem?_eq_none (List.drop_eq_nil_iff.1 h)]
  rfl

theorem drop_succ_of_drop (h : tokens.drop i = t :: rest) : tokens.drop (i + 1) = rest := by
  rw [← List.drop_drop, h]
  rfl

theorem reports_readOn (htokens : seen.toList ++ rest = tokens) :
    (G.readOn seen c rest).Reports G tokens (G.chartOn seen.size c rest) := by
  subst htokens
  induction rest generalizing seen c with
  | nil =>
    have hfound : (seen.toList ++ [])[seen.size]? = none := List.getElem?_eq_none (by simp)
    have hunread : (seen.toList ++ []).drop (seen.size + 1) = [] :=
      List.drop_eq_nil_of_le (by simp)
    rw [readOn, chartOn]
    split
    · refine ⟨?_, fun _ h => (by cases h)⟩
      rintro _ ⟨⟩
      exact ⟨rfl, (List.append_nil _).symm, rfl⟩
    · refine ⟨fun _ h => (by cases h), ?_⟩
      rintro _ ⟨⟩
      exact ⟨congrArg (Chart.failure _ G seen.size) hfound.symm, hunread.symm⟩
  | cons t rest ih =>
    cases hempty : ((c.advance G seen.size t).set (seen.size + 1)).isEmpty with
    | true =>
      have hfound : (seen.toList ++ t :: rest)[seen.size]? = some t := by simp
      have hunread : (seen.toList ++ t :: rest).drop (seen.size + 1) = rest :=
        drop_succ_of_drop (List.drop_left' Array.length_toList)
      rw [readOn_of_isEmpty rfl hempty, chartOn_of_isEmpty hempty]
      refine ⟨fun _ h => (by cases h), ?_⟩
      rintro _ ⟨⟩
      exact ⟨congrArg (Chart.failure _ G seen.size) hfound.symm, hunread.symm⟩
    | false =>
      have hseen : (seen.push t).toList ++ rest = seen.toList ++ t :: rest := by
        rw [Array.toList_push, List.append_assoc, List.singleton_append]
      rw [readOn_of_not_isEmpty rfl hempty, chartOn_of_not_isEmpty hempty, ← hseen,
        ← Array.size_push]
      exact ih

theorem le_reach (hi : seen.size = i) : i ≤ (G.readOn seen c rest).reach := by
  induction rest generalizing seen c i with
  | nil =>
    rw [readOn]
    split <;> exact hi.ge
  | cons t rest ih =>
    cases hempty : ((c.advance G i t).set (i + 1)).isEmpty with
    | true =>
      rw [readOn_of_isEmpty hi hempty]
      exact Nat.le_refl _
    | false =>
      rw [readOn_of_not_isEmpty hi hempty]
      apply (Nat.le_succ i).trans
      apply ih
      rw [Array.size_push, hi]

section Sets

variable (hg : G.grammar.WellFormed)
include hg

/-- Whatever is still to come, the sets before a position stay as they are. -/
theorem set_chartOn (hc : c.Reached G.grammar (G.grammar.coming tokens) i)
    (hrest : tokens.drop i = rest) (hj : j < i) : (G.chartOn i c rest).set j = c.set j := by
  induction rest generalizing i c with
  | nil => exact hc.set_close hg (coming_of_drop_eq_nil hrest) hj
  | cons t rest ih =>
    have hcoming := coming_of_drop (g := G.grammar) hrest
    have hset := hc.set_advance hg hcoming hj
    cases hempty : ((c.advance G i t).set (i + 1)).isEmpty with
    | true => rw [chartOn_of_isEmpty hempty, hset]
    | false =>
      rw [chartOn_of_not_isEmpty hempty, ← hset]
      exact ih (hc.advance hg hcoming) (drop_succ_of_drop hrest) (Nat.lt_succ_of_lt hj)

theorem set_chartOn_of_le (hc : c.Reached G.grammar (G.grammar.coming tokens) i)
    (hrest : tokens.drop i = rest) (hj : j ≤ i) :
    (G.chartOn i c rest).set j = (c.close G none i).set j := by
  cases rest with
  | nil => rfl
  | cons t rest =>
    have hcoming := coming_of_drop (g := G.grammar) hrest
    have hset := (hc.agreeTo_advance hg hcoming).set_eq j hj
    cases hempty : ((c.advance G i t).set (i + 1)).isEmpty with
    | true => rw [chartOn_of_isEmpty hempty, hset]
    | false =>
      rw [chartOn_of_not_isEmpty hempty, ← hset]
      exact set_chartOn hg (hc.advance hg hcoming) (drop_succ_of_drop hrest)
        (Nat.lt_succ_of_le hj)

end Sets

def Alike : List Token → List Token → Prop := List.Forall₂ fun t u => t.terminal = u.terminal

theorem Alike.of_map_eq (h : pre.map Token.terminal = pre'.map Token.terminal) : Alike pre pre' :=
  List.forall₂_map_left_iff.1 (List.forall₂_map_right_iff.1 (h ▸ List.forall₂_same.2 fun _ _ => rfl))

/-- Two runs, and the charts that they leave, are the same up to position `m`: the second one completes
the sets that the first one completes, and fails where the first one fails. -/
structure Lockstep (m : Nat) (r r' : Run) (c c' : Chart) : Prop where
  set_eq : ∀ j ≤ m, j ≤ r.reach → j ≤ r'.reach ∧ c.set j = c'.set j
  refused : ∀ f, r.outcome = .error f → f.position < m →
    ∃ found, r'.outcome = .error { f with found }

/-- Behind the common terminals only the closing of one more position is common to the runs. -/
theorem lockstep_nil (hg : G.grammar.WellFormed) {tokens tokens' : List Token}
    (hi : seen.size = i) (hi' : seen'.size = i)
    (hc : c.Reached G.grammar (G.grammar.coming tokens) i)
    (hc' : c.Reached G.grammar (G.grammar.coming tokens') i)
    (hrest : tokens.drop i = rest) (hrest' : tokens'.drop i = rest') :
    Lockstep i (G.readOn seen c rest) (G.readOn seen' c rest')
      (G.chartOn i c rest) (G.chartOn i c rest') where
  set_eq j hj _ := by
    refine ⟨hj.trans (le_reach hi'), ?_⟩
    rw [set_chartOn_of_le hg hc hrest hj, set_chartOn_of_le hg hc' hrest' hj]
  refused f hf hlt := by
    have hle : i ≤ (G.readOn seen c rest).reach := le_reach hi
    rw [Run.reach, hf] at hle
    exact absurd hlt (Nat.not_lt_of_le hle)

theorem Alike.lockstep (h : Alike pre pre') (hg : G.grammar.WellFormed)
    {tokens tokens' : List Token} (hi : seen.size = i) (hi' : seen'.size = i)
    (hc : c.Reached G.grammar (G.grammar.coming tokens) i)
    (hc' : c.Reached G.grammar (G.grammar.coming tokens') i)
    (hrest : tokens.drop i = pre ++ rest) (hrest' : tokens'.drop i = pre' ++ rest') :
    Lockstep (i + pre.length) (G.readOn seen c (pre ++ rest)) (G.readOn seen' c (pre' ++ rest'))
      (G.chartOn i c (pre ++ rest)) (G.chartOn i c (pre' ++ rest')) := by
  -- By induction on the common terminals: before each of them the runs have one chart.
  induction h generalizing seen seen' c i with
  | nil => exact lockstep_nil hg hi hi' hc hc' hrest hrest'
  | @cons t u pre pre' htu _ ih =>
    have hsame : c.advance G i u = c.advance G i t := advance_congr htu.symm
    cases hempty : ((c.advance G i t).set (i + 1)).isEmpty with
    | true =>
      have hempty' : ((c.advance G i u).set (i + 1)).isEmpty = true := by rwa [hsame]
      rw [List.cons_append, List.cons_append, readOn_of_isEmpty hi hempty,
        readOn_of_isEmpty hi' hempty', chartOn_of_isEmpty hempty, chartOn_of_isEmpty hempty', hsame]
      refine ⟨fun j _ hreach => ⟨hreach, rfl⟩, ?_⟩
      rintro _ ⟨⟩ -
      exact ⟨some u, rfl⟩
    | false =>
      have hempty' : ((c.advance G i u).set (i + 1)).isEmpty = false := by rwa [hsame]
      have hnext := hc.advance hg (coming_of_drop hrest)
      have hnext' := hc'.advance hg (coming_of_drop hrest')
      rw [hsame] at hnext'
      rw [List.cons_append, List.cons_append, readOn_of_not_isEmpty hi hempty,
        readOn_of_not_isEmpty hi' hempty', chartOn_of_not_isEmpty hempty,
        chartOn_of_not_isEmpty hempty', hsame, List.length_cons, Nat.add_comm pre.length 1,
        ← Nat.add_assoc]
      exact ih (by rw [Array.size_push, hi]) (by rw [Array.size_push, hi']) hnext hnext'
        (drop_succ_of_drop hrest) (drop_succ_of_drop hrest')

theorem reports_run (G : Graph) (tokens : List Token) :
    (G.run tokens).Reports G tokens (G.chartOf tokens) := by
  have hseen : (#[] : Array Token).toList ++ tokens = tokens := rfl
  exact reports_readOn hseen

theorem Alike.lockstep_run (hg : G.grammar.WellFormed) (h : Alike pre pre')
    (rest rest' : List Token) :
    Lockstep pre.length (G.run (pre ++ rest)) (G.run (pre' ++ rest'))
      (G.chartOf (pre ++ rest)) (G.chartOf (pre' ++ rest')) := by
  have hsize : (#[] : Array Token).size = 0 := rfl
  have hrun := h.lockstep hg hsize hsize (reached_seeded G (G.grammar.coming (pre ++ rest)))
    (reached_seeded G (G.grammar.coming (pre' ++ rest'))) rfl rfl
  rwa [Nat.zero_add] at hrun

end Graph

theorem Run.Reports.found_eq {r : Run} {G : Graph} {tokens : List Token} {c : Chart}
    (h : r.Reports G tokens c) {f : ParseFailure} (hf : r.outcome = .error f) :
    f.found = tokens[f.position]? := congrArg ParseFailure.found (h.refused f hf).1

/-- Two streams of tokens with the same first `m` terminals, whatever their lexemes: the sets up to `m`
that a run completes are the same in the other one, and a failure before `m` meets both runs at one
position, with one expectation and each with its own token. No run asks for a token behind its failure,
nor leaves one behind if it accepts or finds the end. -/
theorem runs_lockstep {d : Declaration} {G : Graph} (hg : d.build = .ok G.grammar)
    {tokens tokens' : List Token} {m : Nat} (hm : m ≤ tokens.length)
    (h : (tokens.take m).map Token.terminal = (tokens'.take m).map Token.terminal) :
    (∀ j ≤ m, j ≤ (G.run tokens).reach → j ≤ (G.run tokens').reach ∧
      (G.chartOf tokens).set j = (G.chartOf tokens').set j) ∧
    (∀ f, G.parse tokens = .error f → f.position < m →
      ∃ t t', tokens[f.position]? = some t ∧ tokens'[f.position]? = some t' ∧ f.found = some t ∧
        G.parse tokens' = .error { f with found := some t' } ∧
          (G.run tokens).unread = tokens.drop (f.position + 1) ∧
            (G.run tokens').unread = tokens'.drop (f.position + 1)) ∧
    (∀ p, G.parse tokens = .ok p → p.chart = G.chartOf tokens ∧ (G.run tokens).unread = []) ∧
    ∀ f, G.parse tokens = .error f → f = (G.chartOf tokens).failure G f.position f.found ∧
      (f.found = none → (G.run tokens).unread = []) := by
  have hreports := Graph.reports_run G tokens
  have hreports' := Graph.reports_run G tokens'
  have hlength : (tokens.take m).length = m := List.length_take_of_le hm
  have hlength' : m ≤ tokens'.length := by
    have hsame := congrArg List.length h
    simp only [List.length_map, List.length_take] at hsame
    omega
  have hlock := (Graph.Alike.of_map_eq h).lockstep_run (Declaration.wellFormed_of_build hg)
    (tokens.drop m) (tokens'.drop m)
  rw [List.take_append_drop, List.take_append_drop, hlength] at hlock
  refine ⟨hlock.set_eq, fun f hf hlt => ?_, fun p hp => ?_, fun f hf => ?_⟩
  · obtain ⟨found, hf'⟩ := hlock.refused f hf hlt
    have htoken : tokens[f.position]? = some tokens[f.position] := List.getElem?_eq_getElem _
    have htoken' : tokens'[f.position]? = some tokens'[f.position] := List.getElem?_eq_getElem _
    have hfound' : found = tokens'[f.position]? := hreports'.found_eq hf'
    rw [hfound', htoken'] at hf'
    exact ⟨_, _, htoken, htoken', (hreports.found_eq hf).trans htoken, hf',
      (hreports.refused f hf).2, (hreports'.refused _ hf').2⟩
  · obtain ⟨hchart, -, hunread⟩ := hreports.accepted p hp
    exact ⟨hchart, hunread⟩
  · obtain ⟨hchart, hunread⟩ := hreports.refused f hf
    rw [← hreports.found_eq hf] at hchart
    refine ⟨hchart, fun hnone => ?_⟩
    rw [hreports.found_eq hf, List.getElem?_eq_none_iff] at hnone
    rw [hunread, List.drop_eq_nil_iff]
    omega

def doubledOperator (first second : String) (rest : List Token) : List Token :=
  ⟨first, "n"⟩ :: ⟨"+", "+"⟩ :: ⟨second, "+"⟩ :: rest

theorem doubledOperator_lockstep : ∃ f, sums.build = .ok (Graph.ofGrammar sumsGrammar).grammar ∧
    (Graph.ofGrammar sumsGrammar).parse (doubledOperator "1" "plus" [⟨"2", "n"⟩]) = .error f ∧
      f.position = 2 ∧
        (Graph.ofGrammar sumsGrammar).parse (doubledOperator "7" "+" []) =
          .error { f with found := some ⟨"+", "+"⟩ } ∧
            ((Graph.ofGrammar sumsGrammar).run
              (doubledOperator "1" "plus" [⟨"2", "n"⟩])).unread = [⟨"2", "n"⟩] := by
  have hposition : (match (Graph.ofGrammar sumsGrammar).parse
        (doubledOperator "1" "plus" [⟨"2", "n"⟩]) with
      | .error f => some f.position
      | .ok _ => none) = some 2 := by decide +kernel
  cases hf : (Graph.ofGrammar sumsGrammar).parse (doubledOperator "1" "plus" [⟨"2", "n"⟩]) with
  | ok p =>
    rw [hf] at hposition
    cases hposition
  | error f =>
    rw [hf] at hposition
    have htwo : f.position = 2 := Option.some.inj hposition
    have hlength : 3 ≤ (doubledOperator "1" "plus" [⟨"2", "n"⟩]).length := by decide
    have hsame : ((doubledOperator "1" "plus" [⟨"2", "n"⟩]).take 3).map Token.terminal =
      ((doubledOperator "7" "+" []).take 3).map Token.terminal := by decide
    have h := runs_lockstep (G := Graph.ofGrammar sumsGrammar) build_sums hlength hsame
    obtain ⟨t, t', -, ht', -, hparse, hunread, -⟩ := h.2.1 f hf (by omega)
    rw [htwo] at ht' hunread
    obtain rfl := Option.some.inj ht'
    exact ⟨f, build_sums, rfl, htwo, hparse, hunread⟩

end GrammarFlow
