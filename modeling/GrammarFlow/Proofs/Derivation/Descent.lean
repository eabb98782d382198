import GrammarFlow.Proofs.Derivation.Runs
import GrammarFlow.Proofs.Derivation.Terms
import GrammarFlow.Proofs.Derivation.Traversal

namespace GrammarFlow

theorem Ref.lt_trans {a b c : Ref} (hab : a < b) (hbc : b < c) : a < c := by
  rw [Ref.lt_iff] at *
  omega

namespace Parsing

open DerivationTree

variable {p : Parsing} {r a q : Ref} {e : Entry} {it : Item} {w : Walker} {n o : Nat}

theorem step_final (he : p.chart.entry? r = some e) (hv : e.vertex = .final n) :
    p.step w r = p.enterNode w r e n := by
  rw [step, he]
  dsimp only
  rw [hv]

theorem step_start (he : p.chart.entry? r = some e) (hv : e.vertex = .start n) :
    p.step w r = p.returnFrom w r := by
  rw [step, he]
  dsimp only
  rw [hv]

theorem step_zero {production : Nat} (he : p.chart.entry? r = some e)
    (hv : e.vertex = .item ⟨production, 0⟩) : p.step w r = p.reduceNode w r e ⟨production, 0⟩ := by
  rw [step, he]
  dsimp only
  rw [hv]
  dsimp only
  rcases Item.position_eq_of_dot_eq_zero p.graph.grammar production with hz | hz <;>
    rw [hz]

theorem step_advance {s : Symbol} (he : p.chart.entry? r = some e) (hv : e.vertex = .item it.advance)
    (hs : it.next? p.grammar = some s) : p.step w r = p.retreat w r e it.advance := by
  rw [step, he]
  dsimp only
  rw [hv]
  dsimp only
  rcases Item.position_advance p.graph.grammar it hs with hz | hz <;> rw [hz]

theorem firstAntecedent_eq (hfirst : e.antecedents[0]? = some a) : p.firstAntecedent e r = .ok a := by
  rw [firstAntecedent, hfirst]

/-- At a start the walk returns to the call on top, wherever the chart has it. -/
theorem moves_start {point : ReturnPoint} {returns : List ReturnPoint} {opened : List Span}
    {slot : Option Nat} (hr : p.chart.key? r = some ⟨.start n, o⟩)
    (hfind : p.chart.find? r.position point.caller point.origin = some q) :
    p.Moves ⟨some r, point :: returns, opened, slot⟩ none ⟨some q, returns, opened, slot⟩ := by
  obtain ⟨e, he, hkey⟩ := Chart.exists_entry?_of_key? hr
  refine ⟨r, rfl, ?_⟩
  rw [step_start he (congrArg Key.vertex hkey), returnFrom]
  dsimp only
  rw [hfind]

theorem moves_root {opened : List Span} {slot : Option Nat}
    (hr : p.chart.key? r = some ⟨.start n, o⟩) :
    p.Moves ⟨some r, [], opened, slot⟩ none ⟨none, [], opened, slot⟩ := by
  obtain ⟨e, he, hkey⟩ := Chart.exists_entry?_of_key? hr
  refine ⟨r, rfl, ?_⟩
  rw [step_start he (congrArg Key.vertex hkey), returnFrom]

namespace Accepts

variable {tokens : List Token}

/-- Every entry but a start is first yielded by older ones. -/
theorem founded (h : p.Accepts tokens) (he : p.chart.entry? r = some e)
    (hv : ∀ n, e.vertex ≠ .start n) : ∃ term, e.antecedents[0]? = some term.source ∧
      p.chart.Supports p.grammar (p.grammar.coming tokens) term r.position e.key ∧
        ∀ q ∈ term.refs, q < r := by
  rcases (h.sound.entry he).founded with ⟨-, hn⟩ | hterm
  · exact absurd hn (hv _)
  · exact hterm

/-- From an end the walk enters a node and goes to the older complete item that yielded it first. -/
theorem moves_final (h : p.Accepts tokens) (hr : p.chart.key? r = some ⟨.final n, o⟩) :
    ∃ e a q, p.chart.entry? r = some e ∧ e.antecedents[0]? = some a ∧ a < r ∧
      a.position = r.position ∧ q ∈ p.grammar.productions ∧ q.lhs = n ∧
      p.chart.key? a = some ⟨.item ⟨q.id, q.rhs.length⟩, o⟩ ∧ ∀ returns opened slot,
        p.Moves ⟨some r, returns, opened, slot⟩ (some (.enter n q.id ⟨o, r.position⟩ slot))
          ⟨some a, returns, ⟨o, r.position⟩ :: opened, none⟩ := by
  obtain ⟨⟨v, o, antecedents⟩, he, hkey⟩ := Chart.exists_entry?_of_key? hr
  obtain ⟨rfl, rfl⟩ : v = .final n ∧ o = _ := Key.mk.inj hkey
  obtain ⟨term, hfirst, hsup, hlt⟩ := h.founded he fun m hm => by cases hm
  obtain ⟨a, q, rfl, hposition, hq, rfl, ha⟩ := h.supports_final_iff.1 hsup
  refine ⟨_, a, q, he, hfirst, hlt a (by simp [Term.refs]), hposition, hq, rfl, ha,
    fun returns opened slot => ?_⟩
  obtain ⟨⟨v, o', sources⟩, hsource, hkey⟩ := Chart.exists_entry?_of_key? ha
  obtain ⟨rfl, rfl⟩ : v = .item ⟨q.id, q.rhs.length⟩ ∧ o' = o := Key.mk.inj hkey
  refine ⟨r, rfl, ?_⟩
  rw [step_final he rfl, enterNode, firstAntecedent_eq hfirst]
  dsimp only
  rw [hsource]

/-- Before all symbols the walk leaves the node and goes to the start that the item was expanded from. -/
theorem moves_zero (h : p.Accepts tokens) {production : Nat}
    (hr : p.chart.key? r = some ⟨.item ⟨production, 0⟩, o⟩) :
    ∃ s m, s < r ∧ s.position = o ∧ p.chart.key? s = some ⟨.start m, o⟩ ∧
      ∀ returns span opened slot, p.Moves ⟨some r, returns, span :: opened, slot⟩
        (some (.reduce production span)) ⟨some s, returns, opened, slot⟩ := by
  obtain ⟨⟨v, o, antecedents⟩, he, hkey⟩ := Chart.exists_entry?_of_key? hr
  obtain ⟨rfl, rfl⟩ : v = .item ⟨production, 0⟩ ∧ o = _ := Key.mk.inj hkey
  obtain ⟨term, hfirst, hsup, hlt⟩ := h.founded he fun m hm => by cases hm
  obtain ⟨s, m, rfl, hs⟩ := Chart.supports_zero hsup
  have horigin : o = s.position := (h.deducible hs).start_origin
  refine ⟨s, m, hlt s (by simp [Term.refs]), horigin.symm, hs, fun returns span opened slot => ?_⟩
  refine ⟨r, rfl, ?_⟩
  rw [step_zero he rfl, reduceNode]
  dsimp only
  rw [firstAntecedent_eq hfirst]

theorem moves_shift (h : p.Accepts tokens) {t : Nat} (hr : p.chart.key? r = some ⟨.item it.advance, o⟩)
    (ht : it.next? p.grammar = some (.terminal t)) :
    ∃ a, a < r ∧ a.position + 1 = r.position ∧ p.chart.key? a = some ⟨.item it, o⟩ ∧
      p.grammar.coming tokens a.position = some t ∧ ∀ returns opened slot,
        p.Moves ⟨some r, returns, opened, slot⟩ (some (.leaf t a.position it.dot))
          ⟨some a, returns, opened, slot⟩ := by
  obtain ⟨⟨v, o, antecedents⟩, he, hkey⟩ := Chart.exists_entry?_of_key? hr
  obtain ⟨rfl, rfl⟩ : v = .item it.advance ∧ o = _ := Key.mk.inj hkey
  obtain ⟨term, hfirst, hsup, hlt⟩ := h.founded he fun m hm => by cases hm
  obtain ⟨a, rfl, hposition, ha, hnext⟩ := (Chart.supports_shift_iff ht).1 hsup
  refine ⟨a, hlt a (by simp [Term.refs]), hposition, ha, hnext, fun returns opened slot => ?_⟩
  have hprevious : it.advance.previous? p.graph.grammar = some (.terminal t) := ht
  refine ⟨r, rfl, ?_⟩
  rw [step_advance he rfl ht, retreat, firstAntecedent_eq hfirst]
  dsimp only
  rw [hprevious, ← hposition]
  rfl

/-- Behind a non-terminal the walk goes to its end; it will return to the item before the non-terminal,
which is older and stands where the callee began. -/
theorem moves_back (h : p.Accepts tokens) (hr : p.chart.key? r = some ⟨.item it.advance, o⟩)
    (hn : it.next? p.grammar = some (.nonTerminal n)) :
    ∃ a q, a < r ∧ q < r ∧ a.position = r.position ∧ p.chart.key? a = some ⟨.final n, q.position⟩ ∧
      p.chart.key? q = some ⟨.item it, o⟩ ∧ p.chart.find? q.position (.item it) o = some q ∧
        ∀ returns opened slot, p.Moves ⟨some r, returns, opened, slot⟩ none
          ⟨some a, ⟨.item it, o⟩ :: returns, opened, some it.dot⟩ := by
  obtain ⟨⟨v, o, antecedents⟩, he, hkey⟩ := Chart.exists_entry?_of_key? hr
  obtain ⟨rfl, rfl⟩ : v = .item it.advance ∧ o = _ := Key.mk.inj hkey
  obtain ⟨term, hfirst, hsup, hlt⟩ := h.founded he fun m hm => by cases hm
  obtain ⟨a, q, rfl, hposition, ha, hq⟩ := (Chart.supports_back_iff hn).1 hsup
  have hfind : p.chart.find? q.position (.item it) o = some q :=
    (h.sound.consistent.find?_iff (k := ⟨.item it, o⟩)).2 ⟨rfl, hq⟩
  refine ⟨a, q, hlt a (by simp [Term.refs]), hlt q (by simp [Term.refs]), hposition, ha, hq, hfind,
    fun returns opened slot => ?_⟩
  have hprevious : it.advance.previous? p.graph.grammar = some (.nonTerminal n) := hn
  refine ⟨r, rfl, ?_⟩
  rw [step_advance he rfl hn, retreat, firstAntecedent_eq hfirst]
  dsimp only
  rw [hprevious]
  rfl

end Accepts

/-- What a step over an accepted parse can do. All that it turns to is older, but for the caller that it
returns to from a start. -/
inductive Turn (p : Parsing) : Walker → Option Event → Walker → Prop where
  | enter {r a : Ref} {e : Entry} {n o production dot : Nat} {returns : List ReturnPoint}
    {opened : List Span} {slot : Option Nat} (he : p.chart.entry? r = some e)
    (hfirst : e.antecedents[0]? = some a) (hr : p.chart.key? r = some ⟨.final n, o⟩)
    (ha : p.chart.key? a = some ⟨.item ⟨production, dot⟩, o⟩) (hlt : a < r) :
    Turn p ⟨some r, returns, opened, slot⟩ (some (.enter n production ⟨o, r.position⟩ slot))
      ⟨some a, returns, ⟨o, r.position⟩ :: opened, none⟩
  | reduce {r s : Ref} {m o production : Nat} {returns : List ReturnPoint} {span : Span}
    {opened : List Span} {slot : Option Nat} (hr : p.chart.key? r = some ⟨.item ⟨production, 0⟩, o⟩)
    (hs : p.chart.key? s = some ⟨.start m, o⟩) (hlt : s < r) :
    Turn p ⟨some r, returns, span :: opened, slot⟩ (some (.reduce production span))
      ⟨some s, returns, opened, slot⟩
  | shift {r a : Ref} {o t : Nat} {it : Item} {returns : List ReturnPoint} {opened : List Span}
    {slot : Option Nat} (hr : p.chart.key? r = some ⟨.item it.advance, o⟩)
    (ha : p.chart.key? a = some ⟨.item it, o⟩) (hlt : a < r) :
    Turn p ⟨some r, returns, opened, slot⟩ (some (.leaf t a.position it.dot))
      ⟨some a, returns, opened, slot⟩
  | back {r a q : Ref} {n o : Nat} {it : Item} {returns : List ReturnPoint} {opened : List Span}
    {slot : Option Nat} (hr : p.chart.key? r = some ⟨.item it.advance, o⟩)
    (ha : p.chart.key? a = some ⟨.final n, q.position⟩) (hlt : a < r)
    (hfind : p.chart.find? q.position (.item it) o = some q) (hltq : q < r) :
    Turn p ⟨some r, returns, opened, slot⟩ none
      ⟨some a, ⟨.item it, o⟩ :: returns, opened, some it.dot⟩
  | resume {r q : Ref} {n : Nat} {point : ReturnPoint} {returns : List ReturnPoint} {opened : List Span}
    {slot : Option Nat} (hr : p.chart.key? r = some ⟨.start n, r.position⟩)
    (hfind : p.chart.find? r.position point.caller point.origin = some q)
    (hq : p.chart.key? q = some ⟨point.caller, point.origin⟩) :
    Turn p ⟨some r, point :: returns, opened, slot⟩ none ⟨some q, returns, opened, slot⟩
  | finish {r : Ref} {n o : Nat} {opened : List Span} {slot : Option Nat}
    (hr : p.chart.key? r = some ⟨.start n, o⟩) :
    Turn p ⟨some r, [], opened, slot⟩ none ⟨none, [], opened, slot⟩

namespace Accepts

variable {tokens : List Token} {w' : Walker} {event : Option Event}

theorem turn_start (h : p.Accepts tokens) (hr : p.chart.key? r = some ⟨.start n, o⟩)
    (hw : w.current = some r) (hmove : p.Moves w event w') : p.Turn w event w' := by
  obtain ⟨current, returns, opened, slot⟩ := w
  obtain rfl : current = some r := hw
  obtain rfl : o = r.position := (h.deducible hr).start_origin
  cases returns with
  | nil =>
    obtain ⟨rfl, rfl⟩ := hmove.unique (moves_root hr)
    exact .finish hr
  | cons point returns =>
    cases hfind : p.chart.find? r.position point.caller point.origin with
    | none =>
      obtain ⟨e, he, hkey⟩ := Chart.exists_entry?_of_key? hr
      obtain ⟨_, heq, hstep⟩ := hmove
      obtain rfl := Option.some.inj heq
      rw [step_start he (congrArg Key.vertex hkey), returnFrom] at hstep
      dsimp only at hstep
      rw [hfind] at hstep
      cases hstep
    | some q =>
      obtain ⟨rfl, rfl⟩ := hmove.unique (moves_start hr hfind)
      obtain ⟨-, hq⟩ := (h.sound.consistent.find?_iff (k := ⟨point.caller, point.origin⟩)).1 hfind
      exact .resume hr hfind hq

theorem turn_zero (h : p.Accepts tokens) {production : Nat}
    (hr : p.chart.key? r = some ⟨.item ⟨production, 0⟩, o⟩) (hw : w.current = some r)
    (hmove : p.Moves w event w') : p.Turn w event w' := by
  obtain ⟨current, returns, opened, slot⟩ := w
  obtain rfl : current = some r := hw
  cases opened with
  | nil =>
    obtain ⟨e, he, hkey⟩ := Chart.exists_entry?_of_key? hr
    obtain ⟨_, heq, hstep⟩ := hmove
    obtain rfl := Option.some.inj heq
    rw [step_zero he (congrArg Key.vertex hkey), reduceNode] at hstep
    cases hstep
  | cons span opened =>
    obtain ⟨s, m, hlt, -, hs, hstep⟩ := h.moves_zero hr
    obtain ⟨rfl, rfl⟩ := hmove.unique (hstep returns span opened slot)
    exact .reduce hr hs hlt

theorem turn (h : p.Accepts tokens) {k : Key} (hr : p.chart.key? r = some k) (hw : w.current = some r)
    (hmove : p.Moves w event w') : p.Turn w event w' := by
  obtain ⟨⟨v, o, antecedents⟩, he, rfl⟩ := Chart.exists_entry?_of_key? hr
  rcases h.vertex_cases he with ⟨n, rfl⟩ | ⟨production, rfl⟩ | ⟨n, rfl⟩ | ⟨it, s, rfl, hs⟩
  · exact h.turn_start hr hw hmove
  · exact h.turn_zero hr hw hmove
  · obtain ⟨e, a, q, he, hfirst, hlt, -, -, -, ha, hstep⟩ := h.moves_final hr
    obtain ⟨current, returns, opened, slot⟩ := w
    obtain rfl : current = some r := hw
    obtain ⟨rfl, rfl⟩ := hmove.unique (hstep returns opened slot)
    exact .enter he hfirst hr ha hlt
  · obtain ⟨current, returns, opened, slot⟩ := w
    obtain rfl : current = some r := hw
    cases s with
    | terminal t =>
      obtain ⟨a, hlt, -, ha, -, hstep⟩ := h.moves_shift hr hs
      obtain ⟨rfl, rfl⟩ := hmove.unique (hstep returns opened slot)
      exact .shift hr ha hlt
    | nonTerminal n =>
      obtain ⟨a, q, hlta, hltq, -, ha, -, hfind, hstep⟩ := h.moves_back hr hs
      obtain ⟨rfl, rfl⟩ := hmove.unique (hstep returns opened slot)
      exact .back hr ha hlta hfind hltq

end Accepts

mutual

/-- A node over the tokens from `low` on stands at its end, and the nodes below it at ends that are
older. -/
def Meets (p : Parsing) : DerivationTree → Nat → Ref → Prop
  | .leaf _, _, _ => True
  | .node q ts, low, r => p.chart.key? r = some ⟨.final q.lhs, low⟩ ∧
    r.position = low + (forestYield ts).length ∧ p.MeetsBelow ts low r

/-- The trees, over the tokens from `low` on, stand at entries that are older than `r`. -/
def MeetsBelow (p : Parsing) : List DerivationTree → Nat → Ref → Prop
  | [], _, _ => True
  | t :: ts, low, r => (∃ a, a < r ∧ p.Meets t low a) ∧ p.MeetsBelow ts (low + t.yield.length) r

end

variable {t : DerivationTree} {ts us : List DerivationTree} {low : Nat}

@[simp] theorem meetsBelow_nil : p.MeetsBelow [] low r ↔ True := by rw [MeetsBelow]

@[simp] theorem meetsBelow_cons : p.MeetsBelow (t :: ts) low r ↔
    (∃ a, a < r ∧ p.Meets t low a) ∧ p.MeetsBelow ts (low + t.yield.length) r := by
  rw [MeetsBelow]

theorem meetsBelow_append : p.MeetsBelow (ts ++ us) low r ↔
    p.MeetsBelow ts low r ∧ p.MeetsBelow us (low + (forestYield ts).length) r := by
  induction ts generalizing low with
  | nil => simp
  | cons t ts ih =>
    rw [List.cons_append, meetsBelow_cons, ih, meetsBelow_cons, forestYield_cons, List.length_append,
      Nat.add_assoc, and_assoc]

theorem MeetsBelow.mono (h : p.MeetsBelow ts low a) (hlt : a < r) : p.MeetsBelow ts low r := by
  induction ts generalizing low with
  | nil => exact meetsBelow_nil.2 trivial
  | cons t ts ih =>
    obtain ⟨⟨b, hb, ht⟩, hts⟩ := meetsBelow_cons.1 h
    exact meetsBelow_cons.2 ⟨⟨b, Ref.lt_trans hb hlt, ht⟩, ih hts⟩

theorem MeetsBelow.concat (h : p.MeetsBelow ts low r) (hlt : a < r)
    (ht : p.Meets t (low + (forestYield ts).length) a) : p.MeetsBelow (ts ++ [t]) low r :=
  meetsBelow_append.2 ⟨h, meetsBelow_cons.2 ⟨⟨a, hlt, ht⟩, meetsBelow_nil.2 trivial⟩⟩

end Parsing

end GrammarFlow
