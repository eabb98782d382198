import GrammarFlow.Proofs.Checked.Parse
import GrammarFlow.Proofs.Derivation.Walk

namespace GrammarFlow.Checked

variable (p : Parsing)

def decrement : Nat → Option Nat
  | 0 => none
  | n + 1 => some n

def span (low high : Nat) : Option Span :=
  if low ≤ high then some ⟨low, high⟩ else none

def predecessor (G : Graph) (v : Vertex) : Option (Option Vertex) := do
  match ← read G v with
  | .item it =>
    if it.dot = 0 then return none
    else do
      let number ← decrement (G.number v)
      return some (← G.vertex? number)
  | _ => return none

def enterNode (w : Walker) (r : Ref) (e : Entry) (nonTerminal : Nat) :
    Option (Except DerivationError (Option Event × Walker)) :=
  match p.firstAntecedent e r with
  | .error fault => some (.error fault)
  | .ok exit => do
    let source ← p.chart.entry? exit
    match ← read p.graph source.vertex with
    | .item i => do
      let s ← span e.origin r.position
      return .ok (some (.enter nonTerminal i.production s w.nextSlot),
        { w with current := some exit, opened := s :: w.opened, nextSlot := none })
    | _ => return .error (p.noAntecedent e r)

def retreat (w : Walker) (r : Ref) (e : Entry) (i : Item) :
    Option (Except DerivationError (Option Event × Walker)) :=
  match p.firstAntecedent e r with
  | .error fault => some (.error fault)
  | .ok a =>
    match i.previous? p.graph.grammar with
    | none => some (.error (p.noAntecedent e r))
    | some (.terminal t) => do
      let token ← decrement r.position
      let slot ← decrement i.dot
      return .ok (some (.leaf t token slot), { w with current := some a })
    | some (.nonTerminal _) => do
      match ← predecessor p.graph e.vertex with
      | none => return .error (p.noAntecedent e r)
      | some caller => do
        let slot ← decrement i.dot
        return .ok (none, { w with
          current := some a
          returns := ⟨caller, e.origin⟩ :: w.returns
          nextSlot := some slot })

def step (w : Walker) (r : Ref) : Option (Except DerivationError (Option Event × Walker)) := do
  let e ← p.chart.entry? r
  match ← read p.graph e.vertex with
  | .start _ => return p.returnFrom w r
  | .final n => enterNode p w r e n
  | .item i => do
    let _ ← p.graph.grammar.production? i.production
    match i.position p.graph.grammar with
    | .empty | .atStart => return p.reduceNode w r e i
    | .middle | .atEnd => retreat p w r e i

def next : Nat → Walker → Option (Option (Except DerivationError Event) × Walker)
  | 0, w => some (none, w)
  | fuel + 1, w =>
    match w.current with
    | none => some (none, w)
    | some r => do
      match ← step p w r with
      | .error fault => return (some (.error fault), { w with current := none })
      | .ok (some event, w') => return (some (.ok event), w')
      | .ok (none, w') => next fuel w'

def handAll {α : Type} (receive : α → Event → Except DerivationError α) (bound : Nat) :
    Nat → Walker → α → Option (Except DerivationError α)
  | 0, _, a => some (.ok a)
  | fuel + 1, w, a => do
    match ← next p bound w with
    | (none, _) => return .ok a
    | (some (.error fault), _) => return .error fault
    | (some (.ok event), w') =>
      match receive a event with
      | .error fault => return .error fault
      | .ok a => handAll receive bound fuel w' a

def walk : Option (Except DerivationError (List Event)) := do
  let events ← handAll p (fun events event => .ok (events.push event)) p.stepBound p.stepBound p.walker #[]
  return events.map (·.toList)

variable {p} {tokens : List Token} {r a q : Ref} {e source : Entry} {it : Item} {v : Vertex}
  {w w' : Walker}

theorem predecessor_eq {G : Graph} (hg : G.grammar.WellFormed) (hv : v ∈ G.grammar.vertices) :
    predecessor G v = some v.predecessor? := by
  rw [predecessor, read_eq hg hv]
  cases v with
  | start n => rfl
  | final n => rfl
  | item it =>
    obtain ⟨production, dot⟩ := it
    cases dot with
    | zero => rfl
    | succ dot =>
      obtain ⟨p, hp, hdot⟩ := Graph.exists_production_of_mem hg hv
      have hprevious : G.vertex? (G.number (.item ⟨production, dot⟩)) = some (.item ⟨production, dot⟩) :=
        Graph.vertex?_number hg (Graph.item_mem_vertices hg hp (Nat.le_of_succ_le hdot))
      have hnumber : G.number (.item ⟨production, dot + 1⟩) =
          G.number (.item ⟨production, dot⟩) + 1 := rfl
      simp only [Option.bind_eq_bind, Option.bind_some, hnumber, decrement, hprevious]
      rfl

section

variable (hp : p.Accepts tokens)
include hp

theorem vertex_mem_of_entry (he : p.chart.entry? r = some e) : e.vertex ∈ p.grammar.vertices :=
  (hp.deducible (Chart.key?_of_entry he)).vertex_mem hp.wellFormed

theorem read_of_entry (he : p.chart.entry? r = some e) : read p.graph e.vertex = some e.vertex :=
  read_eq hp.wellFormed (vertex_mem_of_entry hp he)

theorem exists_entry_of_firstAntecedent (he : p.chart.entry? r = some e)
    (ha : p.firstAntecedent e r = .ok a) : ∃ source, p.chart.entry? a = some source := by
  rw [Parsing.firstAntecedent] at ha
  split at ha
  · cases ha
  · next b hb =>
    obtain rfl := Except.ok.inj ha
    obtain ⟨term, rfl, hsup⟩ := (hp.sound.entry he).supported b (Array.mem_of_getElem? hb)
    obtain ⟨k, hk⟩ := hsup.exists_key? term.source (by simp [Term.refs])
    obtain ⟨source, hsource, -⟩ := Chart.exists_entry?_of_key? hk
    exact ⟨source, hsource⟩

theorem enterNode_eq (he : p.chart.entry? r = some e) (n : Nat) :
    enterNode p w r e n = some (p.enterNode w r e n) := by
  have horigin : e.origin ≤ r.position :=
    (hp.deducible (Chart.key?_of_entry he)).origin_le hp.wellFormed
  rw [enterNode, Parsing.enterNode]
  cases ha : p.firstAntecedent e r with
  | error fault => rfl
  | ok exit =>
    obtain ⟨⟨v, o, antecedents⟩, hsource⟩ := exists_entry_of_firstAntecedent hp he ha
    have hread : read p.graph v = some v := read_of_entry hp hsource
    simp only [hsource, Option.bind_eq_bind, Option.bind_some, hread]
    cases v with
    | start n => rfl
    | final n => rfl
    | item i =>
      simp only [span, if_pos horigin, Option.bind_some]
      rfl

theorem retreat_eq {s : Symbol} (he : p.chart.entry? r = some e) (hv : e.vertex = .item it.advance)
    (hs : it.next? p.grammar = some s) :
    retreat p w r e it.advance = some (p.retreat w r e it.advance) := by
  have hprevious : it.advance.previous? p.graph.grammar = some s := hs
  have hslot : decrement it.advance.dot = some it.dot := rfl
  have hdot : it.advance.dot - 1 = it.dot := rfl
  rw [retreat, Parsing.retreat]
  cases ha : p.firstAntecedent e r with
  | error fault => rfl
  | ok a =>
    simp only [hprevious]
    cases s with
    | terminal t =>
      have hr : p.chart.key? r = some ⟨.item it.advance, e.origin⟩ := by
        rw [← hv]
        exact Chart.key?_of_entry he
      obtain ⟨b, -, hposition, -⟩ := hp.moves_shift hr hs
      have htoken : decrement r.position = some (r.position - 1) := by
        rw [← hposition]
        rfl
      simp only [htoken, hslot, hdot, Option.bind_eq_bind, Option.bind_some]
      rfl
    | nonTerminal n =>
      rw [predecessor_eq hp.wellFormed (vertex_mem_of_entry hp he)]
      simp only [Option.bind_eq_bind, Option.bind_some]
      cases e.vertex.predecessor? with
      | none => rfl
      | some caller =>
        simp only [hslot, hdot, Option.bind_some]
        rfl

theorem step_eq {k : Key} (hr : p.chart.key? r = some k) : step p w r = some (p.step w r) := by
  obtain ⟨e, he, -⟩ := Chart.exists_entry?_of_key? hr
  simp only [step, Parsing.step, he, Option.bind_eq_bind, Option.bind_some, read_of_entry hp he]
  have hproduction : ∀ i, e.vertex = .item i → ∃ q, p.graph.grammar.production? i.production = some q := by
    intro i hv
    obtain ⟨q, hq, -⟩ := Graph.exists_production_of_mem (G := p.graph) hp.wellFormed
      (hv ▸ vertex_mem_of_entry hp he)
    exact ⟨q, hq⟩
  rcases hp.vertex_cases he with ⟨n, hv⟩ | ⟨production, hv⟩ | ⟨n, hv⟩ | ⟨it, s, hv, hs⟩
  · rw [hv]
    rfl
  · obtain ⟨q, hq⟩ := hproduction _ hv
    rw [hv]
    simp only [hq, Option.bind_some]
    rcases Item.position_eq_of_dot_eq_zero p.graph.grammar production with hz | hz <;>
      rw [hz] <;> rfl
  · rw [hv]
    exact enterNode_eq hp he n
  · obtain ⟨q, hq⟩ := hproduction _ hv
    have hretreat := retreat_eq hp (w := w) he hv hs
    rw [hv]
    simp only [hq, Option.bind_some]
    rcases Item.position_advance p.graph.grammar it hs with hz | hz <;> rw [hz] <;> exact hretreat

end

/-- The entry that comes next is in the chart. -/
def OnChart (p : Parsing) (w : Walker) : Prop := ∀ r, w.current = some r → ∃ k, p.chart.key? r = some k

section

variable (hp : p.Accepts tokens)
include hp

theorem onChart_step {event : Option Event} (hw : OnChart p w) (hr : w.current = some r)
    (hstep : p.step w r = .ok (event, w')) : OnChart p w' := by
  obtain ⟨k, hk⟩ := hw r hr
  intro q hq
  cases hp.turn hk hr ⟨r, hr, hstep⟩ with
  | enter he hfirst hr ha hlt => exact ⟨_, Option.some.inj hq ▸ ha⟩
  | reduce hr hs hlt => exact ⟨_, Option.some.inj hq ▸ hs⟩
  | shift hr ha hlt => exact ⟨_, Option.some.inj hq ▸ ha⟩
  | back hr ha hlt hfind hltq => exact ⟨_, Option.some.inj hq ▸ ha⟩
  | resume hr hfind hkey => exact ⟨_, Option.some.inj hq ▸ hkey⟩
  | finish hr => cases hq

theorem next_eq (fuel : Nat) (hw : OnChart p w) :
    next p fuel w = some (p.next fuel w) ∧ OnChart p (p.next fuel w).2 := by
  induction fuel generalizing w with
  | zero => exact ⟨rfl, hw⟩
  | succ fuel ih =>
    rw [next, Parsing.next]
    cases hr : w.current with
    | none => exact ⟨rfl, hw⟩
    | some r =>
      obtain ⟨k, hk⟩ := hw r hr
      simp only [step_eq hp hk, Option.bind_eq_bind, Option.bind_some]
      cases hstep : p.step w r with
      | error fault => exact ⟨rfl, fun q hq => by cases hq⟩
      | ok result =>
        obtain ⟨event, w'⟩ := result
        have hw' := onChart_step hp hw hr hstep
        cases event with
        | some event => exact ⟨rfl, hw'⟩
        | none => exact ih hw'

theorem handAll_eq {α : Type} (receive : α → Event → Except DerivationError α) (bound fuel : Nat) (x : α)
    (hw : OnChart p w) :
    handAll p receive bound fuel w x = some (p.handAll receive bound fuel w x) := by
  induction fuel generalizing w x with
  | zero => rfl
  | succ fuel ih =>
    obtain ⟨hnext, hw'⟩ := next_eq hp bound hw
    rw [handAll, Parsing.handAll, hnext]
    simp only [Option.bind_eq_bind, Option.bind_some]
    generalize p.next bound w = result at hw'
    obtain ⟨event, w'⟩ := result
    cases event with
    | none => rfl
    | some event =>
      cases event with
      | error fault => rfl
      | ok event =>
        dsimp only
        cases receive x event with
        | error fault => rfl
        | ok x => exact ih x hw'

theorem walk_eq : walk p = some p.walk := by
  have hw : OnChart p p.walker := fun r hr => Option.some.inj hr ▸ ⟨_, hp.key?_accept⟩
  rw [walk, handAll_eq hp _ _ _ _ hw]
  rfl

end

end GrammarFlow.Checked
