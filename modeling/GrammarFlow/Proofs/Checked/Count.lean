import GrammarFlow.Proofs.Checked.Walk
import GrammarFlow.Proofs.Derivation.Count
import Mathlib.Data.List.ReduceOption

namespace GrammarFlow.Checked

variable (p : Parsing)

/-- The term of an end, if there is an entry that called the non-terminal. -/
def returnTerm (e : Entry) (caller : Option Vertex) (ended : Ref) : Option (Option Term) := do
  let callee ← p.chart.entry? ended
  return do
    let v ← caller
    let r ← p.chart.find? callee.origin v e.origin
    return ⟨ended, some r⟩

def returnTerms (e : Entry) : Option (List Term) := do
  let caller ← predecessor p.graph e.vertex
  let terms ← e.antecedents.toList.mapM (returnTerm p e caller)
  return terms.reduceOption

def terms (r : Ref) : Option (Option (List Term)) := do
  let e ← p.chart.entry? r
  match ← read p.graph e.vertex with
  | .start _ => return none
  | .final _ => return some (Parsing.plainTerms e)
  | .item i => do
    let _ ← p.graph.grammar.production? i.production
    match i.previous? p.graph.grammar with
    | none => return none
    | some (.terminal _) => return some (Parsing.plainTerms e)
    | some (.nonTerminal _) => do
      let ts ← returnTerms p e
      return some ts

def countFrom : Nat → List (Ref × Bool) → Tally → Option (Option Tally)
  | _, [], t => some (some t)
  | 0, _ :: _, _ => some none
  | fuel + 1, (r, expanded) :: stack, t =>
    if t.isCounted r then countFrom fuel stack t
    else do
      let ts ← terms p r
      if expanded then
        let n := match ts with
          | none => 1
          | some terms => t.total terms
        countFrom fuel stack (t.setMark r (.counted n))
      else if t.mark r = .active then return none
      else
        let sources := ((ts.getD []).flatMap Term.refs).filter (!t.isCounted ·)
        countFrom fuel (sources.reverse.map (·, false) ++ (r, true) :: stack) (t.setMark r .active)

def derivationCount : Option (Option Nat) := do
  let t ← countFrom p p.countFuel [(p.accept, false)] (Tally.ofChart p.chart)
  return t.map (·.count p.accept)

def sortedKeys (c : Chart) (position : Nat) : Option (List Key) := do
  let s ← c.set? position
  return (s.entries.toList.map (·.key)).mergeSort fun a b => (Key.cmp a b).isLE

variable {p} {tokens : List Token} {r : Ref} {e : Entry} (hp : p.Accepts tokens)
include hp

theorem returnTerms_eq (he : p.chart.entry? r = some e) :
    returnTerms p e = some (p.returnTerms e) := by
  have hterm : ∀ ended ∈ e.antecedents.toList, returnTerm p e e.vertex.predecessor? ended =
      some (do
        let v ← e.vertex.predecessor?
        let callee ← p.chart.entry? ended
        let q ← p.chart.find? callee.origin v e.origin
        return ⟨ended, some q⟩) := by
    intro ended hended
    obtain ⟨term, rfl, hsup⟩ := (hp.sound.entry he).supported ended (Array.mem_toList_iff.1 hended)
    obtain ⟨k, hk⟩ := hsup.exists_key? term.source List.mem_cons_self
    obtain ⟨callee, hcallee, -⟩ := Chart.exists_entry?_of_key? hk
    simp only [returnTerm, hcallee]
    rfl
  rw [returnTerms, predecessor_eq hp.wellFormed (vertex_mem_of_entry hp he)]
  simp only [Option.bind_eq_bind, Option.bind_some, mapM_eq hterm]
  rw [List.reduceOption, List.filterMap_map]
  rfl

theorem terms_eq (he : p.chart.entry? r = some e) : terms p r = some (p.terms r) := by
  rw [terms, Parsing.terms, he]
  simp only [Option.bind_eq_bind, Option.bind_some, read_of_entry hp he, Parsing.termsOf]
  have hmem := vertex_mem_of_entry hp he
  cases hv : e.vertex with
  | start n => rfl
  | final n => rfl
  | item it =>
    rw [hv] at hmem
    obtain ⟨q, hq, -⟩ := Graph.exists_production_of_mem (G := p.graph) hp.wellFormed hmem
    simp only [hq, Option.bind_some, Parsing.grammar]
    cases it.previous? p.graph.grammar with
    | none => rfl
    | some symbol =>
      cases symbol with
      | terminal t => rfl
      | nonTerminal n =>
        simp only [returnTerms_eq hp he, Option.bind_some]
        rfl

theorem countFrom_eq (fuel : Nat) {stack : List (Ref × Bool)}
    (hstack : ∀ x ∈ stack, ∃ k, p.chart.key? x.1 = some k) (t : Tally) :
    countFrom p fuel stack t = some (p.countFrom fuel stack t) := by
  -- By induction on the fuel: what is put on the stack are entries again.
  induction fuel generalizing stack t with
  | zero =>
    cases stack with
    | nil => rw [countFrom, Parsing.countFrom]
    | cons x stack => rw [countFrom, Parsing.countFrom]
  | succ fuel ih =>
    cases stack with
    | nil => rw [countFrom, Parsing.countFrom]
    | cons x stack =>
      obtain ⟨r, expanded⟩ := x
      obtain ⟨k, hk⟩ := hstack _ List.mem_cons_self
      obtain ⟨e, he, -⟩ := Chart.exists_entry?_of_key? hk
      have hrest : ∀ x ∈ stack, ∃ k, p.chart.key? x.1 = some k := fun x hx =>
        hstack x (List.mem_cons_of_mem _ hx)
      rw [countFrom, Parsing.countFrom]
      split
      · exact ih hrest t
      · simp only [Option.bind_eq_bind, terms_eq hp he, Option.bind_some]
        split
        · exact ih hrest _
        · split
          · rfl
          · apply ih
            intro x hx
            rcases Parsing.Counting.mem_expanded hx with ⟨-, hfeeds⟩ | ⟨y, hy, hxy⟩
            · exact hp.exists_key?_of_feeds hfeeds
            · rw [hxy]
              rcases List.mem_cons.1 hy with rfl | hy
              · exact ⟨k, hk⟩
              · exact hrest y hy

theorem derivationCount_eq : derivationCount p = some p.derivationCount := by
  have hstack : ∀ x ∈ [(p.accept, false)], ∃ k, p.chart.key? x.1 = some k := by
    simp [hp.key?_accept]
  rw [derivationCount, countFrom_eq hp _ hstack, Parsing.derivationCount]
  cases p.countFrom p.countFuel [(p.accept, false)] (Tally.ofChart p.chart) with
  | none => rfl
  | some t => rfl

end GrammarFlow.Checked
