import GrammarFlow.Proofs.Chart.History
import GrammarFlow.Proofs.Numbering
import Mathlib.Data.Finset.Insert

namespace GrammarFlow

/-- A set of entries with the links between places and antecedents that have been recorded. -/
structure LinkedSet extends StateSet where
  links : Finset (Nat × Ref) := ∅

namespace StateSet

variable {s : StateSet} {v : Vertex} {o place : Nat} {source : Option Ref} {e : Entry}

theorem push_of_entry (hf : s.find? v o = some place) (he : s.entries[place]? = some e) :
    s.push v o source = { s with entries := s.entries.setIfInBounds place (e.link source) } := by
  simp only [push, hf]
  congr 1
  apply Array.ext_getElem?
  intro j
  rw [Array.getElem?_modify, Array.getElem?_setIfInBounds]
  split
  · next hj => rw [← hj, he, if_pos (Array.getElem?_eq_some_iff.1 he).1, Option.map_some]
  · rfl

theorem set_entry (he : s.entries[place]? = some e) :
    { s with entries := s.entries.setIfInBounds place e } = s := by
  have hentries : s.entries.setIfInBounds place e = s.entries := by
    apply Array.ext_getElem?
    intro j
    rw [Array.getElem?_setIfInBounds]
    split
    · next hj => rw [← hj, he, if_pos (Array.getElem?_eq_some_iff.1 he).1]
    · rfl
  rw [hentries]

end StateSet

namespace LinkedSet

/-- Enters a key, or records a link that is new. The answer is the place of the entry and whether it is
new; there is none if the place of the key holds no entry. -/
def push (s : LinkedSet) (vertex : Vertex) (origin : Nat) (source : Option Ref) :
    Option ((Nat × Bool) × LinkedSet) :=
  match s.find? vertex origin with
  | some place =>
    match source with
    | none => some ((place, false), s)
    | some a =>
      if (place, a) ∈ s.links then some ((place, false), s)
      else do
        let e ← s.entries[place]?
        return ((place, false),
          { s with
            entries := s.entries.setIfInBounds place { e with antecedents := e.antecedents.push a }
            links := insert (place, a) s.links })
  | none =>
    let place := s.entries.size
    some ((place, true),
      { s with
        entries := s.entries.push ⟨vertex, origin, source.toArray⟩
        places := s.places.insert ⟨vertex, origin⟩ place
        links := source.elim s.links fun a => insert (place, a) s.links })

def Exact (s : LinkedSet) : Prop :=
  ∀ place a, (place, a) ∈ s.links ↔ ∃ e, s.entries[place]? = some e ∧ a ∈ e.antecedents

variable {s : LinkedSet} {v : Vertex} {o place : Nat} {source : Option Ref} {e : Entry} {a : Ref}

theorem exact_empty : ({} : LinkedSet).Exact := by
  simp [Exact]

/-- A push does what it does without the links, and they stay those of the entries. -/
theorem push_spec (hs : s.Consistent) (hl : s.Exact) (v : Vertex) (o : Nat) (source : Option Ref) : ∃ s',
    s.push v o source = some (((s.find? v o).getD s.size, (s.find? v o).isNone), s') ∧
      s'.toStateSet = s.toStateSet.push v o source ∧ s'.Exact := by
  cases hf : s.find? v o with
  | none =>
    refine ⟨_, by simp only [push, hf]; rfl, by simp only [StateSet.push, hf], fun place b => ?_⟩
    rw [Array.getElem?_push]
    by_cases hplace : place = s.entries.size
    · subst hplace
      have hnew : (s.entries.size, b) ∉ s.links := by
        rw [hl, Array.getElem?_eq_none (Nat.le_refl _)]
        simp
      rw [if_pos rfl]
      cases source <;> simp [hnew]
    · rw [if_neg hplace, ← hl]
      cases source <;> simp [hplace]
  | some place =>
    obtain ⟨e, he, -⟩ := Option.map_eq_some_iff.1 ((hs ⟨v, o⟩ place).1 hf)
    rw [StateSet.push_of_entry hf he]
    cases source with
    | none => exact ⟨s, by simp only [push, hf]; rfl, by rw [Entry.link, StateSet.set_entry he], hl⟩
    | some a =>
      by_cases ha : (place, a) ∈ s.links
      · obtain ⟨e', he', hmem⟩ := (hl place a).1 ha
        obtain rfl := Option.some.inj (he.symm.trans he')
        refine ⟨s, by simp only [push, hf, if_pos ha]; rfl, ?_, hl⟩
        rw [Entry.link, if_pos (Array.contains_iff_mem.2 hmem), StateSet.set_entry he]
      · have hnew : a ∉ e.antecedents := fun hmem => ha ((hl place a).2 ⟨e, he, hmem⟩)
        refine ⟨_, by simp only [push, hf, if_neg ha, he]; rfl, ?_, fun q b => ?_⟩
        · rw [Entry.link, if_neg (mt Array.contains_iff_mem.1 hnew)]
        · rw [Finset.mem_insert, hl q b, Array.getElem?_setIfInBounds]
          by_cases hq : place = q
          · subst hq
            rw [if_pos rfl, if_pos (Array.getElem?_eq_some_iff.1 he).1, he]
            simp [or_comm]
          · rw [if_neg hq]
            simp [Ne.symm hq]

end LinkedSet

/-- The order of the keys is that of the numbers of a graph that has their vertices. -/
theorem Chart.Consistent.pairwise_number_sortedKeys {c : Chart} {i : Nat} {G : Graph}
    (hc : c.Consistent) (hg : G.grammar.WellFormed)
    (hv : ∀ k ∈ (c.set i).keys, k.vertex ∈ G.grammar.vertices) :
    (c.sortedKeys i).Pairwise fun k k' => G.number k.vertex < G.number k'.vertex ∨
      G.number k.vertex = G.number k'.vertex ∧ k.origin < k'.origin := by
  have hvertex : ∀ k ∈ c.sortedKeys i, k.vertex ∈ G.grammar.vertices :=
    fun k hk => hv k ((Chart.sortedKeys_perm c i).mem_iff.1 hk)
  refine (hc.pairwise_sortedKeys i).imp_of_mem fun {k k'} hk hk' hlt => ?_
  rcases Key.cmp_eq_lt_iff.1 hlt with hbefore | ⟨heq, ho⟩
  · exact .inl ((Graph.number_lt_number_iff hg (hvertex k hk) (hvertex k' hk')).2 hbefore)
  · exact .inr ⟨by rw [heq], ho⟩

structure LinkedChart where
  sets : Array LinkedSet

namespace LinkedChart

def initial : LinkedChart := ⟨#[{}]⟩

def addSet (x : LinkedChart) : LinkedChart := ⟨x.sets.push {}⟩

/-- The answer is the address of the entry and whether it is new. -/
def push (x : LinkedChart) (position : Nat) (vertex : Vertex) (origin : Nat) (source : Option Ref) :
    Option ((Ref × Bool) × LinkedChart) := do
  let s ← x.sets[position]?
  let ((place, new), s) ← s.push vertex origin source
  return ((⟨position, place⟩, new), ⟨x.sets.setIfInBounds position s⟩)

def addCaller (x : LinkedChart) (r : Ref) (nonTerminal : Nat) : Option LinkedChart := do
  let s ← x.sets[r.position]?
  return ⟨x.sets.setIfInBounds r.position { s with toStateSet := s.addCaller nonTerminal r.index }⟩

def update? (x : LinkedChart) : Update → Option LinkedChart
  | .addSet => some x.addSet
  | .push position vertex origin source => (x.push position vertex origin source).map (·.2)
  | .addCaller caller nonTerminal => x.addCaller caller nonTerminal

/-- The chart after all the updates, if each of them has a set for its position. -/
def replay? (updates : List Update) : Option LinkedChart := updates.foldlM update? initial

def chart (x : LinkedChart) : Chart := ⟨x.sets.map (·.toStateSet)⟩

def Exact (x : LinkedChart) : Prop := ∀ (i : Nat) (s : LinkedSet), x.sets[i]? = some s → s.Exact

variable {x : LinkedChart} {i o : Nat} {v : Vertex} {source : Option Ref} {s : LinkedSet} {u : Update}
  {updates before after : List Update}

theorem set_chart (h : x.sets[i]? = some s) : x.chart.set i = s.toStateSet := by
  rw [Chart.set, Chart.set?, chart, Array.getElem?_map, h]
  rfl

theorem exists_set (hi : i < x.chart.size) : ∃ s, x.sets[i]? = some s := by
  rw [Chart.size, chart, Array.size_map] at hi
  exact ⟨_, Array.getElem?_eq_getElem hi⟩

theorem chart_setIfInBounds {s' : LinkedSet} {f : StateSet → StateSet} (h : x.sets[i]? = some s)
    (hs : s'.toStateSet = f s.toStateSet) :
    chart ⟨x.sets.setIfInBounds i s'⟩ = ⟨x.chart.sets.modify i f⟩ := by
  simp only [chart, Chart.mk.injEq]
  apply Array.ext_getElem?
  intro j
  rw [Array.getElem?_map, Array.getElem?_setIfInBounds, Array.getElem?_modify, Array.getElem?_map]
  split
  · next hj =>
    subst hj
    rw [if_pos (Array.getElem?_eq_some_iff.1 h).1, h, Option.map_some, Option.map_some, Option.map_some, hs]
  · rfl

theorem Exact.setIfInBounds (hx : x.Exact) (hs : s.Exact) : Exact ⟨x.sets.setIfInBounds i s⟩ := by
  intro j s' hj
  rw [Array.getElem?_setIfInBounds] at hj
  split at hj
  · split at hj
    · obtain rfl := Option.some.inj hj
      exact hs
    · cases hj
  · exact hx j s' hj

theorem chart_initial : initial.chart = Chart.initial := by
  simp [chart, initial, Chart.initial]

theorem exact_initial : initial.Exact := by
  intro i s hs
  obtain rfl := Array.mem_singleton.1 (Array.mem_of_getElem? hs)
  exact LinkedSet.exact_empty

theorem Exact.addSet (hx : x.Exact) : x.addSet.Exact := by
  intro i s hs
  rw [LinkedChart.addSet, Array.getElem?_push] at hs
  split at hs
  · obtain rfl := Option.some.inj hs
    exact LinkedSet.exact_empty
  · exact hx i s hs

/-- The answer to a push is where its key is, or else the next place of the set. -/
theorem push_spec (hc : x.chart.Consistent) (hx : x.Exact) (hi : i < x.chart.size) (v : Vertex) (o : Nat)
    (source : Option Ref) : ∃ x',
    x.push i v o source = some (((x.chart.find? i v o).getD ⟨i, (x.chart.set i).size⟩,
        (x.chart.find? i v o).isNone), x') ∧
      x'.chart = x.chart.push i v o source ∧ x'.Exact := by
  obtain ⟨s, hs⟩ := exists_set hi
  have hconsistent : s.Consistent := set_chart hs ▸ hc i
  obtain ⟨s', hpush, hset, hexact⟩ :=
    LinkedSet.push_spec hconsistent (hx i s hs) v o source
  refine ⟨⟨x.sets.setIfInBounds i s'⟩, ?_, chart_setIfInBounds hs hset, hx.setIfInBounds hexact⟩
  rw [push, hs, Chart.find?_eq, set_chart hs]
  simp only [Option.bind_eq_bind, Option.bind_some, hpush]
  cases s.find? v o <;> rfl

theorem update?_spec (hc : x.chart.Consistent) (hx : x.Exact) (hu : u.Fits x.chart.size) :
    ∃ x', x.update? u = some x' ∧ x'.chart = u.apply x.chart ∧ x'.Exact := by
  cases u with
  | addSet => exact ⟨x.addSet, rfl, congrArg Chart.mk Array.map_push, hx.addSet⟩
  | push position vertex origin source =>
    obtain ⟨x', hpush, hchart, hexact⟩ := push_spec hc hx hu vertex origin source
    exact ⟨x', by rw [update?, hpush]; rfl, hchart, hexact⟩
  | addCaller caller nonTerminal =>
    obtain ⟨s, hs⟩ := exists_set hu
    refine ⟨_, by rw [update?, addCaller, hs]; rfl, chart_setIfInBounds hs rfl, hx.setIfInBounds ?_⟩
    exact hx _ s hs

theorem replay?_concat :
    replay? (updates ++ [u]) = (replay? updates).bind fun x => x.update? u := by
  rw [replay?, List.foldlM_append]
  simp only [List.foldlM_cons, List.foldlM_nil, bind_pure]
  rfl

theorem exists_replay (h : Update.AllFit 1 updates) :
    ∃ x, replay? updates = some x ∧ x.Exact ∧ x.chart = Chart.replay updates ∧
      x.chart.Recorded updates := by
  induction updates using List.reverseRecOn with
  | nil => exact ⟨initial, rfl, exact_initial, chart_initial, chart_initial ▸ Chart.recorded_initial⟩
  | append_singleton updates u ih =>
    obtain ⟨hfits, hu, -⟩ := Update.allFit_append.1 h
    obtain ⟨x, hx, hexact, hchart, hrecorded⟩ := ih hfits
    have hu : u.Fits x.chart.size := by
      rwa [hrecorded.size_eq, Nat.add_comm]
    obtain ⟨x', hx', hchart', hexact'⟩ := update?_spec hrecorded.consistent hexact hu
    refine ⟨x', ?_, hexact', ?_, hchart' ▸ hrecorded.apply hu⟩
    · rw [replay?_concat, hx, Option.bind_some, hx']
    · rw [hchart', hchart, Chart.replay, Chart.replay, List.foldl_concat]

theorem fits_of_update? {x' : LinkedChart} (h : x.update? u = some x') : u.Fits x.chart.size := by
  have hlt : ∀ {i s}, x.sets[i]? = some s → i < x.chart.size := by
    intro i s hs
    rw [Chart.size, chart, Array.size_map]
    exact (Array.getElem?_eq_some_iff.1 hs).1
  cases u with
  | addSet => trivial
  | push position vertex origin source =>
    obtain ⟨answer, hpush, -⟩ := Option.map_eq_some_iff.1 h
    obtain ⟨s, hs, -⟩ := Option.bind_eq_some_iff.1 hpush
    exact hlt hs
  | addCaller caller nonTerminal =>
    obtain ⟨s, hs, -⟩ := Option.bind_eq_some_iff.1 h
    exact hlt hs

theorem isSome_replay?_iff : (replay? updates).isSome ↔ Update.AllFit 1 updates := by
  constructor
  · induction updates using List.reverseRecOn with
    | nil => exact fun _ => trivial
    | append_singleton updates u ih =>
      intro h
      rw [replay?_concat] at h
      obtain ⟨x', hx'⟩ := Option.isSome_iff_exists.1 h
      obtain ⟨x, hx, hstep⟩ := Option.bind_eq_some_iff.1 hx'
      have hfits := ih (by rw [hx]; rfl)
      obtain ⟨y, hy, -, -, hrecorded⟩ := exists_replay hfits
      obtain rfl := Option.some.inj (hx.symm.trans hy)
      have hu := fits_of_update? hstep
      rw [hrecorded.size_eq, Nat.add_comm] at hu
      exact Update.allFit_append.2 ⟨hfits, hu, trivial⟩
  · intro h
    obtain ⟨x, hx, -⟩ := exists_replay h
    rw [hx]
    rfl

theorem allFit_of_replay? (hx : replay? updates = some x) : Update.AllFit 1 updates :=
  isSome_replay?_iff.1 (Option.isSome_of_eq_some hx)

theorem replay?_spec (hx : replay? updates = some x) :
    x.Exact ∧ x.chart = Chart.replay updates ∧ x.chart.Recorded updates := by
  obtain ⟨x', hx', hspec⟩ := exists_replay (allFit_of_replay? hx)
  obtain rfl := Option.some.inj (hx.symm.trans hx')
  exact hspec

theorem exists_replay_prefix (hx : replay? (before ++ after) = some x) :
    ∃ x₀, replay? before = some x₀ ∧ x₀.Exact ∧ x₀.chart.Recorded before ∧
      Update.AllFit x₀.chart.size after ∧
      ∀ r k, x₀.chart.key? r = some k → x.chart.key? r = some k := by
  obtain ⟨-, -, hrecorded⟩ := replay?_spec hx
  obtain ⟨hfits, hafter⟩ := Update.allFit_append.1 (allFit_of_replay? hx)
  obtain ⟨x₀, hx₀, hexact₀, -, hrecorded₀⟩ := exists_replay hfits
  refine ⟨x₀, hx₀, hexact₀, hrecorded₀, ?_, fun r k => ?_⟩
  · rwa [hrecorded₀.size_eq, Nat.add_comm]
  · exact hrecorded.key?_of_prefix hrecorded₀ (List.prefix_append _ _)

theorem answer_of_replay? (hx : replay? (before ++ .push i v o source :: after) = some x) :
    ∃ x₀ r x₁, replay? before = some x₀ ∧
      x₀.push i v o source = some ((r, decide (⟨v, o⟩ ∉ firsts (Update.key? i) before)), x₁) ∧
      x.chart.find? i v o = some r := by
  obtain ⟨-, -, hrecorded⟩ := replay?_spec hx
  obtain ⟨x₀, hx₀, hexact₀, hrecorded₀, ⟨hi, -⟩, -⟩ := exists_replay_prefix hx
  obtain ⟨x₁, hpush, hchart₁, -⟩ := push_spec hrecorded₀.consistent hexact₀ hi v o source
  have hx₁ : replay? (before ++ [.push i v o source]) = some x₁ := by
    rw [replay?_concat, hx₀, Option.bind_some, update?, hpush]
    rfl
  rw [List.append_cons] at hx
  obtain ⟨x₁', hx₁', -, -, -, hkeys⟩ := exists_replay_prefix hx
  obtain rfl := Option.some.inj (hx₁.symm.trans hx₁')
  have hnew : (x₀.chart.find? i v o).isNone = decide (⟨v, o⟩ ∉ firsts (Update.key? i) before) := by
    rw [hrecorded₀.find?_eq i ⟨v, o⟩, Option.isNone_map, Bool.eq_iff_iff, Option.isNone_iff_eq_none,
      List.idxOf?_eq_none_iff, decide_eq_true_iff]
  rw [hnew] at hpush
  refine ⟨x₀, _, x₁, hx₀, hpush, ?_⟩
  refine (hrecorded.consistent.find?_iff (k := ⟨v, o⟩)).2 ⟨?_, hkeys _ _ ?_⟩
  · rw [Chart.find?_eq]
    cases (x₀.chart.set i).find? v o <;> rfl
  · rw [hchart₁]
    exact hrecorded₀.consistent.key?_push hi

end LinkedChart

open LinkedChart

/-- Updates go through just if each of them finds a set for its position. Then the sets list what was pushed
and registered, each thing once and in the order of the first times, and each key is found where it is
listed. Addresses keep their keys in all that comes later: what a push has answered is where its key is
found in the end, and its entry is new just if the key has not been pushed before. The sorted keys of a set
are the same keys, in strict order, also by the numbers of a graph that has their vertices. -/
theorem replay_recorded (updates : List Update) :
    ((replay? updates).isSome ↔ Update.AllFit 1 updates) ∧
    ∀ x, replay? updates = some x →
      x.Exact ∧ x.chart = Chart.replay updates ∧ x.chart.Recorded updates ∧
      (∀ before after, updates = before ++ after → ∃ x₀, replay? before = some x₀ ∧
        ∀ r k, x₀.chart.key? r = some k → x.chart.key? r = some k) ∧
      (∀ before after i v o source, updates = before ++ .push i v o source :: after →
        ∃ x₀ r x₁, replay? before = some x₀ ∧
          x₀.push i v o source = some ((r, decide (⟨v, o⟩ ∉ firsts (Update.key? i) before)), x₁) ∧
          x.chart.find? i v o = some r) ∧
      ∀ i, (x.chart.sortedKeys i).Perm (firsts (Update.key? i) updates) ∧
        (x.chart.sortedKeys i).Pairwise (fun k k' => Key.cmp k k' = .lt) ∧
        ∀ G : Graph, G.grammar.WellFormed →
          (∀ k ∈ firsts (Update.key? i) updates, k.vertex ∈ G.grammar.vertices) →
          (x.chart.sortedKeys i).Pairwise fun k k' => G.number k.vertex < G.number k'.vertex ∨
            G.number k.vertex = G.number k'.vertex ∧ k.origin < k'.origin := by
  refine ⟨isSome_replay?_iff, fun x hx => ?_⟩
  obtain ⟨hexact, hchart, hrecorded⟩ := replay?_spec hx
  refine ⟨hexact, hchart, hrecorded, ?_, ?_, fun i => ⟨?_, ?_, fun G hg hv => ?_⟩⟩
  · rintro before after rfl
    obtain ⟨x₀, hx₀, -, -, -, hkeys⟩ := exists_replay_prefix hx
    exact ⟨x₀, hx₀, hkeys⟩
  · rintro before after i v o source rfl
    exact answer_of_replay? hx
  · rw [← hrecorded.keys_eq]
    exact Chart.sortedKeys_perm _ _
  · exact hrecorded.consistent.pairwise_sortedKeys i
  · rw [← hrecorded.keys_eq] at hv
    exact hrecorded.consistent.pairwise_number_sortedKeys hg hv

def repeatedUpdates : List Update :=
  [.addSet, .push 1 (.item ⟨0, 1⟩) 0 (some ⟨0, 0⟩), .push 1 (.item ⟨0, 1⟩) 0 (some ⟨0, 7⟩),
    .push 1 (.item ⟨0, 1⟩) 0 (some ⟨0, 0⟩), .addCaller ⟨1, 0⟩ 2, .addCaller ⟨1, 0⟩ 2]

/-- One key is pushed with two antecedents, the first of them twice, and registered twice. -/
theorem repeatedUpdates_recorded : Update.AllFit 1 repeatedUpdates ∧
    ∃ x e, replay? repeatedUpdates = some x ∧ x.chart.entry? ⟨1, 0⟩ = some e ∧
      e.antecedents.toList = [⟨0, 0⟩, ⟨0, 7⟩] ∧ ((x.chart.set 1).callers 2).toList = [0] ∧
      x.chart.find? 1 (.item ⟨0, 1⟩) 1 = none := by
  have hfits : Update.AllFit 1 repeatedUpdates := by
    simp [repeatedUpdates, Update.AllFit, Update.Fits]
  obtain ⟨hsome, hspec⟩ := replay_recorded repeatedUpdates
  obtain ⟨x, hx⟩ := Option.isSome_iff_exists.1 (hsome.2 hfits)
  obtain ⟨-, -, hrecorded, -⟩ := hspec x hx
  have hfind := hrecorded.find?_eq 1 ⟨.item ⟨0, 1⟩, 0⟩
  obtain ⟨-, hkey⟩ := (hrecorded.consistent.find?_iff (k := ⟨.item ⟨0, 1⟩, 0⟩)).1 hfind
  obtain ⟨e, he, hek⟩ := Chart.exists_entry?_of_key? hkey
  refine ⟨hfits, x, e, hx, he, ?_, hrecorded.callers_eq 1 2, hrecorded.find?_eq 1 ⟨.item ⟨0, 1⟩, 1⟩⟩
  rw [hrecorded.antecedents_eq _ e he, hek]
  decide

end GrammarFlow
