import GrammarFlow.Proofs.Lockstep
import GrammarFlow.Proofs.Numbering

namespace GrammarFlow.Checked

open Chart

variable (G : Graph)

def read (v : Vertex) : Option Vertex := G.vertex? (G.number v)

def final (nonTerminal : Nat) : Option Vertex :=
  if nonTerminal < G.grammar.nonTerminals.size then read G (.final nonTerminal) else none

def successor (v : Vertex) : Option (Option Vertex) := do
  match ← read G v with
  | .item it => do
    let p ← G.grammar.production? it.production
    if p.rhs.length ≤ it.dot then return none
    else return some (← G.vertex? (G.number v + 1))
  | _ => return none

def push (c : Chart) (position : Nat) (vertex : Vertex) (origin : Nat) (source : Option Ref) :
    Option Chart := do
  let s ← c.set? position
  match s.find? vertex origin with
  | none => return c.push position vertex origin source
  | some place => do
    let _ ← s.entries[place]?
    return c.push position vertex origin source

def addCaller (c : Chart) (r : Ref) (nonTerminal : Nat) : Option Chart := do
  let _ ← c.set? r.position
  return c.addCaller r nonTerminal

def resume (c : Chart) (caller ended : Ref) : Option Chart := do
  let e ← c.entry? caller
  match ← successor G e.vertex with
  | none => return c
  | some v => push c ended.position v e.origin (some ended)

def call (c : Chart) (here : Ref) (nonTerminal : Nat) : Option Chart := do
  let c ← addCaller c here nonTerminal
  let c ← push c here.position (.start nonTerminal) here.position (some here)
  let v ← final G nonTerminal
  match c.find? here.position v here.position with
  | none => return c
  | some ended => resume G c here ended

def complete (c : Chart) (here : Ref) (nonTerminal origin : Nat) : Option Chart := do
  let s ← c.set? origin
  (s.callers nonTerminal).toList.foldlM (fun c place => resume G c ⟨origin, place⟩ here) c

def follow (next : Option Nat) (here : Ref) (origin : Nat) (c : Chart) (edge : Edge) :
    Option Chart :=
  match edge.kind with
  | .start => push c here.position edge.target origin (some here)
  | .final => push c here.position edge.target origin (some here)
  | .shift t =>
    if next = some t then push c (here.position + 1) edge.target origin (some here) else some c
  | .call n => call G c here n
  | .back _ => some c

def process (c : Chart) (next : Option Nat) (here : Ref) : Option Chart := do
  let e ← c.entry? here
  match ← read G e.vertex with
  | .final n => complete G c here n e.origin
  | v => (G.edges v).foldlM (follow G next here e.origin) c

/-- Processes entries as long as there are any; there is no result if the fuel ends before. -/
def closeFrom (next : Option Nat) (i : Nat) : Nat → Nat → Chart → Option Chart
  | 0, place, c => do
    let s ← c.set? i
    if place < s.size then none else return c
  | fuel + 1, place, c => do
    let s ← c.set? i
    if place < s.size then do
      let c ← process G c next ⟨i, place⟩
      closeFrom next i fuel (place + 1) c
    else return c

def close (c : Chart) (next : Option Nat) (i : Nat) : Option Chart :=
  closeFrom G next i (G.size * (i + 1)) 0 c

/-- The terminals that lead on from the entries of a position, which need not be in the chart. -/
def expectedTerminals (c : Chart) (position : Nat) : Option (List Nat) :=
  match c.set? position with
  | none => some []
  | some s => do
    let shifts ← s.entries.toList.mapM fun e => (read G e.vertex).map G.shift?
    return (List.range G.grammar.terminals.size).filter fun t => shifts.contains (some t)

def failure (c : Chart) (position : Nat) (found : Option Token) : Option ParseFailure := do
  let expected ← expectedTerminals G c position
  return { position, expected := (expected.map G.grammar.terminalName).mergeSort, found }

def readOn (seen : Array Token) (c : Chart) : List Token → Option (Except ParseFailure Parsing)
  | [] => do
    let c ← close G c none seen.size
    let v ← final G G.grammar.start
    match c.find? seen.size v 0 with
    | some accept => return .ok ⟨G, c, seen, accept⟩
    | none => return .error (← failure G c seen.size none)
  | t :: rest => do
    let c ← close G c.addSet (G.grammar.terminalId? t.terminal) seen.size
    let s ← c.set? (seen.size + 1)
    if s.isEmpty then return .error (← failure G c seen.size (some t))
    else readOn (seen.push t) c rest

def parse (tokens : List Token) : Option (Except ParseFailure Parsing) := do
  let v ← if G.grammar.start < G.grammar.nonTerminals.size then read G (.start G.grammar.start) else none
  let c ← push initial 0 v 0 none
  readOn G #[] c tokens

variable {G} {c c' : Chart} {v : Vertex} {i o : Nat} {source : Option Ref} {it : Item} {here q a : Ref}

theorem read_eq (hg : G.grammar.WellFormed) (hv : v ∈ G.grammar.vertices) : read G v = some v :=
  Graph.vertex?_number hg hv

theorem final_eq (hg : G.grammar.WellFormed) {n : Nat} (hn : n < G.grammar.nonTerminals.size) :
    final G n = some (.final n) := by
  rw [final, if_pos hn]
  exact read_eq hg (Grammar.mem_vertices.2 (.inl ⟨n, hn, .inr rfl⟩))

theorem successor_eq (hg : G.grammar.WellFormed) (hv : v ∈ G.grammar.vertices) :
    successor G v = some (G.successor? v) := by
  rw [successor, read_eq hg hv]
  cases v with
  | start n => rfl
  | final n => rfl
  | item it =>
    obtain ⟨p, hp, -⟩ := Graph.exists_production_of_mem hg hv
    have hcomplete : it.isComplete G.grammar = decide (p.rhs.length ≤ it.dot) := by
      rw [Item.isComplete, Item.length, Grammar.rhs_of_production? hp]
    rw [Graph.successor?, hcomplete]
    simp only [hp, Option.bind_eq_bind, Option.bind_some]
    by_cases hdot : p.rhs.length ≤ it.dot
    · simp [hdot]
    · have hnext : G.vertex? (G.number (.item it) + 1) = some (.item it.advance) :=
        Graph.vertex?_number hg (Graph.item_mem_vertices hg hp (Nat.lt_of_not_le hdot))
      simp [hdot, hnext]

theorem push_eq (hc : c.Consistent) (hi : i < c.size) :
    push c i v o source = some (c.push i v o source) := by
  rw [push, set_eq_of_lt hi]
  simp only [Option.bind_eq_bind, Option.bind_some]
  cases hf : (c.set i).find? v o with
  | none => rfl
  | some place =>
    obtain ⟨e, he, -⟩ := Option.map_eq_some_iff.1 ((hc i ⟨v, o⟩ place).1 hf)
    simp only [he, Option.bind_some]
    rfl

theorem resume_eq (hg : G.grammar.WellFormed) (hc : c.Consistent) (hq : c.key? q = some ⟨.item it, o⟩)
    (hit : .item it ∈ G.grammar.vertices) (ha : a.position < c.size) :
    resume G c q a = some (c.resume G q a) := by
  obtain ⟨⟨w, p, antecedents⟩, he, hk⟩ := exists_entry?_of_key? hq
  obtain ⟨rfl, rfl⟩ := Key.mk.inj hk
  rw [resume, Chart.resume, he]
  simp only [Option.bind_eq_bind, Option.bind_some, successor_eq hg hit]
  cases G.successor? (.item it) with
  | none => rfl
  | some w => exact push_eq hc ha

/-- Steps that are each in range make a loop that is. -/
theorem foldlM_eq {α : Type} {f : Chart → α → Option Chart} {f' : Chart → α → Chart} {l : List α}
    (hstep : ∀ x ∈ l, ∀ c', Extends i c c' → f c' x = some (f' c' x) ∧ Extends i c' (f' c' x)) :
    l.foldlM f c = some (l.foldl f' c) := by
  induction l generalizing c with
  | nil => rfl
  | cons x l ih =>
    obtain ⟨hx, hgrows⟩ := hstep x List.mem_cons_self c (.refl i c)
    rw [List.foldlM_cons, hx, List.foldl_cons]
    exact ih fun y hy c' hc' => hstep y (List.mem_cons_of_mem x hy) c' (hgrows.trans hc')

section Process

variable {next : Nat → Option Nat} {k : Key} {n : Nat} {t : Option Nat}
  (hg : G.grammar.WellFormed) (hs : c.Sound G.grammar next) (hk : c.key? here = some k)
include hg hs hk

theorem vertex_mem : k.vertex ∈ G.grammar.vertices := (hs.deducible hk).vertex_mem hg

theorem process_of_ne_final (hfinal : ∀ n, k.vertex ≠ .final n) :
    process G c t here = (G.edges k.vertex).foldlM (follow G t here k.origin) c := by
  have hread := read_eq hg (vertex_mem hg hs hk)
  obtain ⟨e, he, rfl⟩ := exists_entry?_of_key? hk
  rw [process, he]
  simp only [Option.bind_eq_bind, Option.bind_some, Entry.key] at hread ⊢
  simp only [hread, Option.bind_some]
  split
  · next n hv => exact absurd hv (hfinal n)
  · rfl

theorem process_of_final (hv : k.vertex = .final n) :
    process G c t here = complete G c here n k.origin := by
  have hread := read_eq hg (vertex_mem hg hs hk)
  obtain ⟨e, he, rfl⟩ := exists_entry?_of_key? hk
  have hv' : e.vertex = .final n := hv
  rw [process, he]
  simp only [Option.bind_eq_bind, Option.bind_some, Entry.key, hv'] at hread ⊢
  simp only [hread, Option.bind_some]

theorem complete_eq (hwait : ∀ place ∈ (c.set o).callers n, c.Waits G.grammar ⟨o, place⟩ n)
    (ho : o ≤ here.position) : complete G c here n o = some (c.complete G here n o) := by
  have hlt := lt_size_of_key? hk
  rw [complete, Chart.complete, set_eq_of_lt (Nat.lt_of_le_of_lt ho hlt), ← Array.foldl_toList]
  refine foldlM_eq (i := here.position) fun place hplace c' hc' => ?_
  obtain ⟨it, p, hq, hn⟩ := hwait place (Array.mem_toList_iff.1 hplace)
  have hit := vertex_mem hg hs hq
  have hlt' : here.position < c'.size := hc'.size_eq ▸ hlt
  refine ⟨resume_eq hg (hc'.consistent hs.consistent) (hc'.key hq) hit hlt', ?_⟩
  rw [Chart.resume_eq (hc'.key hq) hn]
  exact extends_push hlt' (Nat.le_refl _)

theorem call_eq (hv : k.vertex = .item it) (hn : it.next? G.grammar = some (.nonTerminal n)) :
    call G c here n = some (c.call G here n) := by
  obtain ⟨v, o⟩ := k
  obtain rfl : v = .item it := hv
  have hlt := lt_size_of_key? hk
  have hcaller := hs.consistent.addCaller (n := n) hlt
  have hroom : here.position < (c.addCaller here n).size := by rwa [size_addCaller]
  have hgrows : Extends here.position c ((c.addCaller here n).push here.position (.start n)
      here.position (some here)) :=
    (extends_addCaller hlt).trans (extends_push hroom (Nat.le_refl _))
  obtain ⟨p, hp, hsymbol⟩ := Item.exists_production_of_next? hn
  have hrange := hg.nonTerminal_lt (Grammar.mem_of_production? hp) (List.mem_of_getElem? hsymbol)
  rw [call, Chart.call, addCaller, set_eq_of_lt hlt]
  simp only [Option.bind_eq_bind, Option.bind_some, Option.pure_def, push_eq hcaller hroom,
    final_eq hg hrange]
  cases hfind : ((c.addCaller here n).push here.position (.start n) here.position
      (some here)).find? here.position (.final n) here.position with
  | none => rfl
  | some ended =>
    obtain ⟨hpos, -⟩ := ((hgrows.consistent hs.consistent).find?_iff
      (k := ⟨.final n, here.position⟩)).1 hfind
    have hended : ended.position < ((c.addCaller here n).push here.position (.start n)
        here.position (some here)).size := by rwa [hpos, hgrows.size_eq]
    exact resume_eq hg (hgrows.consistent hs.consistent) (hgrows.key hk) (vertex_mem hg hs hk) hended

/-- To process an entry all accesses are in range; the next set is only asked for if a terminal is to
come. -/
theorem process_eq (hsat : c.Saturated G.grammar next here)
    (hroom : next here.position ≠ none → here.position + 1 < c.size) :
    process G c (next here.position) here = some (c.process G (next here.position) here) := by
  obtain ⟨v, o⟩ := k
  have hlt := lt_size_of_key? hk
  cases v with
  | start n =>
    rw [process_of_ne_final hg hs hk nofun, Chart.process_of_ne_final hk nofun, Graph.edges_start hg]
    refine foldlM_eq (i := here.position) fun edge hedge c' hc' => ?_
    obtain ⟨p, -, rfl⟩ := List.mem_map.1 hedge
    have hlt' : here.position < c'.size := hc'.size_eq ▸ hlt
    exact ⟨push_eq (hc'.consistent hs.consistent) hlt', extends_push hlt' (Nat.le_refl _)⟩
  | final n =>
    rw [process_of_final hg hs hk rfl, Chart.process_of_final hk]
    exact complete_eq hg hs hk (fun place hplace => (hsat.mem_callers_iff.1 hplace).2)
      ((hs.deducible hk).origin_le hg)
  | item it =>
    rw [process_of_ne_final hg hs hk nofun, Chart.process_of_item hk, Graph.edges]
    cases hn : it.next? G.grammar with
    | none =>
      obtain ⟨p, hp, -⟩ := (hs.deducible hk).exists_production hg
      simp only [Graph.itemEdge?, hn, hp, Option.map_some, Option.getD_some, Option.toList_some,
        List.foldlM_cons, List.foldlM_nil, bind_pure, follow, Chart.follow]
      exact push_eq hs.consistent hlt
    | some s =>
      cases s with
      | terminal t =>
        simp only [Graph.itemEdge?, hn, Option.map_some, Option.getD_some, Option.toList_some,
          List.foldlM_cons, List.foldlM_nil, bind_pure, follow, Chart.follow]
        split
        · next hnext => exact push_eq hs.consistent (hroom (by rw [hnext]; exact Option.some_ne_none t))
        · rfl
      | nonTerminal n =>
        simp only [Graph.itemEdge?, hn, Option.map_some, Option.getD_some, Option.toList_some,
          List.foldlM_cons, List.foldlM_nil, bind_pure, follow, Chart.follow]
        exact call_eq hg hs hk rfl hn

end Process

/-- The work list is in range at every entry, and it ends before its fuel does. -/
theorem closeFrom_eq {next : Nat → Option Nat} (hg : G.grammar.WellFormed) {fuel place : Nat}
    (hs : c.Sound G.grammar next) (hsat : c.Saturated G.grammar next ⟨i, place⟩) (hi : i < c.size)
    (hroom : next i ≠ none → i + 1 < c.size) (hfuel : G.size * (i + 1) ≤ fuel + place) :
    closeFrom G (next i) i fuel place c = some (Chart.closeFrom G (next i) i fuel place c) := by
  induction fuel generalizing place c with
  | zero =>
    have hbound : (c.set i).size ≤ place := by
      rw [Nat.zero_add, Graph.size, G.vertices_eq] at hfuel
      exact (hs.size_le hg i).trans hfuel
    rw [closeFrom, set_eq_of_lt hi]
    exact if_neg (Nat.not_lt_of_le hbound)
  | succ fuel ih =>
    rw [closeFrom, Chart.closeFrom, set_eq_of_lt hi]
    simp only [Option.bind_eq_bind, Option.bind_some]
    split
    · next hlt =>
      obtain ⟨e, he⟩ := exists_entry?_of_lt (c := c) (r := ⟨i, place⟩) hlt
      have hk := key?_of_entry he
      have hprog := progress_process hg hs hk hsat hroom
      have hprocess := process_eq hg hs hk hsat hroom
      simp only [hprocess, Option.bind_some]
      apply ih hprog.sound (saturated_process hg hs hk hsat hroom)
      · rwa [hprog.grows.size_eq]
      · rwa [hprog.grows.size_eq]
      · change G.size * (i + 1) ≤ fuel + (place + 1)
        omega
    · rfl

theorem close_eq {next : Nat → Option Nat} (hg : G.grammar.WellFormed) (hs : c.Sound G.grammar next)
    (hsat : c.Saturated G.grammar next ⟨i, 0⟩) (hi : i < c.size)
    (hroom : next i ≠ none → i + 1 < c.size) :
    close G c (next i) i = some (c.close G (next i) i) :=
  closeFrom_eq hg hs hsat hi hroom (Nat.le_refl _)

theorem mapM_eq {α β : Type} {f : α → Option β} {f' : α → β} {l : List α}
    (h : ∀ x ∈ l, f x = some (f' x)) : l.mapM f = some (l.map f') := by
  induction l with
  | nil => rfl
  | cons x l ih =>
    rw [List.mapM_cons, h x List.mem_cons_self, ih fun y hy => h y (List.mem_cons_of_mem x hy)]
    rfl

theorem expectedTerminals_eq {next : Nat → Option Nat} (hg : G.grammar.WellFormed)
    (hs : c.Sound G.grammar next) (i : Nat) :
    expectedTerminals G c i = some (c.expectedTerminals G i) := by
  rcases Nat.lt_or_ge i c.size with hi | hi
  · have hread : ∀ e ∈ (c.set i).entries.toList,
        (read G e.vertex).map G.shift? = some (G.shift? e.vertex) := by
      intro e he
      obtain ⟨place, hplace⟩ := List.getElem?_of_mem he
      have hentry : c.entry? ⟨i, place⟩ = some e := by
        rw [entry?_eq, ← hplace, Array.getElem?_toList]
      have hv : e.vertex ∈ G.grammar.vertices := (hs.deducible (key?_of_entry hentry)).vertex_mem hg
      rw [read_eq hg hv, Option.map_some]
    rw [expectedTerminals, set_eq_of_lt hi]
    simp only [mapM_eq hread]
    simp [Chart.expectedTerminals]
  · have hset : c.set i = {} := by
      rw [Chart.set, set_eq_of_le hi]
      rfl
    rw [expectedTerminals, set_eq_of_le hi, Chart.expectedTerminals, hset]
    simp

theorem failure_eq {next : Nat → Option Nat} (hg : G.grammar.WellFormed) (hs : c.Sound G.grammar next)
    (i : Nat) (found : Option Token) : failure G c i found = some (c.failure G i found) := by
  rw [failure, expectedTerminals_eq hg hs]
  rfl

theorem readOn_eq (hg : G.grammar.WellFormed) {tokens rest : List Token} {seen : Array Token}
    (hrest : tokens.drop seen.size = rest)
    (hc : c.Reached G.grammar (G.grammar.coming tokens) seen.size) :
    readOn G seen c rest = some (G.readOn seen c rest).outcome := by
  induction rest generalizing seen c with
  | nil =>
    have hend : G.grammar.coming tokens seen.size = none := Graph.coming_of_drop_eq_nil hrest
    have hclose := close_eq hg hc.sound hc.saturated hc.room fun h => absurd hend h
    obtain ⟨hprog, -⟩ := close_spec hg hc.sound hc.saturated fun h => absurd hend h
    rw [hend] at hclose hprog
    rw [readOn, Graph.readOn, hclose]
    simp only [Option.bind_eq_bind, Option.bind_some, final_eq hg hg.start_lt]
    cases (c.close G none seen.size).find? seen.size (.final G.grammar.start) 0 with
    | some accept => rfl
    | none =>
      simp only [failure_eq hg hprog.sound, Option.bind_some]
      rfl
  | cons t rest ih =>
    have hcoming : G.grammar.coming tokens seen.size = G.grammar.terminalId? t.terminal :=
      Graph.coming_of_drop hrest
    have hroom := hc.room_addSet
    have hnext := hc.advance hg hcoming
    have hclose : close G c.addSet (G.grammar.terminalId? t.terminal) seen.size =
        some (c.advance G seen.size t) := by
      rw [Chart.advance, ← hcoming]
      exact close_eq hg hc.sound.addSet hc.saturated.addSet (Nat.lt_of_succ_lt hroom) fun _ => hroom
    rw [readOn, Graph.readOn, hclose]
    simp only [Option.bind_eq_bind, Option.bind_some, set_eq_of_lt hnext.room]
    split
    · simp only [failure_eq hg hnext.sound, Option.bind_some]
      rfl
    · apply ih
      · rw [Array.size_push]
        exact Graph.drop_succ_of_drop hrest
      · rwa [Array.size_push]

theorem parse_eq (hg : G.grammar.WellFormed) (tokens : List Token) :
    parse G tokens = some (G.parse tokens) := by
  have hstart : read G (.start G.grammar.start) = some (.start G.grammar.start) :=
    read_eq hg (Grammar.mem_vertices.2 (.inl ⟨_, hg.start_lt, .inl rfl⟩))
  rw [parse, if_pos hg.start_lt, hstart]
  simp only [Option.bind_eq_bind, Option.bind_some, push_eq consistent_initial Nat.zero_lt_one]
  exact readOn_eq hg rfl (reached_seeded G _)

end GrammarFlow.Checked
