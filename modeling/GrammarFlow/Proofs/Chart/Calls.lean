import GrammarFlow.Proofs.Entries
import GrammarFlow.Proofs.WorkList

namespace GrammarFlow

theorem StateSet.addPlace_empty (place : Nat) : addPlace #[] place = #[place] := by
  simp [addPlace]

/-- The caller is appended to both records, or it is in both of them. -/
theorem Entry.antecedents_link_map {e : Entry} {i place : Nat} {places : Array Nat}
    (h : e.antecedents = places.map (⟨i, ·⟩)) :
    (e.link (some ⟨i, place⟩)).antecedents = (StateSet.addPlace places place).map (⟨i, ·⟩) := by
  have hiff : (⟨i, place⟩ : Ref) ∈ e.antecedents ↔ place ∈ places := by
    rw [h, Array.mem_map]
    constructor
    · rintro ⟨place', hplace, hr⟩
      injection hr with _ hsame
      rwa [hsame] at hplace
    · exact fun hplace => ⟨place, hplace, rfl⟩
  simp only [Entry.link, StateSet.addPlace, Array.contains_iff_mem, hiff]
  split
  · exact h
  · rw [Array.map_push, h]

namespace Chart

variable {G : Graph} {c : Chart} {next : Nat → Option Nat} {coming : Option Nat} {i n o : Nat}
  {v : Vertex} {k : Key} {source : Option Ref} {here : Ref} {it : Item}

/-- The callers of a set come in the order of their places. -/
def CallersInOrder (c : Chart) : Prop := ∀ j n, ((c.set j).callers n).toList.Pairwise (· < ·)

/-- Where a non-terminal starts, the antecedents are the callers, in the same order. -/
def CallsAgree (c : Chart) : Prop :=
  ∀ r e n, c.entry? r = some e → e.key = ⟨.start n, r.position⟩ →
    e.antecedents = ((c.set r.position).callers n).map (⟨r.position, ·⟩)

theorem Saturated.callers_eq_empty {g : Grammar} (hc : c.Consistent) (hsat : c.Saturated g next here)
    (hnone : c.find? here.position (.start n) here.position = none) :
    (c.set here.position).callers n = #[] := by
  rw [Array.eq_empty_iff_forall_not_mem]
  intro place hplace
  obtain ⟨hbefore, it, o, hcaller, hn⟩ := hsat.mem_callers_iff.1 hplace
  obtain ⟨r, hr, hkr⟩ := (hsat.linked (.call hcaller hn)
    (by simpa [Term.refs] using hbefore)).exists_key?
  have hfound := (hc.find?_iff (k := ⟨.start n, here.position⟩)).2 ⟨hr, hkr⟩
  rw [hnone] at hfound
  cases hfound

namespace CallsAgree

theorem push (h : c.CallsAgree) (hc : c.Consistent) (hi : i < c.size) (hv : ∀ m, v ≠ .start m) :
    (c.push i v o source).CallsAgree := by
  intro r e m hr hk
  rw [callers_push]
  rcases entry?_push hc hi hr with hold | ⟨e', -, -, hk', rfl⟩ | ⟨-, rfl⟩
  · exact h r e m hold hk
  · rw [Entry.key_link, hk'] at hk
    exact absurd (congrArg Key.vertex hk) (hv m)
  · exact absurd (congrArg Key.vertex hk) (hv m)

theorem resume (h : c.CallsAgree) (hc : c.Consistent) {q a : Ref} (ha : a.position < c.size) :
    (c.resume G q a).CallsAgree := by
  unfold Chart.resume
  split
  · exact h
  · split
    · exact h
    · next w hw =>
      refine h.push hc ha fun m hm => ?_
      subst hm
      cases G.predecessor?_of_successor? hw

theorem foldl {g : Grammar} {α : Type} {f : Chart → α → Chart} {l : List α} (h : c.CallsAgree)
    (hs : c.Sound g next) (hstep : ∀ x ∈ l, ∀ c', Progress g next i c c' → c'.CallsAgree →
      Progress g next i c' (f c' x) ∧ (f c' x).CallsAgree) : (l.foldl f c).CallsAgree := by
  -- By induction on the steps, each of which finds a sound chart and leaves one.
  have hfold : Progress g next i c (l.foldl f c) ∧ (l.foldl f c).CallsAgree := by
    refine List.foldlRecOn l f (motive := fun c' => Progress g next i c c' ∧ c'.CallsAgree)
      ⟨⟨.refl i c, hs⟩, h⟩ ?_
    intro c' ⟨hc', hagree⟩ x hx
    obtain ⟨hnext, hagree'⟩ := hstep x hx c' hc' hagree
    exact ⟨hc'.trans hnext, hagree'⟩
  exact hfold.2

end CallsAgree

section Process

variable (hs : c.Sound G.grammar next) (h : c.CallsAgree)
include hs h

theorem callsAgree_begin (n : Nat) (hsat : c.Saturated G.grammar next here)
    (hk : c.key? here = some ⟨.item it, o⟩) :
    ((c.addCaller here n).push here.position (.start n) here.position (some here)).CallsAgree := by
  have hlt := lt_size_of_key? hk
  have hlt' : here.position < (c.addCaller here n).size := by rwa [size_addCaller]
  have hc : (c.addCaller here n).Consistent := hs.consistent.addCaller hlt
  intro r e m hr hke
  rw [callers_push, callers_addCaller hlt]
  split
  · next hcalled =>
    obtain ⟨hpos, rfl⟩ := hcalled
    rw [← hpos] at hke ⊢
    rcases entry?_push_of_key hc hlt' hr hpos.symm hke with ⟨e', he', hk', rfl⟩ | ⟨hfind, he⟩
    · rw [entry?_addCaller hlt] at he'
      rw [hpos] at hk'
      have hold := h r e' n he' hk'
      rw [← hpos] at hold
      exact Entry.antecedents_link_map hold
    · have hsame : c.find? here.position (.start n) here.position = none := by
        rw [find?_eq, set_addCaller hlt, if_pos rfl] at hfind
        rw [find?_eq]
        exact hfind
      rw [he, hsat.callers_eq_empty hs.consistent hsame, StateSet.addPlace_empty]
      simp
  · next hother =>
    rcases entry?_push hc hlt' hr with hold | ⟨e', -, hpos, hk', rfl⟩ | ⟨rfl, rfl⟩
    · rw [entry?_addCaller hlt] at hold
      exact h r e m hold hke
    · rw [Entry.key_link, hk'] at hke
      obtain ⟨hv, -⟩ := Key.mk.inj hke
      exact absurd ⟨hpos.symm, Vertex.start.inj hv⟩ hother
    · cases hke
      exact absurd ⟨rfl, rfl⟩ hother

variable (hg : G.grammar.WellFormed)
include hg

theorem callsAgree_start (hk : c.key? here = some ⟨.start n, o⟩) :
    (c.process G coming here).CallsAgree := by
  rw [process_of_start hg hk]
  refine h.foldl hs (i := here.position) fun id hid c' hc' hagree => ?_
  obtain ⟨p, hp, rfl, rfl⟩ := Grammar.mem_alternativesOf.1 hid
  have hlt := lt_size_of_key? (hc'.grows.key hk)
  have hstep := progress_push hg hc'.sound (.expand (hc'.grows.key hk) hp) hlt (Nat.le_refl _)
  exact ⟨hstep.1, hagree.push hc'.sound.consistent hlt nofun⟩

theorem callsAgree_final (hsat : c.Saturated G.grammar next here)
    (hk : c.key? here = some ⟨.final n, o⟩) : (c.process G coming here).CallsAgree := by
  rw [process_of_final hk, complete, ← Array.foldl_toList]
  refine h.foldl hs (i := here.position) fun place hplace c' hc' hagree => ?_
  obtain ⟨-, it, p, hq, hn⟩ := hsat.mem_callers_iff.1 (Array.mem_toList_iff.1 hplace)
  have hstep := progress_resume hg hc'.sound (hc'.grows.key hk) (hc'.grows.key hq) hn
  exact ⟨hstep.1, hagree.resume hc'.sound.consistent (lt_size_of_key? (hc'.grows.key hk))⟩

theorem callsAgree_call (hsat : c.Saturated G.grammar next here)
    (hk : c.key? here = some ⟨.item it, o⟩) (hn : it.next? G.grammar = some (.nonTerminal n)) :
    (c.process G coming here).CallsAgree := by
  obtain ⟨hc, -⟩ := progress_begin hg hs hk hn
  have hbegun := callsAgree_begin hs h n hsat hk
  rw [process_of_call hk hn, call]
  split
  · next ended hended =>
    obtain ⟨-, hkey⟩ := (hc.sound.consistent.find?_iff (k := ⟨.final n, here.position⟩)).1 hended
    exact hbegun.resume hc.sound.consistent (lt_size_of_key? hkey)
  · exact hbegun

theorem callsAgree_process (hsat : c.Saturated G.grammar next here)
    (hroom : next here.position ≠ none → here.position + 1 < c.size) (hk : c.key? here = some k) :
    (c.process G (next here.position) here).CallsAgree := by
  obtain ⟨v, o⟩ := k
  have hlt := lt_size_of_key? hk
  cases v with
  | start n => exact callsAgree_start hs h hg hk
  | final n => exact callsAgree_final hs h hg hsat hk
  | item it =>
    cases hn : it.next? G.grammar with
    | none =>
      obtain ⟨p, hp, -⟩ := (hs.deducible hk).exists_production hg
      rw [process_of_exit hk hp hn]
      exact h.push hs.consistent hlt nofun
    | some s =>
      cases s with
      | nonTerminal n => exact callsAgree_call hs h hg hsat hk hn
      | terminal t =>
        rw [process_of_shift hk hn]
        split
        · next hnext => exact h.push hs.consistent (hroom (by simp [hnext])) nofun
        · exact h

end Process

/-- A caller has its place behind all that have been processed before it. -/
theorem callersInOrder_process {g : Grammar} (h : c.CallersInOrder) (hsat : c.Saturated g next here)
    (hk : c.key? here = some k) : (c.process G coming here).CallersInOrder := by
  intro j n
  rw [callers_process hk]
  split
  · next hnew =>
    obtain ⟨rfl, -⟩ := hnew
    unfold StateSet.addPlace
    split
    · exact h _ n
    · rw [Array.toList_push, List.pairwise_append]
      refine ⟨h _ n, List.pairwise_singleton _ _, fun place hplace index hindex => ?_⟩
      obtain rfl := List.mem_singleton.1 hindex
      obtain ⟨hlt, -⟩ := hsat.mem_callers_iff.1 (Array.mem_toList_iff.1 hplace)
      rcases hlt with hlt | ⟨-, hlt⟩
      · exact absurd hlt (Nat.lt_irrefl _)
      · exact hlt
  · exact h j n

end Chart

namespace Graph

variable {G : Graph} {tokens : List Token} {c : Chart} {here : Ref}

theorem entry?_seeded {r : Ref} {e : Entry} (h : Chart.entry? (Chart.seeded G) r = some e) :
    e = ⟨.start G.grammar.start, 0, #[]⟩ := by
  have hnone : ∀ {e'}, Chart.initial.entry? r ≠ some e' := by
    intro e' he'
    rw [Chart.entry?_eq, Chart.set_initial] at he'
    cases he'
  rcases Chart.entry?_push Chart.consistent_initial Nat.zero_lt_one h with
    hold | ⟨e', hold, -⟩ | ⟨-, rfl⟩
  · exact absurd hold hnone
  · exact absurd hold hnone
  · rfl

theorem callers_seeded (G : Graph) (j n : Nat) : ((Chart.seeded G).set j).callers n = #[] := by
  rw [Chart.seeded, Chart.callers_push, Chart.set_initial]
  simp [StateSet.callers, Std.TreeMap.getD_emptyc]

theorem callersInOrder_seeded (G : Graph) : (Chart.seeded G).CallersInOrder := by
  intro j n
  rw [callers_seeded]
  exact .nil

/-- The seed is the one entry with neither a caller nor an antecedent. -/
theorem callsAgree_seeded (G : Graph) : (Chart.seeded G).CallsAgree := by
  intro r e n hr hk
  rw [callers_seeded, entry?_seeded hr, Array.map_empty]

theorem Makes.callersInOrder (hg : G.grammar.WellFormed) (h : G.Makes tokens here c) :
    c.CallersInOrder := by
  refine h.preserves (callersInOrder_seeded G) (fun {c} horder j n => ?_) fun hmade hk horder => ?_
  · rw [Chart.set_addSet]
    exact horder j n
  · exact Chart.callersInOrder_process horder (hmade.maintained hg).saturated hk

theorem Makes.callsAgree (hg : G.grammar.WellFormed) (h : G.Makes tokens here c) :
    c.CallsAgree := by
  refine h.preserves (callsAgree_seeded G) (fun {c} hagree r e n hr hk => ?_) fun hmade hk hagree => ?_
  · rw [Chart.entry?_addSet] at hr
    rw [Chart.set_addSet]
    exact hagree r e n hr hk
  · have hm := hmade.maintained hg
    exact Chart.callsAgree_process hm.sound hagree hg hm.saturated hm.room hk

end Graph

namespace Parsing.Accepts

variable {p : Parsing} {tokens : List Token} {i n place : Nat}

/-- In an accepted chart every entry has had its turn, so all that wait are callers. -/
theorem mem_callers_iff (h : p.Accepts tokens) :
    place ∈ (p.chart.set i).callers n ↔ p.chart.Waits p.grammar ⟨i, place⟩ n := by
  rw [h.saturated.mem_callers_iff]
  refine and_iff_right_of_imp ?_
  rintro ⟨it, o, hk, -⟩
  have hlt := Chart.lt_size_of_key? hk
  rw [h.size_eq] at hlt
  exact .inl hlt

theorem callers_ne_empty_iff (h : p.Accepts tokens) : (p.chart.set i).callers n ≠ #[] ↔ ∃ it o,
    p.grammar.Deducible (p.grammar.coming tokens) i ⟨.item it, o⟩ ∧
      it.next? p.grammar = some (.nonTerminal n) := by
  simp only [ne_eq, Array.eq_empty_iff_forall_not_mem, not_forall, not_not, h.mem_callers_iff,
    ← h.mem_keys_iff, Chart.mem_keys_iff]
  constructor
  · rintro ⟨place, it, o, hk, hn⟩
    exact ⟨it, o, ⟨_, rfl, hk⟩, hn⟩
  · rintro ⟨it, o, ⟨r, rfl, hk⟩, hn⟩
    exact ⟨r.index, it, o, hk, hn⟩

/-- A non-terminal starts where it is called, and at the beginning if it is the start symbol. -/
theorem start_mem_keys_iff (h : p.Accepts tokens) : ⟨.start n, i⟩ ∈ (p.chart.set i).keys ↔
    (p.chart.set i).callers n ≠ #[] ∨ n = p.grammar.start ∧ i = 0 := by
  rw [h.mem_keys_iff, ← Grammar.awaits_nonTerminal_iff, Grammar.Awaits, h.callers_ne_empty_iff,
    or_comm, Symbol.nonTerminal.injEq]

end Parsing.Accepts

/-- The chart's two records of the calls of a non-terminal at a position agree. The callers stand in the
order of their places and are the entries with the non-terminal behind the dot; it starts there if there
are any, or if it is what the parse begins with; and where it starts the antecedents are the callers. -/
theorem callers_eq_antecedents {d : Declaration} {g : Grammar} (hg : d.build = .ok g)
    {tokens : List Token} {p : Parsing} (hp : (Graph.ofGrammar g).parse tokens = .ok p) (i n : Nat) :
    ((p.chart.set i).callers n).toList.Pairwise (· < ·) ∧
      (∀ place, place ∈ (p.chart.set i).callers n ↔ ∃ it o,
        p.chart.key? ⟨i, place⟩ = some ⟨.item it, o⟩ ∧ it.next? g = some (.nonTerminal n)) ∧
      (⟨.start n, i⟩ ∈ (p.chart.set i).keys ↔
        (p.chart.set i).callers n ≠ #[] ∨ n = g.start ∧ i = 0) ∧
      ∀ place e, p.chart.entry? ⟨i, place⟩ = some e → e.key = ⟨.start n, i⟩ →
        e.antecedents = ((p.chart.set i).callers n).map (⟨i, ·⟩) := by
  have hwf : (Graph.ofGrammar g).grammar.WellFormed := Declaration.wellFormed_of_build hg
  obtain ⟨hchart, -, -⟩ := (Graph.reports_run _ tokens).accepted p hp
  obtain ⟨here, hmakes⟩ := Graph.makes_chartOf hwf tokens
  rw [← hchart] at hmakes
  obtain ⟨rfl, h⟩ := Graph.accepts_of_parse hg hp
  exact ⟨hmakes.callersInOrder hwf i n, fun place => h.mem_callers_iff, h.start_mem_keys_iff,
    fun place e he hk => hmakes.callsAgree hwf ⟨i, place⟩ e n he hk⟩

theorem threeNumbers_callers : sums.build = .ok sumsGrammar ∧
    ∃ p place e, (Graph.ofGrammar sumsGrammar).parse threeNumbers = .ok p ∧
      p.chart.entry? ⟨4, place⟩ = some e ∧ e.key = ⟨.start 0, 4⟩ ∧ e.antecedents.size = 3 ∧
        e.antecedents = ((p.chart.set 4).callers 0).map (⟨4, ·⟩) := by
  obtain ⟨p, hp⟩ := Graph.recognizes_iff.1 recognizes_threeNumbers
  -- Two sums and the start of a third one wait for the last number.
  have hsize : ((Graph.ofGrammar sumsGrammar).parse threeNumbers).toOption.bind (fun p =>
      (p.chart.find? 4 (.start 0) 4).map fun r =>
        (r.position, (p.chart.entry? r).map fun e => (e.key, e.antecedents.size))) =
      some (4, some (⟨.start 0, 4⟩, 3)) := by decide +kernel
  rw [hp] at hsize
  obtain ⟨⟨position, place⟩, -, hr⟩ := Option.map_eq_some_iff.1 hsize
  obtain ⟨rfl, he⟩ := Prod.mk.inj hr
  obtain ⟨e, he, hsome⟩ := Option.map_eq_some_iff.1 he
  obtain ⟨hk, hthree⟩ := Prod.mk.inj hsome
  exact ⟨build_sums, p, place, e, hp, he, hk, hthree,
    (callers_eq_antecedents build_sums hp 4 0).2.2.2 place e he hk⟩

end GrammarFlow
