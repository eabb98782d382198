import GrammarFlow.Proofs.Chart.Soundness

namespace GrammarFlow

theorem Graph.edges_start {G : Graph} (hg : G.grammar.WellFormed) (n : Nat) :
    G.edges (.start n) =
      (G.grammar.alternativesOf n).map fun p => ⟨.start, .item ⟨p, 0⟩⟩ := by
  rw [Graph.edges, G.alternatives_eq, ← Grammar.alternatives?, Grammar.alternatives?_eq]
  split
  · rfl
  · next h =>
    have hnil : G.grammar.alternativesOf n = [] := by
      rw [List.eq_nil_iff_forall_not_mem]
      intro q hq
      obtain ⟨p, hp, rfl, -⟩ := Grammar.mem_alternativesOf.1 hq
      exact h (hg.lhs_lt hp)
    rw [hnil]
    rfl

namespace Chart

variable {G : Graph} {next : Nat → Option Nat} {c c' c'' : Chart} {i m o : Nat} {k : Key}
  {term : Term} {here : Ref} {it : Item}

/-- The entry waits for the non-terminal after its dot. -/
def Waits (g : Grammar) (c : Chart) (r : Ref) (n : Nat) : Prop :=
  ∃ it o, c.key? r = some ⟨.item it, o⟩ ∧ it.next? g = some (.nonTerminal n)

/-- All moves between entries before the cursor have been made, and the callers of a set are its
entries before the cursor that wait. -/
structure Saturated (g : Grammar) (next : Nat → Option Nat) (cursor : Ref) (c : Chart) : Prop where
  linked : ∀ {term i k}, c.Supports g next term i k → (∀ q ∈ term.refs, q < cursor) →
    c.Linked term.source i k
  mem_callers_iff : ∀ {j n place}, place ∈ (c.set j).callers n ↔
    (⟨j, place⟩ : Ref) < cursor ∧ c.Waits g ⟨j, place⟩ n

/-- A sound chart that extends the first one. -/
structure Progress (g : Grammar) (next : Nat → Option Nat) (i : Nat) (c c' : Chart) : Prop where
  grows : Extends i c c'
  sound : c'.Sound g next

theorem Progress.trans {g : Grammar} (h : Progress g next i c c') (h' : Progress g next i c' c'') :
    Progress g next i c c'' := ⟨h.grows.trans h'.grows, h'.sound⟩

theorem Waits.mono {g : Grammar} {r : Ref} {n : Nat} (h : c.Waits g r n) (he : Extends i c c') :
    c'.Waits g r n := by
  obtain ⟨it, o, hr, hn⟩ := h
  exact ⟨it, o, he.key hr, hn⟩

theorem progress_push {g : Grammar} (hg : g.WellFormed) (hs : c.Sound g next)
    (h : c.Supports g next term i k) (hi : i < c.size) (hm : m ≤ i) :
    Progress g next m c (c.push i k.vertex k.origin (some term.source)) ∧
      (c.push i k.vertex k.origin (some term.source)).Linked term.source i k :=
  ⟨⟨extends_push hi hm, hs.push hg h hi⟩, linked_push hs.consistent hi⟩

/-- Steps that make progress, each towards a fact that later steps keep. -/
theorem progress_foldl {g : Grammar} {α : Type} {f : Chart → α → Chart} {P : α → Chart → Prop}
    (hmono : ∀ {x c c'}, Extends m c c' → P x c → P x c') {l : List α} (hs : c.Sound g next)
    (hstep : ∀ x ∈ l, ∀ c', Progress g next m c c' →
      Progress g next m c' (f c' x) ∧ P x (f c' x)) :
    Progress g next m c (l.foldl f c) ∧ ∀ x ∈ l, P x (l.foldl f c) := by
  induction l generalizing c with
  | nil => exact ⟨⟨.refl m c, hs⟩, nofun⟩
  | cons x l ih =>
    obtain ⟨hx, hP⟩ := hstep x List.mem_cons_self c ⟨.refl m c, hs⟩
    obtain ⟨hl, hall⟩ := ih hx.sound fun y hy c' hc' =>
      hstep y (List.mem_cons_of_mem x hy) c' (hx.trans hc')
    refine ⟨hx.trans hl, fun y hy => ?_⟩
    rcases List.mem_cons.1 hy with rfl | hy
    · exact hmono hl.grows hP
    · exact hall y hy

theorem resume_eq {q a : Ref} {s : Symbol} (hq : c.key? q = some ⟨.item it, o⟩)
    (hn : it.next? G.grammar = some s) :
    c.resume G q a = c.push a.position (.item it.advance) o (some a) := by
  obtain ⟨⟨v, p, antecedents⟩, he, hk⟩ := exists_entry?_of_key? hq
  obtain ⟨rfl, rfl⟩ := Key.mk.inj hk
  have hnot : it.isComplete G.grammar = false := by
    rw [← Bool.not_eq_true, ← Item.next?_eq_none_iff, hn]
    simp
  simp only [resume, he, Graph.successor?, hnot, Bool.false_eq_true, if_false]

theorem process_of_final {coming : Option Nat} {n : Nat} (h : c.key? here = some ⟨.final n, o⟩) :
    c.process G coming here = c.complete G here n o := by
  obtain ⟨⟨v, p, antecedents⟩, he, hk⟩ := exists_entry?_of_key? h
  obtain ⟨rfl, rfl⟩ := Key.mk.inj hk
  simp only [process, he]

theorem process_of_ne_final {coming : Option Nat} (h : c.key? here = some k)
    (hk : ∀ n, k.vertex ≠ .final n) :
    c.process G coming here = (G.edges k.vertex).foldl (follow G coming here k.origin) c := by
  obtain ⟨⟨v, p, antecedents⟩, he, rfl⟩ := exists_entry?_of_key? h
  cases v with
  | final n => exact absurd rfl (hk n)
  | start n => simp only [process, he, Entry.key]
  | item it => simp only [process, he, Entry.key]

theorem process_of_item {coming : Option Nat} (h : c.key? here = some ⟨.item it, o⟩) :
    c.process G coming here =
      ((G.itemEdge? it).map (follow G coming here o c)).getD c := by
  rw [process_of_ne_final h nofun]
  simp only [Graph.edges]
  cases G.itemEdge? it <;> rfl

theorem process_of_start (hg : G.grammar.WellFormed) {coming : Option Nat} {n : Nat}
    (h : c.key? here = some ⟨.start n, o⟩) : c.process G coming here =
      (G.grammar.alternativesOf n).foldl
        (fun c p => c.push here.position (.item ⟨p, 0⟩) o (some here)) c := by
  rw [process_of_ne_final h nofun, Graph.edges_start hg, List.foldl_map]
  rfl

theorem process_of_exit {coming : Option Nat} {p : Production} (h : c.key? here = some ⟨.item it, o⟩)
    (hp : G.grammar.production? it.production = some p) (hend : it.next? G.grammar = none) :
    c.process G coming here = c.push here.position (.final p.lhs) o (some here) := by
  rw [process_of_item h]
  simp only [Graph.itemEdge?, hend, hp, Option.map_some, Option.getD_some, follow]

theorem process_of_shift {coming : Option Nat} {t : Nat} (h : c.key? here = some ⟨.item it, o⟩)
    (ht : it.next? G.grammar = some (.terminal t)) : c.process G coming here =
      if coming = some t then c.push (here.position + 1) (.item it.advance) o (some here) else c := by
  rw [process_of_item h]
  simp only [Graph.itemEdge?, ht, Option.map_some, Option.getD_some, follow]

theorem process_of_call {coming : Option Nat} {n : Nat} (h : c.key? here = some ⟨.item it, o⟩)
    (hn : it.next? G.grammar = some (.nonTerminal n)) :
    c.process G coming here = c.call G here n := by
  rw [process_of_item h]
  simp only [Graph.itemEdge?, hn, Option.map_some, Option.getD_some, follow]

section Moves

variable (hg : G.grammar.WellFormed) (hs : c.Sound G.grammar next)
include hg hs

theorem progress_resume {a q : Ref} {n : Nat} (ha : c.key? a = some ⟨.final n, q.position⟩)
    (hq : c.key? q = some ⟨.item it, o⟩) (hn : it.next? G.grammar = some (.nonTerminal n)) :
    Progress G.grammar next a.position c (c.resume G q a) ∧
      (c.resume G q a).Linked a a.position ⟨.item it.advance, o⟩ := by
  rw [resume_eq hq hn]
  exact progress_push hg hs (.back ha hq hn) (lt_size_of_key? ha) (Nat.le_refl _)

theorem progress_complete {n : Nat} (h : c.key? here = some ⟨.final n, o⟩)
    (hwait : ∀ place ∈ (c.set o).callers n, c.Waits G.grammar ⟨o, place⟩ n) :
    Progress G.grammar next here.position c (c.complete G here n o) ∧
      ∀ place ∈ (c.set o).callers n, ∀ {it p}, c.key? ⟨o, place⟩ = some ⟨.item it, p⟩ →
        (c.complete G here n o).Linked here here.position ⟨.item it.advance, p⟩ := by
  have hfold : c.complete G here n o =
      ((c.set o).callers n).toList.foldl (fun c place => c.resume G ⟨o, place⟩ here) c := by
    rw [complete, Array.foldl_toList]
  rw [hfold]
  -- The callers are those from before the loop; each still waits when its turn comes.
  have hall := progress_foldl (m := here.position)
    (f := fun c place => c.resume G ⟨o, place⟩ here)
    (P := fun place c' => ∀ {it p}, c.key? ⟨o, place⟩ = some ⟨.item it, p⟩ →
      c'.Linked here here.position ⟨.item it.advance, p⟩)
    (fun he hP _ _ hk => he.linked (hP hk)) (l := ((c.set o).callers n).toList) hs ?_
  · exact ⟨hall.1, fun place hp => hall.2 place (Array.mem_toList_iff.2 hp)⟩
  · intro place hp c' hc'
    obtain ⟨it, p, hq, hn⟩ := hwait place (Array.mem_toList_iff.1 hp)
    have hstep := progress_resume hg hc'.sound (hc'.grows.key h) (hc'.grows.key hq) hn
    refine ⟨hstep.1, fun hk => ?_⟩
    obtain ⟨hit, rfl⟩ := Key.mk.inj (Option.some.inj (hk.symm.trans hq))
    obtain rfl := Vertex.item.inj hit
    exact hstep.2

theorem progress_start {coming : Option Nat} {n : Nat} (h : c.key? here = some ⟨.start n, o⟩) :
    Progress G.grammar next here.position c (c.process G coming here) ∧
      ∀ p ∈ G.grammar.productions, p.lhs = n →
        (c.process G coming here).Linked here here.position ⟨.item ⟨p.id, 0⟩, o⟩ := by
  have hlt := lt_size_of_key? h
  rw [process_of_start hg h]
  have hall := progress_foldl (m := here.position)
    (f := fun c p => c.push here.position (.item ⟨p, 0⟩) o (some here))
    (P := fun p c' => c'.Linked here here.position ⟨.item ⟨p, 0⟩, o⟩)
    (fun he hP => he.linked hP) (l := G.grammar.alternativesOf n) hs ?_
  · refine ⟨hall.1, fun p hp hlhs => ?_⟩
    exact hall.2 p.id (Grammar.mem_alternativesOf.2 ⟨p, hp, hlhs, rfl⟩)
  · intro q hq c' hc'
    obtain ⟨p, hp, rfl, rfl⟩ := Grammar.mem_alternativesOf.1 hq
    have hsup : c'.Supports G.grammar next ⟨here, none⟩ here.position ⟨.item ⟨p.id, 0⟩, o⟩ :=
      .expand (hc'.grows.key h) hp
    exact progress_push hg hc'.sound hsup (hc'.grows.size_eq ▸ hlt) (Nat.le_refl _)

theorem progress_exit {coming : Option Nat} {p : Production}
    (h : c.key? here = some ⟨.item it, o⟩) (hp : G.grammar.production? it.production = some p)
    (hend : it.next? G.grammar = none) :
    Progress G.grammar next here.position c (c.process G coming here) ∧
      (c.process G coming here).Linked here here.position ⟨.final p.lhs, o⟩ := by
  rw [process_of_exit h hp hend]
  exact progress_push hg hs (.exit h hp hend) (lt_size_of_key? h) (Nat.le_refl _)

theorem progress_shift {t : Nat} (h : c.key? here = some ⟨.item it, o⟩)
    (ht : it.next? G.grammar = some (.terminal t))
    (hroom : next here.position ≠ none → here.position + 1 < c.size) :
    Progress G.grammar next here.position c (c.process G (next here.position) here) ∧
      (next here.position = some t →
        (c.process G (next here.position) here).Linked here (here.position + 1)
          ⟨.item it.advance, o⟩) := by
  rw [process_of_shift h ht]
  split
  · next hnext =>
    have hpush := progress_push hg hs (.shift h ht hnext) (hroom (by simp [hnext]))
      (Nat.le_succ here.position)
    exact ⟨hpush.1, fun _ => hpush.2⟩
  · next hne => exact ⟨⟨.refl _ _, hs⟩, fun hnext => absurd hnext hne⟩

theorem progress_begin {n : Nat} (h : c.key? here = some ⟨.item it, o⟩)
    (hn : it.next? G.grammar = some (.nonTerminal n)) :
    Progress G.grammar next here.position c ((c.addCaller here n).push here.position (.start n)
        here.position (some here)) ∧
      ((c.addCaller here n).push here.position (.start n) here.position (some here)).Linked here
        here.position ⟨.start n, here.position⟩ := by
  have hlt := lt_size_of_key? h
  have hcaller : Progress G.grammar next here.position c (c.addCaller here n) :=
    ⟨extends_addCaller hlt, hs.addCaller hlt⟩
  have hstart := progress_push hg hcaller.sound (.call (hcaller.grows.key h) hn)
    (hcaller.grows.size_eq ▸ hlt) (Nat.le_refl _)
  exact ⟨hcaller.trans hstart.1, hstart.2⟩

/-- A caller that finds the end of its callee takes itself on; the end is not met again. -/
theorem progress_call {coming : Option Nat} {n : Nat} (h : c.key? here = some ⟨.item it, o⟩)
    (hn : it.next? G.grammar = some (.nonTerminal n)) :
    Progress G.grammar next here.position c (c.process G coming here) ∧
      (c.process G coming here).Linked here here.position ⟨.start n, here.position⟩ ∧
      ∀ {a : Ref}, a.position = here.position → c.key? a = some ⟨.final n, here.position⟩ →
        (c.process G coming here).Linked a here.position ⟨.item it.advance, o⟩ := by
  obtain ⟨hc, hstart⟩ := progress_begin hg hs h hn
  rw [process_of_call h hn, call]
  split
  · next ended hended =>
    obtain ⟨hpos, hkey⟩ := (hc.sound.consistent.find?_iff (k := ⟨.final n, here.position⟩)).1 hended
    have hstep := progress_resume hg hc.sound hkey (hc.grows.key h) hn
    rw [hpos] at hstep
    refine ⟨hc.trans hstep.1, hstep.1.grows.linked hstart, fun {a} ha hka => ?_⟩
    obtain rfl := hc.sound.consistent.ref_unique (hc.grows.key hka) hkey (ha.trans hpos.symm)
    exact hstep.2
  · next hnone =>
    refine ⟨hc, hstart, fun {a} ha hka => ?_⟩
    have hfound := (hc.sound.consistent.find?_iff (k := ⟨.final n, here.position⟩)).2
      ⟨ha, hc.grows.key hka⟩
    exact absurd hfound (by rw [hnone]; simp)

end Moves

section Callers

@[simp] theorem callers_resume (q a : Ref) (j n : Nat) :
    ((c.resume G q a).set j).callers n = (c.set j).callers n := by
  unfold resume
  split
  · rfl
  · split
    · rfl
    · exact callers_push j n

theorem callers_complete (n j m : Nat) :
    ((c.complete G here n o).set j).callers m = (c.set j).callers m := by
  rw [complete, ← Array.foldl_toList]
  generalize ((c.set o).callers n).toList = places
  induction places generalizing c with
  | nil => rfl
  | cons place places ih => rw [List.foldl_cons, ih, callers_resume]

theorem callers_addCaller {n j m : Nat} (hr : here.position < c.size) :
    ((c.addCaller here n).set j).callers m = if here.position = j ∧ n = m
      then StateSet.addPlace ((c.set j).callers m) here.index else (c.set j).callers m := by
  rw [set_addCaller hr]
  by_cases hj : here.position = j
  · simp only [hj, if_true, StateSet.callers_addCaller, true_and]
  · simp only [hj, if_false, false_and]

theorem callers_call {n j m : Nat} (hr : here.position < c.size) :
    ((c.call G here n).set j).callers m = if here.position = j ∧ n = m
      then StateSet.addPlace ((c.set j).callers m) here.index else (c.set j).callers m := by
  have hcallers : ((c.call G here n).set j).callers m =
      ((c.addCaller here n).set j).callers m := by
    unfold call
    dsimp only
    split
    · rw [callers_resume, callers_push]
    · exact callers_push j m
  rw [hcallers, callers_addCaller hr]

theorem waits_iff_of_item {g : Grammar} {r : Ref} {n : Nat} (h : c.key? r = some ⟨.item it, o⟩) :
    c.Waits g r n ↔ it.next? g = some (.nonTerminal n) := by
  constructor
  · rintro ⟨it', o', h', hn⟩
    obtain ⟨hit, -⟩ := Key.mk.inj (Option.some.inj (h.symm.trans h'))
    obtain rfl := Vertex.item.inj hit
    exact hn
  · exact fun hn => ⟨it, o, h, hn⟩

theorem not_waits {g : Grammar} {r : Ref} {n : Nat} (h : c.key? r = some k)
    (hk : ∀ it, k.vertex ≠ .item it) : ¬c.Waits g r n := by
  rintro ⟨it, o, h', -⟩
  exact hk it (congrArg Key.vertex (Option.some.inj (h.symm.trans h')))

open Classical in
/-- To process an entry that waits makes it a caller, and there is no other new caller. -/
theorem callers_process {coming : Option Nat} {j n : Nat} (hk : c.key? here = some k) :
    ((c.process G coming here).set j).callers n = if here.position = j ∧ c.Waits G.grammar here n
      then StateSet.addPlace ((c.set j).callers n) here.index else (c.set j).callers n := by
  obtain ⟨v, o⟩ := k
  cases v with
  | final n' =>
    rw [process_of_final hk, callers_complete, if_neg fun h => not_waits hk nofun h.2]
  | start n' =>
    -- Pushes leave the callers as they were.
    have hsame : ∀ (alternatives : List Nat) (c : Chart),
        (((alternatives.map fun p => (⟨.start, .item ⟨p, 0⟩⟩ : Edge)).foldl
          (follow G coming here o) c).set j).callers n = (c.set j).callers n := by
      intro alternatives
      induction alternatives with
      | nil => exact fun _ => rfl
      | cons p alternatives ih => exact fun c => (ih _).trans (callers_push j n)
    rw [process_of_ne_final hk nofun, Graph.edges, hsame, if_neg fun h => not_waits hk nofun h.2]
  | item it =>
    simp only [waits_iff_of_item hk]
    cases hn : it.next? G.grammar with
    | none =>
      rw [process_of_item hk]
      simp only [Graph.itemEdge?, hn]
      cases G.grammar.production? it.production <;> simp [follow]
    | some s =>
      cases s with
      | terminal t =>
        rw [process_of_shift hk hn]
        split <;> simp
      | nonTerminal n' =>
        rw [process_of_call hk hn, callers_call (lt_size_of_key? hk)]
        simp only [Option.some.injEq, Symbol.nonTerminal.injEq]

theorem mem_callers_process {coming : Option Nat} {j n place : Nat} (hk : c.key? here = some k) :
    place ∈ ((c.process G coming here).set j).callers n ↔
      place ∈ (c.set j).callers n ∨ (⟨j, place⟩ : Ref) = here ∧ c.Waits G.grammar here n := by
  obtain ⟨position, index⟩ := here
  rw [callers_process hk, Ref.mk.injEq]
  split
  · next h =>
    obtain ⟨rfl, hw⟩ := h
    rw [StateSet.mem_addPlace]
    simp only [hw, true_and, and_true]
  · next h =>
    refine (or_iff_left ?_).symm
    rintro ⟨⟨rfl, -⟩, hw⟩
    exact h ⟨rfl, hw⟩

end Callers

end Chart

end GrammarFlow
