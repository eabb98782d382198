import GrammarFlow.Chart
import GrammarFlow.Proofs.Grammar.DerivationTree
import GrammarFlow.Proofs.Grammar.WellFormed

namespace GrammarFlow

/-- What can be deduced at a position, where `next` tells the terminal that follows each position. -/
inductive Grammar.Deducible (g : Grammar) (next : Nat → Option Nat) : Nat → Key → Prop where
  | seed : Deducible g next 0 ⟨.start g.start, 0⟩
  | expand {i o : Nat} {p : Production} (h : Deducible g next i ⟨.start p.lhs, o⟩)
    (hp : p ∈ g.productions) : Deducible g next i ⟨.item ⟨p.id, 0⟩, o⟩
  | call {i o n : Nat} {it : Item} (h : Deducible g next i ⟨.item it, o⟩)
    (hn : it.next? g = some (.nonTerminal n)) : Deducible g next i ⟨.start n, i⟩
  | shift {i o t : Nat} {it : Item} (h : Deducible g next i ⟨.item it, o⟩)
    (ht : it.next? g = some (.terminal t)) (hnext : next i = some t) :
    Deducible g next (i + 1) ⟨.item it.advance, o⟩
  | exit {i o : Nat} {it : Item} {p : Production} (h : Deducible g next i ⟨.item it, o⟩)
    (hp : g.production? it.production = some p) (hend : it.next? g = none) :
    Deducible g next i ⟨.final p.lhs, o⟩
  | back {i j o n : Nat} {it : Item} (h : Deducible g next i ⟨.final n, j⟩)
    (hcall : Deducible g next j ⟨.item it, o⟩) (hn : it.next? g = some (.nonTerminal n)) :
    Deducible g next i ⟨.item it.advance, o⟩

/-- The word stands in the input from one position to the other. -/
def Reads (next : Nat → Option Nat) : Nat → List Nat → Nat → Prop
  | o, [], i => o = i
  | o, a :: word, i => next o = some a ∧ Reads next (o + 1) word i

namespace Reads

variable {next : Nat → Option Nat} {o i : Nat} {u v : List Nat}

theorem length_eq (h : Reads next o u i) : i = o + u.length := by
  induction u generalizing o with
  | nil => exact h.symm
  | cons a u ih =>
    rw [ih h.2, List.length_cons]
    omega

theorem append_iff : Reads next o (u ++ v) i ↔ ∃ j, Reads next o u j ∧ Reads next j v i := by
  induction u generalizing o with
  | nil => exact ⟨fun h => ⟨o, rfl, h⟩, fun ⟨j, hj, h⟩ => hj ▸ h⟩
  | cons a u ih =>
    constructor
    · rintro ⟨ha, h⟩
      obtain ⟨j, hu, hv⟩ := ih.1 h
      exact ⟨j, ⟨ha, hu⟩, hv⟩
    · rintro ⟨j, ⟨ha, hu⟩, hv⟩
      exact ⟨ha, ih.2 ⟨j, hu, hv⟩⟩

theorem singleton_iff {a : Nat} : Reads next o [a] i ↔ next o = some a ∧ o + 1 = i := Iff.rfl

theorem congr {next' : Nat → Option Nat} (h : ∀ j < i, next j = next' j) :
    Reads next o u i ↔ Reads next' o u i := by
  induction u generalizing o with
  | nil => exact Iff.rfl
  | cons a u ih =>
    rw [Reads, Reads, ih]
    refine and_congr_left fun hr => ?_
    have hlt : o < i := by
      have := hr.length_eq
      omega
    rw [h o hlt]

end Reads

namespace Grammar

/-- The terminal that follows each position of the tokens. -/
def coming (g : Grammar) (tokens : List Token) (i : Nat) : Option Nat :=
  (tokens[i]?).bind fun t => g.terminalId? t.terminal

theorem reads_coming_iff {g : Grammar} {tokens : List Token} {word : List Nat} {o : Nat}
    (ho : o ≤ tokens.length) :
    Reads (g.coming tokens) o word tokens.length ↔ g.Spells (tokens.drop o) word := by
  induction word generalizing o with
  | nil =>
    simp only [Reads, Spells, List.map_nil, List.map_eq_nil_iff, List.drop_eq_nil_iff]
    omega
  | cons a word ih =>
    rcases Nat.lt_or_ge o tokens.length with hlt | hge
    · rw [Reads, ih hlt, List.drop_eq_getElem_cons hlt, coming, List.getElem?_eq_getElem hlt]
      simp only [Spells, List.map_cons, List.cons.injEq, Option.bind_some]
    · have hnone : g.coming tokens o = none := by
        rw [coming, List.getElem?_eq_none hge]
        rfl
      rw [List.drop_eq_nil_of_le hge]
      simp [Reads, Spells, hnone]

theorem reads_coming_take_iff {g : Grammar} {tokens : List Token} {word : List Nat} {o i : Nat}
    (ho : o ≤ i) (hi : i ≤ tokens.length) :
    Reads (g.coming tokens) o word i ↔ g.Spells ((tokens.take i).drop o) word := by
  have hsame : ∀ j < i, g.coming tokens j = g.coming (tokens.take i) j := by
    intro j hj
    rw [coming, coming, List.getElem?_take_of_lt hj]
  have hlength : (tokens.take i).length = i := List.length_take_of_le hi
  have hprefix : Reads (g.coming (tokens.take i)) o word (tokens.take i).length ↔
      g.Spells ((tokens.take i).drop o) word := reads_coming_iff (ho.trans_eq hlength.symm)
  rw [Reads.congr hsame, ← hprefix, hlength]

end Grammar

variable {g : Grammar} {next : Nat → Option Nat}

namespace Item

theorem exists_production_of_next? {it : Item} {s : Symbol} (h : it.next? g = some s) :
    ∃ p, g.production? it.production = some p ∧ p.rhs[it.dot]? = some s := by
  cases hp : g.production? it.production with
  | none => simp [next?, Grammar.rhs, hp] at h
  | some p =>
    rw [next?, Grammar.rhs_of_production? hp] at h
    exact ⟨p, rfl, h⟩

theorem take_advance {it : Item} {s : Symbol} (h : it.next? g = some s) :
    (g.rhs it.production).take it.advance.dot = (g.rhs it.production).take it.dot ++ [s] := by
  obtain ⟨hlt, rfl⟩ := List.getElem?_eq_some_iff.1 h
  exact (List.take_append_getElem hlt).symm

end Item

namespace Grammar

/-- The trees that a key stands for at a position: those of the symbols before the dot of an item, and
the one tree of an ended non-terminal. -/
def forests (g : Grammar) (next : Nat → Option Nat) (i : Nat) : Key → Set (List DerivationTree)
  | ⟨.start _, _⟩ => {[]}
  | ⟨.final n, o⟩ => {ts | ∃ t, ts = [t] ∧ t.IsFrom g (.nonTerminal n) ∧ Reads next o t.yield i}
  | ⟨.item it, o⟩ =>
    {ts | DerivationTree.ForestIsFrom g ts ((g.rhs it.production).take it.dot) ∧
      Reads next o (DerivationTree.forestYield ts) i}

theorem mem_forests_item_zero {i o q : Nat} {ts : List DerivationTree} :
    ts ∈ g.forests next i ⟨.item ⟨q, 0⟩, o⟩ ↔ ts = [] ∧ o = i := by
  simp only [forests, Set.mem_ofPred_eq, List.take_zero, DerivationTree.forestIsFrom_nil]
  constructor
  · rintro ⟨rfl, h⟩
    exact ⟨rfl, h⟩
  · rintro ⟨rfl, h⟩
    exact ⟨rfl, h⟩

theorem mem_forests_shift {i o t : Nat} {it : Item} (h : it.next? g = some (.terminal t))
    {us : List DerivationTree} :
    us ∈ g.forests next i ⟨.item it.advance, o⟩ ↔ ∃ j ts, j + 1 = i ∧ next j = some t ∧
      ts ∈ g.forests next j ⟨.item it, o⟩ ∧ us = ts ++ [.leaf t] := by
  have htake : (g.rhs it.advance.production).take it.advance.dot = _ := Item.take_advance h
  simp only [forests, Set.mem_ofPred_eq, htake, DerivationTree.forestIsFrom_concat]
  constructor
  · rintro ⟨⟨ts, leaf, rfl, hts, hleaf⟩, hr⟩
    obtain rfl := DerivationTree.isFrom_terminal.1 hleaf
    rw [DerivationTree.forestYield_append, Reads.append_iff] at hr
    obtain ⟨j, hu, hv⟩ := hr
    obtain ⟨hnext, hj⟩ := Reads.singleton_iff.1 hv
    exact ⟨j, ts, hj, hnext, ⟨hts, hu⟩, rfl⟩
  · rintro ⟨j, ts, hj, hnext, ⟨hts, hu⟩, rfl⟩
    refine ⟨⟨ts, _, rfl, hts, DerivationTree.isFrom_terminal.2 rfl⟩, ?_⟩
    rw [DerivationTree.forestYield_append, Reads.append_iff]
    exact ⟨j, hu, Reads.singleton_iff.2 ⟨hnext, hj⟩⟩

theorem mem_forests_back {i o n : Nat} {it : Item} (h : it.next? g = some (.nonTerminal n))
    {us : List DerivationTree} :
    us ∈ g.forests next i ⟨.item it.advance, o⟩ ↔ ∃ j ts t, [t] ∈ g.forests next i ⟨.final n, j⟩ ∧
      ts ∈ g.forests next j ⟨.item it, o⟩ ∧ us = ts ++ [t] := by
  have htake : (g.rhs it.advance.production).take it.advance.dot = _ := Item.take_advance h
  simp only [forests, Set.mem_ofPred_eq, htake, DerivationTree.forestIsFrom_concat, List.cons.injEq,
    and_true, exists_eq_left']
  constructor
  · rintro ⟨⟨ts, t, rfl, hts, ht⟩, hr⟩
    rw [DerivationTree.forestYield_append, Reads.append_iff] at hr
    obtain ⟨j, hu, hv⟩ := hr
    rw [DerivationTree.forestYield_cons, DerivationTree.forestYield_nil, List.append_nil] at hv
    exact ⟨j, ts, t, ⟨ht, hv⟩, ⟨hts, hu⟩, rfl⟩
  · rintro ⟨j, ts, t, ⟨ht, hv⟩, ⟨hts, hu⟩, rfl⟩
    refine ⟨⟨ts, t, rfl, hts, ht⟩, ?_⟩
    rw [DerivationTree.forestYield_append, Reads.append_iff]
    refine ⟨j, hu, ?_⟩
    rw [DerivationTree.forestYield_cons, DerivationTree.forestYield_nil, List.append_nil]
    exact hv

theorem WellFormed.mem_forests_final (hg : g.WellFormed) {i o n : Nat} {us : List DerivationTree} :
    us ∈ g.forests next i ⟨.final n, o⟩ ↔ ∃ p ts, p ∈ g.productions ∧ p.lhs = n ∧
      ts ∈ g.forests next i ⟨.item ⟨p.id, p.rhs.length⟩, o⟩ ∧ us = [.node p ts] := by
  simp only [forests, Set.mem_ofPred_eq, DerivationTree.isFrom_nonTerminal]
  constructor
  · rintro ⟨_, rfl, ⟨p, ts, rfl, hp, rfl, hts⟩, hr⟩
    refine ⟨p, ts, hp, rfl, ⟨?_, hr⟩, rfl⟩
    rw [hg.rhs_id hp, List.take_length]
    exact hts
  · rintro ⟨p, ts, hp, rfl, ⟨hts, hr⟩, rfl⟩
    rw [hg.rhs_id hp, List.take_length] at hts
    exact ⟨_, rfl, ⟨p, ts, rfl, hp, rfl, hts⟩, hr⟩

theorem mem_vertices {v : Vertex} :
    v ∈ g.vertices ↔ (∃ n < g.nonTerminals.size, v = .start n ∨ v = .final n) ∨
      ∃ p ∈ g.productions, ∃ dot ≤ p.rhs.length, v = .item ⟨p.id, dot⟩ := by
  simp only [vertices, itemsOf, List.mem_toArray, List.mem_append, List.mem_flatMap, List.mem_range,
    List.mem_cons, List.not_mem_nil, or_false, List.mem_map, Array.mem_toList_iff,
    Nat.lt_succ_iff, eq_comm (a := v)]

namespace Deducible

theorem start_origin {i o n : Nat} (h : g.Deducible next i ⟨.start n, o⟩) : o = i := by
  cases h <;> rfl

theorem bounds (hg : g.WellFormed) {i : Nat} {k : Key} (h : g.Deducible next i k) :
    k.origin ≤ i ∧ ∀ it, k.vertex = .item it →
      ∃ p, g.production? it.production = some p ∧ it.dot ≤ p.rhs.length := by
  induction h with
  | seed => exact ⟨Nat.le_refl _, nofun⟩
  | expand h hp ih =>
    refine ⟨ih.1, ?_⟩
    rintro _ ⟨⟩
    exact ⟨_, hg.production?_id hp, Nat.zero_le _⟩
  | call h hn ih => exact ⟨Nat.le_refl _, nofun⟩
  | shift h ht hnext ih =>
    refine ⟨Nat.le_succ_of_le ih.1, ?_⟩
    rintro _ ⟨⟩
    obtain ⟨p, hp, hs⟩ := Item.exists_production_of_next? ht
    exact ⟨p, hp, (List.getElem?_eq_some_iff.1 hs).1⟩
  | exit h hp hend ih => exact ⟨ih.1, nofun⟩
  | back h hcall hn ih ihcall =>
    refine ⟨ihcall.1.trans ih.1, ?_⟩
    rintro _ ⟨⟩
    obtain ⟨p, hp, hs⟩ := Item.exists_production_of_next? hn
    exact ⟨p, hp, (List.getElem?_eq_some_iff.1 hs).1⟩

theorem origin_le (hg : g.WellFormed) {i : Nat} {k : Key} (h : g.Deducible next i k) :
    k.origin ≤ i := (h.bounds hg).1

theorem exists_production (hg : g.WellFormed) {i o : Nat} {it : Item}
    (h : g.Deducible next i ⟨.item it, o⟩) :
    ∃ p, g.production? it.production = some p ∧ it.dot ≤ p.rhs.length :=
  (h.bounds hg).2 it rfl

theorem vertex_mem (hg : g.WellFormed) {i : Nat} {k : Key} (h : g.Deducible next i k) :
    k.vertex ∈ g.vertices := by
  have hitem : ∀ {it : Item} {o : Nat}, g.Deducible next i ⟨.item it, o⟩ →
      Vertex.item it ∈ g.vertices := by
    intro it o h
    obtain ⟨p, hp, hle⟩ := h.exists_production hg
    refine mem_vertices.2 (Or.inr ⟨p, mem_of_production? hp, it.dot, hle, ?_⟩)
    rw [hg.id_eq hp]
  cases h with
  | seed => exact mem_vertices.2 (Or.inl ⟨_, hg.start_lt, Or.inl rfl⟩)
  | expand h hp => exact hitem (h.expand hp)
  | call h hn =>
    obtain ⟨p, hp, hs⟩ := Item.exists_production_of_next? hn
    have hlt := hg.nonTerminal_lt (mem_of_production? hp) (List.mem_of_getElem? hs)
    exact mem_vertices.2 (Or.inl ⟨_, hlt, Or.inl rfl⟩)
  | shift h ht hnext => exact hitem (h.shift ht hnext)
  | exit h hp hend =>
    exact mem_vertices.2 (Or.inl ⟨_, hg.lhs_lt (mem_of_production? hp), Or.inr rfl⟩)
  | back h hcall hn => exact hitem (h.back hcall hn)

theorem eq_of_next?_eq_none (hg : g.WellFormed) {i o : Nat} {it : Item} {p : Production}
    (h : g.Deducible next i ⟨.item it, o⟩) (hp : g.production? it.production = some p)
    (hend : it.next? g = none) : it = ⟨p.id, p.rhs.length⟩ := by
  obtain ⟨q, hq, hle⟩ := h.exists_production hg
  obtain rfl := Option.some.inj (hp.symm.trans hq)
  rw [Item.next?, rhs_of_production? hp, List.getElem?_eq_none_iff] at hend
  obtain ⟨production, dot⟩ := it
  rw [hg.id_eq hp]
  exact congrArg (Item.mk production) (Nat.le_antisymm hle hend)

theorem forests_nonempty (hg : g.WellFormed) {i : Nat} {k : Key} (h : g.Deducible next i k) :
    (g.forests next i k).Nonempty := by
  induction h with
  | seed => exact ⟨[], rfl⟩
  | expand h hp ih => exact ⟨[], mem_forests_item_zero.2 ⟨rfl, h.start_origin⟩⟩
  | call h hn ih => exact ⟨[], rfl⟩
  | shift h ht hnext ih =>
    obtain ⟨ts, hts⟩ := ih
    exact ⟨_, (mem_forests_shift ht).2 ⟨_, ts, rfl, hnext, hts, rfl⟩⟩
  | exit h hp hend ih =>
    obtain ⟨ts, hts⟩ := ih
    rw [h.eq_of_next?_eq_none hg hp hend] at hts
    exact ⟨_, hg.mem_forests_final.2 ⟨_, ts, mem_of_production? hp, rfl, hts, rfl⟩⟩
  | back h hcall hn ih ihcall =>
    obtain ⟨us, hus⟩ := ih
    obtain ⟨ts, hts⟩ := ihcall
    obtain ⟨t, rfl, ht⟩ := hus
    exact ⟨_, (mem_forests_back hn).2 ⟨_, ts, t, ⟨t, rfl, ht⟩, hts, rfl⟩⟩

mutual

/-- A non-terminal that is called ends wherever a tree of it ends. -/
theorem final_of_tree (hg : g.WellFormed) : ∀ {t : DerivationTree} {n j i : Nat},
    t.IsFrom g (.nonTerminal n) → Reads next j t.yield i → g.Deducible next j ⟨.start n, j⟩ →
      g.Deducible next i ⟨.final n, j⟩
  | .leaf _, _, _, _, ht, _, _ => nomatch ht
  | .node p ts, n, j, i, ht, hr, h => by
    obtain ⟨hp, hlhs, hts⟩ := ht
    obtain rfl := Symbol.nonTerminal.inj hlhs
    have hrhs : p.rhs <+: (g.rhs p.id).drop 0 := by
      rw [hg.rhs_id hp]
      exact List.prefix_rfl
    -- From the call the dot passes over the whole right-hand side.
    have hitem := item_of_forest hg hts hr hrhs (h.expand hp)
    refine hitem.exit (hg.production?_id hp) ?_
    rw [Item.next?, hg.rhs_id hp, Nat.zero_add, List.getElem?_eq_none_iff]

/-- The dot of an item passes over symbols that have trees. -/
theorem item_of_forest (hg : g.WellFormed) : ∀ {ts : List DerivationTree} {ss : List Symbol}
    {q k j o i : Nat}, DerivationTree.ForestIsFrom g ts ss →
      Reads next j (DerivationTree.forestYield ts) i → ss <+: (g.rhs q).drop k →
        g.Deducible next j ⟨.item ⟨q, k⟩, o⟩ → g.Deducible next i ⟨.item ⟨q, k + ss.length⟩, o⟩
  | [], [], _, _, _, _, _, _, hr, _, h => by
    obtain rfl : _ = _ := hr
    exact h
  | t :: ts, s :: ss, q, k, j, o, i, hts, hr, hss, h => by
    obtain ⟨ht, hts⟩ := hts
    obtain ⟨m, hu, hv⟩ := Reads.append_iff.1 hr
    obtain ⟨rest, hrest⟩ := hss
    have hnext : (⟨q, k⟩ : Item).next? g = some s := by
      have h0 : ((g.rhs q).drop k)[0]? = some s := by rw [← hrest]; rfl
      rwa [List.getElem?_drop] at h0
    have htail : ss <+: (g.rhs q).drop (k + 1) := by
      refine ⟨rest, ?_⟩
      rw [← List.drop_drop, ← hrest]
      rfl
    have hmove : g.Deducible next m ⟨.item ⟨q, k + 1⟩, o⟩ := by
      cases s with
      | terminal a =>
        obtain rfl := DerivationTree.isFrom_terminal.1 ht
        obtain ⟨ha, rfl⟩ := Reads.singleton_iff.1 hu
        exact h.shift hnext ha
      | nonTerminal n => exact (final_of_tree hg ht hu (h.call hnext)).back h hnext
    have hrec := item_of_forest hg hts hv htail hmove
    rw [List.length_cons, Nat.add_comm ss.length 1, ← Nat.add_assoc]
    exact hrec

end

theorem start_of_item (hg : g.WellFormed) {i o : Nat} {it : Item} {p : Production}
    (h : g.Deducible next i ⟨.item it, o⟩) (hp : g.production? it.production = some p) :
    g.Deducible next o ⟨.start p.lhs, o⟩ := by
  generalize hk : (⟨.item it, o⟩ : Key) = k at h
  -- A dot that moves leaves the production and the origin as they were.
  induction h generalizing it o with
  | seed => cases hk
  | @expand i o' q h hq ih =>
    cases hk
    obtain rfl := Option.some.inj ((hg.production?_id hq).symm.trans hp)
    obtain rfl := h.start_origin
    exact h
  | call h hn ih => cases hk
  | shift h ht hnext ih =>
    cases hk
    refine ih ?_ rfl
    exact hp
  | exit h hq hend ih => cases hk
  | back h hcall hn ih ihcall =>
    cases hk
    refine ihcall ?_ rfl
    exact hp

theorem start_of_final (hg : g.WellFormed) {i o n : Nat} (h : g.Deducible next i ⟨.final n, o⟩) :
    g.Deducible next o ⟨.start n, o⟩ := by
  cases h with
  | exit h hp hend => exact h.start_of_item hg hp

/-- Where a non-terminal is called, its items move over whatever has trees. -/
theorem item_of_mem_forests (hg : g.WellFormed) {j o dot : Nat} {p : Production}
    (h : g.Deducible next o ⟨.start p.lhs, o⟩) (hp : p ∈ g.productions) (hdot : dot ≤ p.rhs.length)
    {ts : List DerivationTree} (hts : ts ∈ g.forests next j ⟨.item ⟨p.id, dot⟩, o⟩) :
    g.Deducible next j ⟨.item ⟨p.id, dot⟩, o⟩ := by
  have hitem := item_of_forest hg hts.1 hts.2 (List.take_prefix _ _) (h.expand hp)
  rwa [List.length_take, hg.rhs_id hp, Nat.min_eq_left hdot, Nat.zero_add] at hitem

/-- The start symbol has ended at a position just when a tree of it reads the input up to there. -/
theorem final_start_iff (hg : g.WellFormed) {i : Nat} :
    g.Deducible next i ⟨.final g.start, 0⟩ ↔
      ∃ t : DerivationTree, t.IsFrom g (.nonTerminal g.start) ∧ Reads next 0 t.yield i := by
  constructor
  · intro h
    obtain ⟨_, t, -, ht, hr⟩ := h.forests_nonempty hg
    exact ⟨t, ht, hr⟩
  · rintro ⟨t, ht, hr⟩
    exact final_of_tree hg ht hr .seed

/-- Beyond a position nothing can be deduced but by a shift there. -/
theorem exists_shift {i : Nat} {k : Key} (h : g.Deducible next i k) : ∀ j < i, ∃ it o t,
    g.Deducible next j ⟨.item it, o⟩ ∧ it.next? g = some (.terminal t) ∧ next j = some t := by
  induction h with
  | seed => exact fun j hj => absurd hj (Nat.not_lt_zero j)
  | expand h hp ih => exact ih
  | call h hn ih => exact ih
  | @shift i o t it h ht hnext ih =>
    intro j hj
    rcases Nat.lt_succ_iff_lt_or_eq.1 hj with hlt | rfl
    · exact ih j hlt
    · exact ⟨it, o, t, h, ht, hnext⟩
  | exit h hp hend ih => exact ih
  | back h hcall hn ih ihcall => exact ih

theorem le_of_next_eq_none {i j : Nat} {k : Key} (h : g.Deducible next i k) (hend : next j = none) :
    i ≤ j := by
  by_contra hlt
  obtain ⟨it, o, t, -, -, hnext⟩ := h.exists_shift j (Nat.lt_of_not_le hlt)
  rw [hend] at hnext
  cases hnext

end Deducible

/-- The tokens are a sentence just when the start symbol can be deduced to end with them. -/
theorem WellFormed.isSentence_iff_deducible (hg : g.WellFormed) {tokens : List Token} :
    g.IsSentence tokens ↔ g.Deducible (g.coming tokens) tokens.length ⟨.final g.start, 0⟩ := by
  rw [Deducible.final_start_iff hg, isSentence_iff]
  simp only [reads_coming_iff (Nat.zero_le _), List.drop_zero]
  rfl

end Grammar

end GrammarFlow
