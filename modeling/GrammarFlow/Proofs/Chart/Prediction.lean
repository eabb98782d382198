import GrammarFlow.Proofs.Chart.Deduction
import GrammarFlow.Proofs.Grammar.SententialForm

namespace GrammarFlow

/-- What stands in two lists in a row stands in the first or in the second one. -/
theorem append_eq_append_cons {α : Type} {front back before after : List α} {a : α}
    (h : front ++ back = before ++ a :: after) :
    (∃ mid, front = before ++ a :: mid ∧ after = mid ++ back) ∨
      ∃ mid, before = front ++ mid ∧ back = mid ++ a :: after := by
  rcases List.append_eq_append_iff.1 h with ⟨mid, rfl, hback⟩ | ⟨mid, rfl, hmid⟩
  · exact Or.inr ⟨mid, rfl, hback⟩
  · rcases List.cons_eq_append_iff.1 hmid with ⟨rfl, hback⟩ | ⟨mid, rfl, rfl⟩
    · refine Or.inr ⟨[], ?_, hback⟩
      simp
    · exact Or.inl ⟨mid, rfl, rfl⟩

/-- The non-terminal that a key is about. -/
def Key.head? (g : Grammar) : Key → Option Nat
  | ⟨.start n, _⟩ => some n
  | ⟨.final n, _⟩ => some n
  | ⟨.item it, _⟩ => (g.production? it.production).map (·.lhs)

namespace Grammar

open DerivationTree

/-- The symbol comes next at the position: behind the dot of an item, or as the start symbol at the
beginning. -/
def Awaits (g : Grammar) (next : Nat → Option Nat) (i : Nat) (s : Symbol) : Prop :=
  (s = .nonTerminal g.start ∧ i = 0) ∨
    ∃ it o, g.Deducible next i ⟨.item it, o⟩ ∧ it.next? g = some s

/-- Some sentential form reads the input up to the position and goes on with the symbol. -/
def Reaches (g : Grammar) (next : Nat → Option Nat) (i : Nat) (s : Symbol) : Prop :=
  ∃ word rest, Reads next 0 word i ∧
    g.Derives [.nonTerminal g.start] (word.map .terminal ++ s :: rest)

variable {g : Grammar} {next : Nat → Option Nat} {i j o n : Nat} {s : Symbol} {p : Production}
  {it : Item} {ts : List DerivationTree} {before after : List Symbol} {k : Key}

theorem awaits_nonTerminal_iff :
    g.Awaits next i (.nonTerminal n) ↔ g.Deducible next i ⟨.start n, i⟩ := by
  constructor
  · rintro (⟨hs, rfl⟩ | ⟨it, o, h, hn⟩)
    · obtain rfl := Symbol.nonTerminal.inj hs
      exact .seed
    · exact h.call hn
  · intro h
    cases h with
    | seed => exact Or.inl ⟨rfl, rfl⟩
    | call h hn => exact Or.inr ⟨_, _, h, hn⟩

/-- Within a right-hand side a symbol stands behind the dot once the symbols before it are passed. -/
theorem Awaits.enter (hg : g.WellFormed) (h : g.Awaits next j (.nonTerminal p.lhs))
    (hp : p ∈ g.productions) (hrhs : p.rhs = before ++ s :: after) (hts : ForestIsFrom g ts before)
    (hr : Reads next j (forestYield ts) i) :
    ∃ it o, g.Deducible next i ⟨.item it, o⟩ ∧ it.next? g = some s := by
  have hstart := awaits_nonTerminal_iff.1 h
  have hprefix : before <+: (g.rhs p.id).drop 0 := by
    rw [hg.rhs_id hp, hrhs]
    exact List.prefix_append before _
  refine ⟨_, j, Deducible.item_of_forest hg hts hr hprefix (hstart.expand hp), ?_⟩
  rw [Item.next?, hg.rhs_id hp, hrhs]
  simp

/-- Every symbol of a form that the start symbol is rewritten to stands behind the dot of an item, at a
position up to which the symbols before it derive the input. -/
theorem exists_item_of_rewritten (hg : g.WellFormed) {form : List Symbol}
    (h : Relation.TransGen g.Rewrites [.nonTerminal g.start] form)
    (hform : form = before ++ s :: after) (hts : ForestIsFrom g ts before)
    (hr : Reads next 0 (forestYield ts) i) :
    ∃ it o, g.Deducible next i ⟨.item it, o⟩ ∧ it.next? g = some s := by
  induction h generalizing before s after ts i with
  | single hstep =>
    generalize hstart : [Symbol.nonTerminal g.start] = first at hstep
    obtain ⟨left, right, p, hp⟩ := hstep
    rcases List.append_eq_singleton_iff.1 hstart.symm with ⟨rfl, hs⟩ | ⟨-, hnil⟩
    · obtain ⟨hlhs, rfl⟩ := List.cons.inj hs
      rw [List.nil_append, List.append_nil] at hform
      have hawaits : g.Awaits next 0 (.nonTerminal p.lhs) := Or.inl ⟨hlhs, rfl⟩
      exact hawaits.enter hg hp hform hts hr
    · cases hnil
  | tail _ hstep ih =>
    obtain ⟨left, right, p, hp⟩ := hstep
    -- The symbol stands left of the last rewriting step, within its right-hand side, or right of it.
    rcases append_eq_append_cons hform with ⟨mid, hfront, rfl⟩ | ⟨mid, rfl, rfl⟩
    · rcases append_eq_append_cons hfront with ⟨mid, rfl, rfl⟩ | ⟨mid, rfl, hrhs⟩
      · exact ih (List.append_assoc _ _ _) hts hr
      · obtain ⟨us, vs, rfl, hus, hvs⟩ := forestIsFrom_append.1 hts
        rw [forestYield_append] at hr
        obtain ⟨j, hu, hv⟩ := Reads.append_iff.1 hr
        have hawaits : g.Awaits next j (.nonTerminal p.lhs) := Or.inr (ih rfl hus hu)
        exact hawaits.enter hg hp hrhs hvs hv
    · obtain ⟨us, hus, hyield⟩ := exists_forest_of_rewrites (.production left mid p hp) hts
      rw [← hyield] at hr
      exact ih (List.append_assoc left (.nonTerminal p.lhs :: mid) _).symm hus hr

/-- A form that goes on with a non-terminal is rewritten to one that goes on with the symbol behind the
dot of its items, once the symbols before the dot have derived the input. -/
theorem Reaches.enter (h : g.Reaches next o (.nonTerminal p.lhs))
    (hp : g.production? it.production = some p) (hs : it.next? g = some s)
    (hts : ts ∈ g.forests next i ⟨.item it, o⟩) : ∃ word rest, Reads next 0 word i ∧
      Relation.TransGen g.Rewrites [.nonTerminal g.start] (word.map .terminal ++ s :: rest) := by
  obtain ⟨word, rest, hr, hd⟩ := h
  obtain ⟨hforest, hreads⟩ := hts
  rw [rhs_of_production? hp] at hforest
  have hsplit : p.rhs = p.rhs.take it.dot ++ s :: p.rhs.drop (it.dot + 1) := by
    rw [Item.next?, rhs_of_production? hp] at hs
    obtain ⟨hlt, rfl⟩ := List.getElem?_eq_some_iff.1 hs
    rw [List.getElem_cons_drop, List.take_append_drop]
  have hstep := Rewrites.production (word.map .terminal) rest p (mem_of_production? hp)
  have hpassed : g.Derives p.rhs
      ((forestYield ts).map .terminal ++ s :: p.rhs.drop (it.dot + 1)) := by
    conv_lhs => rw [hsplit]
    exact (derives_of_forestIsFrom hforest).append_right _
  refine ⟨word ++ forestYield ts, p.rhs.drop (it.dot + 1) ++ rest,
    Reads.append_iff.2 ⟨o, hr, hreads⟩, ?_⟩
  have hinner := (hpassed.append_left (word.map .terminal)).append_right rest
  have hwhole := (Relation.TransGen.tail' hd hstep).trans_left hinner
  simpa using hwhole

theorem Deducible.reaches (hg : g.WellFormed) (h : g.Deducible next i k)
    (hn : k.head? g = some n) : g.Reaches next k.origin (.nonTerminal n) := by
  induction h generalizing n with
  | seed =>
    obtain rfl := Option.some.inj hn
    exact ⟨[], [], rfl, .refl _⟩
  | expand h hp ih =>
    apply ih
    rwa [Key.head?, hg.production?_id hp] at hn
  | call h hnext ih =>
    obtain rfl := Option.some.inj hn
    obtain ⟨p, hp, -⟩ := h.exists_production hg
    obtain ⟨ts, hts⟩ := h.forests_nonempty hg
    have hform := ih (n := p.lhs) (by rw [Key.head?, hp, Option.map_some])
    obtain ⟨word, rest, hr, hsteps⟩ := hform.enter hp hnext hts
    exact ⟨word, rest, hr, hsteps.to_reflTransGen⟩
  | shift h ht hnext ih => exact ih hn
  | exit h hp hend ih =>
    apply ih
    rwa [Key.head?, hp]
  | back h hcall hnext ih ihcall => exact ihcall hn

/-- What stands behind the dot of an item is what the start symbol is rewritten to go on with. -/
theorem exists_item_iff_rewritten (hg : g.WellFormed) :
    (∃ it o, g.Deducible next i ⟨.item it, o⟩ ∧ it.next? g = some s) ↔
      ∃ word rest, Reads next 0 word i ∧
        Relation.TransGen g.Rewrites [.nonTerminal g.start] (word.map .terminal ++ s :: rest) := by
  constructor
  · rintro ⟨it, o, h, hs⟩
    obtain ⟨p, hp, -⟩ := h.exists_production hg
    obtain ⟨ts, hts⟩ := h.forests_nonempty hg
    have hform := h.reaches hg (n := p.lhs) (by rw [Key.head?, hp, Option.map_some])
    exact hform.enter hp hs hts
  · rintro ⟨word, rest, hr, hsteps⟩
    have hyield := forestYield_leaves word
    exact exists_item_of_rewritten hg hsteps rfl (forestIsFrom_leaves word) (hyield.symm ▸ hr)

theorem awaits_iff_reaches (hg : g.WellFormed) : g.Awaits next i s ↔ g.Reaches next i s := by
  rw [Awaits, exists_item_iff_rewritten hg]
  constructor
  · rintro (⟨rfl, rfl⟩ | ⟨word, rest, hr, hsteps⟩)
    · exact ⟨[], [], rfl, .refl _⟩
    · exact ⟨word, rest, hr, hsteps.to_reflTransGen⟩
  · rintro ⟨word, rest, hr, hd⟩
    -- A form that no step has led to is the start symbol alone.
    rcases Relation.reflTransGen_iff_eq_or_transGen.1 hd with hstart | hsteps
    · rcases List.append_eq_singleton_iff.1 hstart with ⟨hword, hs⟩ | ⟨-, hnil⟩
      · obtain rfl := List.map_eq_nil_iff.1 hword
        obtain rfl : 0 = i := hr
        exact Or.inl ⟨(List.cons.inj hs).1, rfl⟩
      · cases hnil
    · exact Or.inr ⟨word, rest, hr, hsteps⟩

theorem deducible_start_iff (hg : g.WellFormed) :
    g.Deducible next i ⟨.start n, o⟩ ↔ o = i ∧ g.Reaches next o (.nonTerminal n) := by
  rw [← awaits_iff_reaches hg, awaits_nonTerminal_iff]
  constructor
  · intro h
    obtain rfl := h.start_origin
    exact ⟨rfl, h⟩
  · rintro ⟨rfl, h⟩
    exact h

theorem deducible_item_iff (hg : g.WellFormed) : g.Deducible next i ⟨.item it, o⟩ ↔
    ∃ p, g.production? it.production = some p ∧ it.dot ≤ p.rhs.length ∧
      g.Reaches next o (.nonTerminal p.lhs) ∧
      ∃ ts, ForestIsFrom g ts (p.rhs.take it.dot) ∧ Reads next o (forestYield ts) i := by
  constructor
  · intro h
    obtain ⟨p, hp, hdot⟩ := h.exists_production hg
    obtain ⟨ts, hforest, hr⟩ := h.forests_nonempty hg
    rw [rhs_of_production? hp] at hforest
    exact ⟨p, hp, hdot, h.reaches hg (by rw [Key.head?, hp, Option.map_some]), ts, hforest, hr⟩
  · rintro ⟨p, hp, hdot, hform, ts, hforest, hr⟩
    have hstart := awaits_nonTerminal_iff.1 ((awaits_iff_reaches hg).2 hform)
    have hts : ts ∈ g.forests next i ⟨.item ⟨p.id, it.dot⟩, o⟩ := by
      refine ⟨?_, hr⟩
      rwa [hg.rhs_id (mem_of_production? hp)]
    have hitem := hstart.item_of_mem_forests hg (mem_of_production? hp) hdot hts
    rwa [hg.id_eq hp] at hitem

theorem deducible_final_iff (hg : g.WellFormed) : g.Deducible next i ⟨.final n, o⟩ ↔
    g.Reaches next o (.nonTerminal n) ∧
      ∃ ts, ForestIsFrom g ts [.nonTerminal n] ∧ Reads next o (forestYield ts) i := by
  have hforests : (∃ ts, ForestIsFrom g ts [.nonTerminal n] ∧ Reads next o (forestYield ts) i) ↔
      ∃ t : DerivationTree, t.IsFrom g (.nonTerminal n) ∧ Reads next o t.yield i := by
    simp
  rw [hforests]
  constructor
  · intro h
    obtain ⟨_, t, -, ht, hr⟩ := h.forests_nonempty hg
    exact ⟨h.reaches hg rfl, t, ht, hr⟩
  · rintro ⟨hform, t, ht, hr⟩
    have hstart := awaits_nonTerminal_iff.1 ((awaits_iff_reaches hg).2 hform)
    exact hstart.final_of_tree hg ht hr

/-- What an entry of a position says of the tokens. Behind those before its origin some sentential form
goes on with its non-terminal, and what has been passed of it derives those from there to the position. -/
def Justifies (g : Grammar) (tokens : List Token) (i : Nat) : Key → Prop
  | ⟨.start n, o⟩ => o = i ∧ g.Follows (tokens.take o) (.nonTerminal n)
  | ⟨.item it, o⟩ => o ≤ i ∧ ∃ p, g.production? it.production = some p ∧ it.dot ≤ p.rhs.length ∧
      g.Follows (tokens.take o) (.nonTerminal p.lhs) ∧
      g.Generates (p.rhs.take it.dot) ((tokens.take i).drop o)
  | ⟨.final n, o⟩ => o ≤ i ∧ g.Follows (tokens.take o) (.nonTerminal n) ∧
      g.Generates [.nonTerminal n] ((tokens.take i).drop o)

variable {tokens : List Token}

theorem reaches_coming_iff (hi : i ≤ tokens.length) :
    g.Reaches (g.coming tokens) i s ↔ g.Follows (tokens.take i) s := by
  simp only [Reaches, Follows, reads_coming_take_iff (Nat.zero_le i) hi, List.drop_zero]

theorem exists_forest_reads_iff {ss : List Symbol} (hi : i ≤ tokens.length) :
    (∃ ts, ForestIsFrom g ts ss ∧ Reads (g.coming tokens) o (forestYield ts) i) ↔
      o ≤ i ∧ g.Generates ss ((tokens.take i).drop o) := by
  rw [generates_iff_exists_forest]
  constructor
  · rintro ⟨ts, hts, hr⟩
    have ho : o ≤ i := by
      have := hr.length_eq
      omega
    exact ⟨ho, ts, hts, (reads_coming_take_iff ho hi).1 hr⟩
  · rintro ⟨ho, ts, hts, hword⟩
    exact ⟨ts, hts, (reads_coming_take_iff ho hi).2 hword⟩

/-- What can be deduced at a position of the tokens is what derivations say of them. -/
theorem deducible_iff_justifies (hg : g.WellFormed) (hi : i ≤ tokens.length) :
    g.Deducible (g.coming tokens) i k ↔ g.Justifies tokens i k := by
  obtain ⟨v, o⟩ := k
  have hreaches : ∀ {s}, o ≤ i → (g.Reaches (g.coming tokens) o s ↔ g.Follows (tokens.take o) s) :=
    fun ho => reaches_coming_iff (ho.trans hi)
  cases v with
  | start n =>
    rw [deducible_start_iff hg, Justifies]
    exact and_congr_right fun ho => hreaches (Nat.le_of_eq ho)
  | item it =>
    simp only [deducible_item_iff hg, exists_forest_reads_iff hi, Justifies]
    constructor
    · rintro ⟨p, hp, hdot, hform, ho, hgen⟩
      exact ⟨ho, p, hp, hdot, (hreaches ho).1 hform, hgen⟩
    · rintro ⟨ho, p, hp, hdot, hform, hgen⟩
      exact ⟨p, hp, hdot, (hreaches ho).2 hform, ho, hgen⟩
  | final n =>
    simp only [deducible_final_iff hg, exists_forest_reads_iff hi, Justifies]
    constructor
    · rintro ⟨hform, ho, hgen⟩
      exact ⟨ho, (hreaches ho).1 hform, hgen⟩
    · rintro ⟨ho, hform, hgen⟩
      exact ⟨(hreaches ho).2 hform, ho, hgen⟩

theorem isViable_take_iff (hg : g.WellFormed) (hi : i ≤ tokens.length) :
    g.IsViable (tokens.take i) ↔ ∃ k, g.Deducible (g.coming tokens) i k := by
  cases i with
  | zero =>
    rw [List.take_zero]
    exact ⟨fun _ => ⟨_, .seed⟩, fun _ => isViable_nil⟩
  | succ i =>
    have hcoming : g.coming tokens i = g.terminalId? tokens[i].terminal := by
      rw [coming, List.getElem?_eq_getElem hi]
      rfl
    rw [List.take_succ_eq_append_getElem hi, isViable_concat_iff]
    simp only [← reaches_coming_iff (Nat.le_of_lt hi), ← awaits_iff_reaches hg, ← hcoming]
    constructor
    · rintro ⟨a, ha, ⟨hs, -⟩ | ⟨it, o, h, hs⟩⟩
      · cases hs
      · exact ⟨_, h.shift hs ha⟩
    · rintro ⟨k, hk⟩
      obtain ⟨it, o, a, h, hs, ha⟩ := hk.exists_shift i (Nat.lt_succ_self i)
      exact ⟨a, ha, Or.inr ⟨it, o, h, hs⟩⟩

end Grammar

end GrammarFlow
