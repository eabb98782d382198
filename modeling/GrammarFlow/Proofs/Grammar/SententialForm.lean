import GrammarFlow.Proofs.Grammar.DerivationTree

namespace GrammarFlow.Grammar

/-- The tokens begin a sentential form. -/
def IsViable (g : Grammar) (tokens : List Token) : Prop :=
  ∃ word form, g.Spells tokens word ∧ g.Derives [.nonTerminal g.start] form ∧
    word.map .terminal <+: form

/-- The tokens begin a sentential form that goes on with the symbol. -/
def Follows (g : Grammar) (tokens : List Token) (s : Symbol) : Prop :=
  ∃ word rest, g.Spells tokens word ∧
    g.Derives [.nonTerminal g.start] (word.map .terminal ++ s :: rest)

/-- The symbols derive the tokens. -/
def Generates (g : Grammar) (ss : List Symbol) (tokens : List Token) : Prop :=
  ∃ word, g.Spells tokens word ∧ g.Derives ss (word.map .terminal)

variable {g : Grammar} {tokens : List Token} {t : Token}

theorem generates_iff_exists_forest {ss : List Symbol} : g.Generates ss tokens ↔
    ∃ ts, DerivationTree.ForestIsFrom g ts ss ∧ g.Spells tokens (DerivationTree.forestYield ts) := by
  constructor
  · rintro ⟨word, hword, hd⟩
    obtain ⟨ts, hts, rfl⟩ := DerivationTree.exists_forest_of_derives hd
    exact ⟨ts, hts, hword⟩
  · rintro ⟨ts, hts, hword⟩
    exact ⟨_, hword, DerivationTree.derives_of_forestIsFrom hts⟩

theorem spells_concat_iff {word : List Nat} : g.Spells (tokens ++ [t]) word ↔
    ∃ u a, word = u ++ [a] ∧ g.Spells tokens u ∧ g.terminalId? t.terminal = some a := by
  unfold Spells
  rw [List.map_append, eq_comm, List.map_eq_append_iff]
  constructor
  · rintro ⟨u, v, rfl, hu, hv⟩
    obtain ⟨a, rfl, ha⟩ := List.map_eq_singleton_iff.1 hv
    exact ⟨u, a, rfl, hu.symm, ha.symm⟩
  · rintro ⟨u, a, rfl, hu, ha⟩
    refine ⟨u, [a], rfl, hu.symm, ?_⟩
    simp [ha]

theorem isViable_nil : g.IsViable [] := ⟨[], _, rfl, .refl _, List.nil_prefix⟩

/-- Tokens stay viable with one more behind them if its terminal follows them. -/
theorem isViable_concat_iff : g.IsViable (tokens ++ [t]) ↔
    ∃ a, g.terminalId? t.terminal = some a ∧ g.Follows tokens (.terminal a) := by
  constructor
  · rintro ⟨word, form, hword, hd, rest, rfl⟩
    obtain ⟨u, a, rfl, hu, ha⟩ := spells_concat_iff.1 hword
    refine ⟨a, ha, u, rest, hu, ?_⟩
    simpa using hd
  · rintro ⟨a, ha, u, rest, hu, hd⟩
    refine ⟨u ++ [a], _, spells_concat_iff.2 ⟨u, a, rfl, hu, ha⟩, hd, rest, ?_⟩
    simp

end GrammarFlow.Grammar
