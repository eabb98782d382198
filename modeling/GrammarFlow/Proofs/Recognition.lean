import GrammarFlow.Parsing
import GrammarFlow.Proofs.Chart.Closure

namespace GrammarFlow

namespace Chart

variable {g : Grammar} {next : Nat → Option Nat} {c : Chart} {i : Nat}

/-- The chart after some tokens, before its last position is closed. -/
structure Reached (g : Grammar) (next : Nat → Option Nat) (i : Nat) (c : Chart) : Prop where
  size_eq : c.size = i + 1
  sound : c.Sound g next
  saturated : c.Saturated g next ⟨i, 0⟩
  seed : ∃ r, r.position = 0 ∧ c.key? r = some ⟨.start g.start, 0⟩

theorem reached_seeded (G : Graph) (next : Nat → Option Nat) :
    (seeded G).Reached G.grammar next 0 := by
  have hsize : 0 < initial.size := Nat.zero_lt_one
  refine ⟨size_push, ⟨consistent_initial.push hsize, fun {r e} h => ?_⟩, ⟨?_, ?_⟩, ?_⟩
  · rcases entry?_push consistent_initial hsize h with h | ⟨e', h, -⟩ | ⟨rfl, rfl⟩
    · simp [entry?_eq] at h
    · simp [entry?_eq] at h
    · exact ⟨.seed, List.nodup_nil, nofun, Or.inl ⟨rfl, rfl⟩⟩
  · intro term i k hsup hlt
    exact absurd (hlt term.source List.mem_cons_self) (Ref.not_lt_zero _)
  · intro j n place
    rw [seeded, callers_push, set_initial]
    constructor
    · intro h
      simp [StateSet.callers, Std.TreeMap.getD_emptyc] at h
    · rintro ⟨h, -⟩
      exact absurd h (Ref.not_lt_zero _)
  · exact ⟨⟨0, 0⟩, rfl, rfl⟩

theorem Saturated.addSet {cursor : Ref} (h : c.Saturated g next cursor) :
    c.addSet.Saturated g next cursor where
  linked hsup hlt := by
    have hl := h.linked (hsup.mono fun hr => by rwa [key?, entry?_addSet] at hr) hlt
    simpa only [Linked, entry?_addSet] using hl
  mem_callers_iff {j n place} := by
    simpa only [set_addSet, Waits, key?, entry?_addSet] using h.mem_callers_iff (j := j)

theorem exists_key?_of_isEmpty_eq_false (h : (c.set i).isEmpty = false) :
    ∃ k, c.key? ⟨i, 0⟩ = some k := by
  rw [StateSet.isEmpty, Array.isEmpty_eq_false_iff] at h
  obtain ⟨e, he⟩ := exists_entry?_of_lt (c := c) (r := ⟨i, 0⟩) (Array.size_pos_iff.2 h)
  exact ⟨e.key, key?_of_entry he⟩

theorem set_nonempty_of_key? {r : Ref} {k : Key} (h : c.key? r = some k) :
    (c.set r.position).isEmpty = false := by
  obtain ⟨e, he, -⟩ := exists_entry?_of_key? h
  have hlt := index_lt_of_entry he
  rw [StateSet.isEmpty, Array.isEmpty_eq_false_iff]
  exact Array.size_pos_iff.1 (Nat.lt_of_le_of_lt (Nat.zero_le _) hlt)

namespace Reached

theorem room (h : c.Reached g next i) : i < c.size := by
  rw [h.size_eq]
  exact Nat.lt_succ_self i

theorem room_addSet (h : c.Reached g next i) : i + 1 < c.addSet.size := by
  rw [size_addSet, h.size_eq]
  exact Nat.lt_succ_self _

theorem seed_of_extends {c' : Chart} (h : c.Reached g next i) (he : Extends i c c') :
    ∃ r, r.position = 0 ∧ c'.key? r = some ⟨.start g.start, 0⟩ := by
  obtain ⟨r, hr, hk⟩ := h.seed
  exact ⟨r, hr, he.key hk⟩

/-- A token leads from a position to the next one, where nothing may be found. -/
theorem advance {G : Graph} {t : Token} (hg : G.grammar.WellFormed) (h : c.Reached G.grammar next i)
    (hnext : next i = G.grammar.terminalId? t.terminal) :
    (c.advance G i t).Reached G.grammar next (i + 1) := by
  obtain ⟨hprog, hsat⟩ := close_spec hg h.sound.addSet h.saturated.addSet fun _ => h.room_addSet
  rw [hnext] at hprog hsat
  refine ⟨?_, hprog.sound, hsat, ?_⟩
  · rw [Chart.advance, hprog.grows.size_eq, size_addSet, h.size_eq]
  · obtain ⟨r, hr, hk⟩ := h.seed
    exact ⟨r, hr, hprog.grows.key (by rwa [key?, entry?_addSet])⟩

/-- A token whose shifts seed nothing ends all deduction. -/
theorem not_deducible (hg : g.WellFormed) (h : c.Reached g next (i + 1))
    (hempty : (c.set (i + 1)).isEmpty = true) {j : Nat} (hj : i < j) (k : Key) :
    ¬g.Deducible next j k := by
  intro hk
  obtain ⟨it, o, t, hit, ht, hnext⟩ := hk.exists_shift i hj
  obtain ⟨a, rfl, ha⟩ := h.saturated.exists_key? hg h.seed hit (Nat.lt_succ_self _)
  -- The shift of such an item would stand at the next position.
  obtain ⟨place, e, he, -⟩ := h.saturated.linked (.shift ha ht hnext)
    (by simp [Term.refs, Ref.lt_iff])
  have hne := set_nonempty_of_key? (key?_of_entry he)
  rw [hempty] at hne
  exact Bool.noConfusion hne

end Reached

end Chart

/-- What an accepted parse of the tokens holds. -/
structure Parsing.Accepts (p : Parsing) (tokens : List Token) : Prop where
  wellFormed : p.grammar.WellFormed
  tokens_eq : p.tokens.toList = tokens
  size_eq : p.chart.size = tokens.length + 1
  sound : p.chart.Sound p.grammar (p.grammar.coming tokens)
  saturated : p.chart.Saturated p.grammar (p.grammar.coming tokens) ⟨tokens.length + 1, 0⟩
  seed : ∃ r, r.position = 0 ∧ p.chart.key? r = some ⟨.start p.grammar.start, 0⟩
  position_accept : p.accept.position = tokens.length
  key?_accept : p.chart.key? p.accept = some ⟨.final p.grammar.start, 0⟩

/-- What a failure says of the tokens: its position is the last one where anything can be deduced, and
it was read off there when the position had been closed. -/
structure Graph.Rejects (G : Graph) (tokens : List Token) (f : ParseFailure) : Prop where
  position_le : f.position ≤ tokens.length
  reached : ∃ k, G.grammar.Deducible (G.grammar.coming tokens) f.position k
  blocked : ∀ {j k}, f.position < j → ¬G.grammar.Deducible (G.grammar.coming tokens) j k
  not_isSentence : ¬G.grammar.IsSentence tokens
  exists_chart : ∃ c : Chart, c.ClosedTo G.grammar (G.grammar.coming tokens) f.position ∧
    f = c.failure G f.position tokens[f.position]?

namespace Graph

variable {G : Graph} {tokens : List Token}

def Answers (G : Graph) (tokens : List Token) : Except ParseFailure Parsing → Prop
  | .ok p => p.graph = G ∧ p.Accepts tokens
  | .error _ => ¬G.grammar.IsSentence tokens

/-- An outcome whose chart or failure is right for the tokens. -/
def Settles (G : Graph) (tokens : List Token) : Except ParseFailure Parsing → Prop
  | .ok p => p.graph = G ∧ p.Accepts tokens
  | .error f => G.Rejects tokens f

theorem Settles.answers {outcome : Except ParseFailure Parsing} (h : G.Settles tokens outcome) :
    G.Answers tokens outcome := by
  cases outcome with
  | ok p => exact h
  | error f => exact Rejects.not_isSentence h

theorem settles_readOn_nil (hg : G.grammar.WellFormed) {seen : Array Token} {c : Chart}
    (hc : c.Reached G.grammar (G.grammar.coming seen.toList) seen.size)
    (hd : ∃ k, G.grammar.Deducible (G.grammar.coming seen.toList) seen.size k) :
    G.Settles seen.toList (G.readOn seen c []).outcome := by
  have hnone : seen.toList[seen.size]? = none := List.getElem?_eq_none (by simp)
  have hend : G.grammar.coming seen.toList seen.size = none := by
    rw [Grammar.coming, hnone]
    rfl
  obtain ⟨hprog, hsat⟩ := Chart.close_spec hg hc.sound hc.saturated fun h => absurd hend h
  have hseed := hc.seed_of_extends hprog.grows
  rw [hend] at hprog hsat hseed
  have hfind : ∀ {r}, (c.close G none seen.size).find? seen.size (.final G.grammar.start) 0 =
      some r ↔ r.position = seen.size ∧
        (c.close G none seen.size).key? r = some ⟨.final G.grammar.start, 0⟩ :=
    hprog.sound.consistent.find?_iff (k := ⟨.final G.grammar.start, 0⟩)
  rw [readOn]
  split
  · next accept haccept =>
    obtain ⟨hpos, hkey⟩ := hfind.1 haccept
    exact ⟨rfl, hg, rfl, hprog.grows.size_eq.trans hc.size_eq, hprog.sound, hsat, hseed, hpos, hkey⟩
  · next hlookup =>
    refine ⟨Nat.le_refl _, hd, fun hlt hk => ?_, fun hsentence => ?_, _,
      ⟨hprog.sound, hsat, hseed⟩, ?_⟩
    · exact Nat.not_le_of_lt hlt (hk.le_of_next_eq_none hend)
    · obtain ⟨r, hpos, hkey⟩ := hsat.exists_key? hg hseed
        (hg.isSentence_iff_deducible.1 hsentence) (Nat.lt_succ_self _)
      rw [hfind.2 ⟨hpos, hkey⟩] at hlookup
      exact Option.some_ne_none r hlookup
    · exact congrArg (Chart.failure _ G seen.size) hnone.symm

theorem settles_readOn (hg : G.grammar.WellFormed) {rest : List Token} {seen : Array Token} {c : Chart}
    (htokens : seen.toList ++ rest = tokens)
    (hc : c.Reached G.grammar (G.grammar.coming tokens) seen.size)
    (hd : ∃ k, G.grammar.Deducible (G.grammar.coming tokens) seen.size k) :
    G.Settles tokens (G.readOn seen c rest).outcome := by
  -- The tokens left go down by one, and the chart is ready for the next one.
  induction rest generalizing seen c with
  | nil =>
    obtain rfl : seen.toList = tokens := by rw [← htokens, List.append_nil]
    exact settles_readOn_nil hg hc hd
  | cons t rest ih =>
    have htoken : tokens[seen.size]? = some t := by
      rw [← htokens, List.getElem?_append_right (by simp)]
      simp
    have hcoming : G.grammar.coming tokens seen.size = G.grammar.terminalId? t.terminal := by
      rw [Grammar.coming, htoken]
      rfl
    have hlength : seen.size < tokens.length := (List.getElem?_eq_some_iff.1 htoken).1
    have hnext := hc.advance hg hcoming
    rw [readOn]
    cases hempty : ((c.advance G seen.size t).set (seen.size + 1)).isEmpty with
    | true =>
      have hblocked := fun {j} hlt => hnext.not_deducible hg hempty (j := j) hlt
      rw [if_pos rfl]
      refine ⟨Nat.le_of_lt hlength, hd, fun hlt => hblocked hlt _, fun hsentence => ?_, _,
        ⟨hnext.sound, hnext.saturated, hnext.seed⟩, ?_⟩
      · exact hblocked hlength _ (hg.isSentence_iff_deducible.1 hsentence)
      · exact congrArg (Chart.failure _ G seen.size) htoken.symm
    | false =>
      obtain ⟨k, hk⟩ := Chart.exists_key?_of_isEmpty_eq_false hempty
      rw [if_neg Bool.false_ne_true]
      apply ih
      · rw [Array.toList_push, List.append_assoc]
        exact htokens
      · rwa [Array.size_push]
      · rw [Array.size_push]
        exact ⟨k, hnext.sound.deducible hk⟩

theorem settles_parse (hg : G.grammar.WellFormed) (tokens : List Token) :
    G.Settles tokens (G.parse tokens) := by
  have hseen : (#[] : Array Token).toList ++ tokens = tokens := rfl
  exact settles_readOn hg hseen (Chart.reached_seeded G _) ⟨_, .seed⟩

theorem answers_parse (hg : G.grammar.WellFormed) (tokens : List Token) :
    G.Answers tokens (G.parse tokens) := (settles_parse hg tokens).answers

theorem recognizes_iff : G.recognizes tokens = true ↔ ∃ p, G.parse tokens = .ok p := by
  rw [recognizes]
  cases G.parse tokens with
  | ok p => simp
  | error failure => simp

end Graph

theorem Parsing.Accepts.isSentence {p : Parsing} {tokens : List Token} (h : p.Accepts tokens) :
    p.grammar.IsSentence tokens := by
  rw [h.wellFormed.isSentence_iff_deducible, ← h.position_accept]
  exact h.sound.deducible h.key?_accept

theorem Graph.accepts_of_parse {d : Declaration} {g : Grammar} (hg : d.build = .ok g)
    {tokens : List Token} {p : Parsing} (hp : (Graph.ofGrammar g).parse tokens = .ok p) :
    p.grammar = g ∧ p.Accepts tokens := by
  have h := Graph.answers_parse (G := Graph.ofGrammar g) (Declaration.wellFormed_of_build hg) tokens
  rw [hp] at h
  exact ⟨congrArg Graph.grammar h.1, h.2⟩

/-- Whatever the grammar, the tokens are accepted if their terminals are declared and derivable from
the start symbol, and refused otherwise. -/
theorem parse_accepts_iff_isSentence {d : Declaration} {g : Grammar} (hg : d.build = .ok g)
    (tokens : List Token) :
    ((∃ p, (Graph.ofGrammar g).parse tokens = .ok p) ↔ g.IsSentence tokens) ∧
      ((∃ failure, (Graph.ofGrammar g).parse tokens = .error failure) ↔ ¬g.IsSentence tokens) ∧
      ((Graph.ofGrammar g).recognizes tokens = true ↔ g.IsSentence tokens) := by
  have hwf : (Graph.ofGrammar g).grammar.WellFormed := Declaration.wellFormed_of_build hg
  have h := Graph.answers_parse hwf tokens
  rw [Graph.recognizes_iff]
  cases hparse : (Graph.ofGrammar g).parse tokens with
  | ok p =>
    obtain ⟨rfl, hp⟩ := Graph.accepts_of_parse hg hparse
    simp [hp.isSentence]
  | error failure =>
    rw [hparse] at h
    have hnot : ¬g.IsSentence tokens := h
    simp [hnot]

def sums : Declaration :=
  { name := "sums", terminals := ["n", "+"], rules := [("E", ["E", "+", "E"]), ("E", ["n"])] }

def sumsGrammar : Grammar :=
  { name := "sums"
    start := 0
    terminals := ⟨#["n", "+"], by decide⟩
    nonTerminals := ⟨#["E"], by decide⟩
    productions := #[⟨0, 0, [.nonTerminal 0, .terminal 1, .nonTerminal 0]⟩,
      ⟨1, 0, [.terminal 0]⟩] }

theorem build_sums : sums.build = .ok sumsGrammar := by decide +kernel

def threeNumbers : List Token := [⟨"1", "n"⟩, ⟨"+", "+"⟩, ⟨"2", "n"⟩, ⟨"+", "+"⟩, ⟨"3", "n"⟩]

theorem recognizes_threeNumbers :
    (Graph.ofGrammar sumsGrammar).recognizes threeNumbers = true := by decide +kernel

theorem threeNumbers_isSentence :
    sums.build = .ok sumsGrammar ∧ sumsGrammar.IsSentence threeNumbers :=
  ⟨build_sums, (parse_accepts_iff_isSentence build_sums threeNumbers).2.2.1 recognizes_threeNumbers⟩

end GrammarFlow
