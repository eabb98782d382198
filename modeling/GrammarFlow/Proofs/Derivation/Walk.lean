import GrammarFlow.Proofs.Derivation.Descent
import GrammarFlow.Proofs.Derivation.Trees

namespace GrammarFlow

namespace Chart

variable {c : Chart} {r r' : Ref} {k : Key} {i j : Nat}

def before (c : Chart) (i : Nat) : Nat := ((c.sets.toList.take i).map (·.size)).sum

/-- The place of an entry in chart order. -/
def rank (c : Chart) (r : Ref) : Nat := c.before r.position + r.index

theorem before_succ (h : i < c.size) : c.before (i + 1) = c.before i + (c.set i).size := by
  have hset : c.sets.toList[i]? = some (c.set i) := by
    rw [Array.getElem?_toList]
    exact set_eq_of_lt h
  rw [before, before, List.take_add_one, hset, List.map_append, List.sum_append]
  simp

theorem before_mono (h : i ≤ j) : c.before i ≤ c.before j := by
  refine monotone_nat_of_le_succ (fun i => ?_) h
  by_cases hi : i < c.size
  · rw [before_succ hi]
    exact Nat.le_add_right _ _
  · have hle : c.sets.toList.length ≤ i := Nat.le_of_not_lt hi
    rw [before, before, List.take_of_length_le hle, List.take_of_length_le (hle.trans i.le_succ)]

theorem rank_lt_before (h : c.key? r = some k) : c.rank r < c.before (r.position + 1) := by
  obtain ⟨e, he, -⟩ := exists_entry?_of_key? h
  have hindex := index_lt_of_entry he
  rw [before_succ (lt_size_of_entry he), rank]
  omega

theorem rank_lt_entryCount (h : c.key? r = some k) : c.rank r < c.entryCount := by
  apply (rank_lt_before h).trans_le
  have hle : c.before (r.position + 1) ≤ c.before c.size := before_mono (lt_size_of_key? h)
  have hall : c.sets.toList.take c.size = c.sets.toList :=
    List.take_of_length_le (Nat.le_of_eq Array.length_toList)
  rwa [before, before, hall] at hle

theorem rank_lt_rank (h : c.key? r = some k) (hlt : r < r') : c.rank r < c.rank r' := by
  rcases hlt with hlt | ⟨heq, hlt⟩
  · calc
      c.rank r < c.before (r.position + 1) := rank_lt_before h
      _ ≤ c.before r'.position := before_mono hlt
      _ ≤ c.rank r' := Nat.le_add_right _ _
  · rw [rank, rank, heq]
    exact Nat.add_lt_add_left hlt _

end Chart

namespace Parsing

open DerivationTree

variable {p : Parsing} {tokens : List Token} {r a q : Ref} {it : Item} {n m o : Nat}

/-- So many steps fit below an entry: each entry on a way down may double them. -/
def Fits (p : Parsing) (n : Nat) (r : Ref) : Prop := n + 2 ≤ Nat.pow 2 (p.chart.rank r + 2)

theorem fits_one : p.Fits 1 r :=
  calc
    1 + 2 ≤ Nat.pow 2 2 := by decide
    _ ≤ Nat.pow 2 (p.chart.rank r + 2) := Nat.pow_le_pow_right (by decide) (Nat.le_add_left 2 _)

theorem Fits.two_mul_le (h : p.Fits n a) (hlt : p.chart.rank a < p.chart.rank r) :
    2 * (n + 2) ≤ Nat.pow 2 (p.chart.rank r + 2) :=
  calc
    2 * (n + 2) ≤ 2 * Nat.pow 2 (p.chart.rank a + 2) := Nat.mul_le_mul_left 2 h
    _ = Nat.pow 2 (p.chart.rank a + 2 + 1) := (Nat.pow_succ'.symm :)
    _ ≤ Nat.pow 2 (p.chart.rank r + 2) := Nat.pow_le_pow_right (by decide) (by omega)

theorem Fits.succ (h : p.Fits n a) (hlt : p.chart.rank a < p.chart.rank r) : p.Fits (1 + n) r := by
  have hle := h.two_mul_le hlt
  rw [Fits]
  omega

theorem Fits.add (ha : p.Fits n a) (hq : p.Fits m q) (hlta : p.chart.rank a < p.chart.rank r)
    (hltq : p.chart.rank q < p.chart.rank r) : p.Fits (1 + (n + (1 + m))) r := by
  have hlea := ha.two_mul_le hlta
  have hleq := hq.two_mul_le hltq
  rw [Fits]
  omega

/-- From an end the walker gives the events of one of its trees and comes to the start of the
non-terminal, with the calls to return to and the open nodes that it had. -/
def WalksNode (p : Parsing) (r : Ref) (o : Nat) : Prop :=
  ∃ t, [t] ∈ p.trees r ∧ p.Meets t o r ∧ ∃ n s m, p.Fits n r ∧ s.position = o ∧
    p.chart.key? s = some ⟨.start m, o⟩ ∧ ∀ returns opened slot,
      p.Runs n ⟨some r, returns, opened, slot⟩ (t.events o slot) ⟨some s, returns, opened, none⟩

/-- From an item the walker gives the events of trees for the symbols before the dot, and the end of the
innermost node. -/
def WalksItem (p : Parsing) (r : Ref) (it : Item) (o : Nat) : Prop :=
  ∃ ts ∈ p.trees r, p.MeetsBelow ts o r ∧ ∃ n s m, p.Fits n r ∧ s.position = o ∧
    p.chart.key? s = some ⟨.start m, o⟩ ∧ ∀ returns span opened,
      p.Runs n ⟨some r, returns, span :: opened, none⟩
        (forestEvents ts o 0 ++ [.reduce it.production span]) ⟨some s, returns, opened, none⟩

/-- The stacks fit the entry that comes next. For each call to return to there is one open node, and at an
item its own node too; the slot is held from the call to the end of the callee. -/
inductive InStep (p : Parsing) : Walker → Prop where
  | final {r : Ref} {n o : Nat} {returns : List ReturnPoint} {opened : List Span} {slot : Option Nat}
    (hr : p.chart.key? r = some ⟨.final n, o⟩) (hcallers : ∀ c ∈ returns, ∃ it, c.caller = .item it)
    (hopened : opened.length = returns.length) (hslot : slot = none ↔ returns = []) :
    InStep p ⟨some r, returns, opened, slot⟩
  | item {r : Ref} {o : Nat} {it : Item} {returns : List ReturnPoint} {opened : List Span}
    (hr : p.chart.key? r = some ⟨.item it, o⟩) (hcallers : ∀ c ∈ returns, ∃ it, c.caller = .item it)
    (hopened : opened.length = returns.length + 1) : InStep p ⟨some r, returns, opened, none⟩
  | start {r : Ref} {n o : Nat} {returns : List ReturnPoint} {opened : List Span}
    (hr : p.chart.key? r = some ⟨.start n, o⟩) (hcallers : ∀ c ∈ returns, ∃ it, c.caller = .item it)
    (hopened : opened.length = returns.length) : InStep p ⟨some r, returns, opened, none⟩
  | ended : InStep p ⟨none, [], [], none⟩

theorem InStep.exists_key? {w : Walker} (h : p.InStep w) (hw : w.current = some r) :
    ∃ k, p.chart.key? r = some k := by
  cases h with
  | final hr => exact ⟨_, Option.some.inj hw ▸ hr⟩
  | item hr => exact ⟨_, Option.some.inj hw ▸ hr⟩
  | start hr => exact ⟨_, Option.some.inj hw ▸ hr⟩
  | ended => cases hw

theorem Turn.inStep {w w' : Walker} {event : Option Event} (hturn : p.Turn w event w')
    (h : p.InStep w) : p.InStep w' := by
  cases hturn with
  | enter he hfirst hr ha hlt =>
    cases h with
    | final _ hcallers hopened _ => exact .item ha hcallers (congrArg (· + 1) hopened)
    | item hr' => cases hr.symm.trans hr'
    | start hr' => cases hr.symm.trans hr'
  | reduce hr hs hlt =>
    cases h with
    | final hr' => cases hr.symm.trans hr'
    | item _ hcallers hopened => exact .start hs hcallers (Nat.succ.inj hopened)
    | start hr' => cases hr.symm.trans hr'
  | shift hr ha hlt =>
    cases h with
    | final hr' => cases hr.symm.trans hr'
    | item _ hcallers hopened => exact .item ha hcallers hopened
    | start hr' => cases hr.symm.trans hr'
  | back hr ha hlt hfind hltq =>
    cases h with
    | final hr' => cases hr.symm.trans hr'
    | item _ hcallers hopened =>
      exact .final ha (List.forall_mem_cons.2 ⟨⟨_, rfl⟩, hcallers⟩) hopened (by simp)
    | start hr' => cases hr.symm.trans hr'
  | @resume _ _ _ point _ _ _ hr hfind hq =>
    cases h with
    | final hr' => cases hr.symm.trans hr'
    | item hr' => cases hr.symm.trans hr'
    | start _ hcallers hopened =>
      obtain ⟨⟨it, hit⟩, hcallers⟩ := List.forall_mem_cons.1 hcallers
      rw [hit] at hq
      exact .item hq hcallers hopened
  | finish hr =>
    cases h with
    | final hr' => cases hr.symm.trans hr'
    | item hr' => cases hr.symm.trans hr'
    | start _ _ hopened =>
      obtain rfl := List.length_eq_zero_iff.1 hopened
      exact .ended

namespace Accepts

theorem inStep_walker (h : p.Accepts tokens) : p.InStep p.walker :=
  .final h.key?_accept (fun c hc => by cases hc) rfl (by simp)

theorem inStep_of_runs (h : p.Accepts tokens) {w w' : Walker} {events : List Event}
    (hrun : p.Runs n w events w') (hw : p.InStep w) : p.InStep w' := by
  -- By induction on the run: a step leaves the stacks in step.
  induction hrun with
  | refl => exact hw
  | head hmove _ ih =>
    obtain ⟨r, hr, -⟩ := id hmove
    obtain ⟨k, hk⟩ := hw.exists_key? hr
    exact ih ((h.turn hk hr hmove).inStep hw)

theorem reads_of_mem_trees (h : p.Accepts tokens) {us : List DerivationTree}
    (hr : p.chart.key? r = some ⟨.item it, o⟩) (hus : us ∈ p.trees r) :
    r.position = o + (forestYield us).length := by
  rw [h.trees_eq hr] at hus
  exact hus.2.length_eq

theorem length_of_mem_trees (h : p.Accepts tokens) {s : Symbol} {us : List DerivationTree}
    (hr : p.chart.key? r = some ⟨.item it, o⟩) (hs : it.next? p.grammar = some s)
    (hus : us ∈ p.trees r) : us.length = it.dot := by
  rw [h.trees_eq hr] at hus
  have hlt : it.dot < (p.grammar.rhs it.production).length := (List.getElem?_eq_some_iff.1 hs).1
  rw [length_of_forestIsFrom hus.1, List.length_take, Nat.min_eq_left (Nat.le_of_lt hlt)]

theorem walksNode_final (h : p.Accepts tokens) (hr : p.chart.key? r = some ⟨.final n, o⟩)
    (hitem : ∀ {a it o}, a < r → p.chart.key? a = some ⟨.item it, o⟩ → p.WalksItem a it o) :
    p.WalksNode r o := by
  obtain ⟨-, a, q, -, -, hlt, hposition, hq, rfl, ha, hmove⟩ := h.moves_final hr
  obtain ⟨us, hus, hmeets, k, s, m, hfits, hs, hkey, hrun⟩ := hitem hlt ha
  have hreads : r.position = o + (forestYield us).length := by
    rw [← hposition]
    exact h.reads_of_mem_trees ha hus
  refine ⟨.node q us, h.trees_final hr hq ha hposition hus, ?_, 1 + k, s, m,
    hfits.succ (Chart.rank_lt_rank ha hlt), hs, hkey, fun returns opened slot => ?_⟩
  · rw [Meets]
    exact ⟨hr, hreads, hmeets.mono hlt⟩
  · rw [events_node, ← hreads]
    exact (hmove returns opened slot).run.trans (hrun returns _ opened)

theorem walksItem_zero (h : p.Accepts tokens) {production : Nat}
    (hr : p.chart.key? r = some ⟨.item ⟨production, 0⟩, o⟩) : p.WalksItem r ⟨production, 0⟩ o := by
  obtain ⟨s, m, -, hs, hkey, hmove⟩ := h.moves_zero hr
  refine ⟨[], ?_, meetsBelow_nil.2 trivial, 1, s, m, fits_one, hs, hkey,
    fun returns span opened => (hmove returns span opened none).run⟩
  obtain ⟨⟨v, o, antecedents⟩, he, hk⟩ := Chart.exists_entry?_of_key? hr
  obtain ⟨rfl, rfl⟩ : v = .item ⟨production, 0⟩ ∧ o = _ := Key.mk.inj hk
  rw [h.trees_of_termsOf_none he rfl]
  exact Set.mem_singleton _

theorem walksItem_shift (h : p.Accepts tokens) {t : Nat}
    (hr : p.chart.key? r = some ⟨.item it.advance, o⟩) (ht : it.next? p.grammar = some (.terminal t))
    (hitem : ∀ {a it o}, a < r → p.chart.key? a = some ⟨.item it, o⟩ → p.WalksItem a it o) :
    p.WalksItem r it.advance o := by
  obtain ⟨a, hlt, hposition, ha, hnext, hmove⟩ := h.moves_shift hr ht
  obtain ⟨us, hus, hmeets, k, s, m, hfits, hs, hkey, hrun⟩ := hitem hlt ha
  have hleaf : p.Meets (.leaf t) (o + (forestYield us).length) a := by
    rw [Meets]
    trivial
  refine ⟨us ++ [.leaf t], h.trees_shift hr ht ha hposition hnext hus,
    (hmeets.mono hlt).concat hlt hleaf, 1 + k, s, m, hfits.succ (Chart.rank_lt_rank ha hlt), hs, hkey,
    fun returns span opened => ?_⟩
  have hlength := h.length_of_mem_trees ha ht hus
  have hreads := h.reads_of_mem_trees ha hus
  rw [forestEvents_concat, events_leaf, Option.getD_some, Nat.zero_add, hlength, ← hreads,
    List.append_assoc]
  exact (hmove returns (span :: opened) none).run.trans (hrun returns span opened)

/-- The callee is walked first; from its start, which stands where the caller waited, the walker comes
back to the caller. -/
theorem walksItem_back (h : p.Accepts tokens) (hr : p.chart.key? r = some ⟨.item it.advance, o⟩)
    (hn : it.next? p.grammar = some (.nonTerminal n))
    (hnode : ∀ {a n o}, a < r → p.chart.key? a = some ⟨.final n, o⟩ → p.WalksNode a o)
    (hitem : ∀ {a it o}, a < r → p.chart.key? a = some ⟨.item it, o⟩ → p.WalksItem a it o) :
    p.WalksItem r it.advance o := by
  obtain ⟨a, q, hlta, hltq, hposition, ha, hq, hfind, hmove⟩ := h.moves_back hr hn
  obtain ⟨t, ht, hmeet, i, s, m, hfits, hs, hkey, hrun⟩ := hnode hlta ha
  obtain ⟨us, hus, hmeets, j, s', m', hfits', hs', hkey', hrun'⟩ := hitem hltq hq
  have hreads := h.reads_of_mem_trees hq hus
  have hlength := h.length_of_mem_trees hq hn hus
  refine ⟨us ++ [t], h.trees_back hr hn ha hq hposition ht hus,
    (hmeets.mono hltq).concat hlta (hreads ▸ hmeet), 1 + (i + (1 + j)), s', m',
    hfits.add hfits' (Chart.rank_lt_rank ha hlta) (Chart.rank_lt_rank hq hltq), hs', hkey',
    fun returns span opened => ?_⟩
  have hreturn : p.Moves ⟨some s, ⟨.item it, o⟩ :: returns, span :: opened, none⟩ none
      ⟨some q, returns, span :: opened, none⟩ := moves_start hkey (hs.symm ▸ hfind)
  have hwhole := (hmove returns (span :: opened) none).run.trans
    ((hrun _ _ _).trans (hreturn.run.trans (hrun' returns span opened)))
  rw [forestEvents_concat, Nat.zero_add, hlength, ← hreads, List.append_assoc]
  exact hwhole

theorem walks (h : p.Accepts tokens) {bound : Nat} {k : Key} (hr : p.chart.key? r = some k)
    (hbound : p.chart.rank r < bound) : (∀ n o, k = ⟨.final n, o⟩ → p.WalksNode r o) ∧
      ∀ it o, k = ⟨.item it, o⟩ → p.WalksItem r it o := by
  -- By induction on the rank, since all that the walk turns to is older.
  induction bound generalizing r k with
  | zero => exact absurd hbound (Nat.not_lt_zero _)
  | succ bound ih =>
    have hrank : ∀ {a k}, a < r → p.chart.key? a = some k → p.chart.rank a < bound := by
      intro a k hlt ha
      have hlt := Chart.rank_lt_rank ha hlt
      omega
    have hnode : ∀ {a n o}, a < r → p.chart.key? a = some ⟨.final n, o⟩ → p.WalksNode a o :=
      fun hlt ha => (ih ha (hrank hlt ha)).1 _ _ rfl
    have hitem : ∀ {a it o}, a < r → p.chart.key? a = some ⟨.item it, o⟩ → p.WalksItem a it o :=
      fun hlt ha => (ih ha (hrank hlt ha)).2 _ _ rfl
    refine ⟨fun n o hk => h.walksNode_final (hk ▸ hr) hitem, ?_⟩
    rintro it o rfl
    -- Of an item, the symbol before the dot decides where the walk turns.
    obtain ⟨e, he, hkey⟩ := Chart.exists_entry?_of_key? hr
    have hv : e.vertex = .item it := congrArg Key.vertex hkey
    rcases h.vertex_cases he with ⟨n, hv'⟩ | ⟨q, hv'⟩ | ⟨n, hv'⟩ | ⟨it', s, hv', hs⟩
    · cases hv.symm.trans hv'
    · obtain rfl := Vertex.item.inj (hv.symm.trans hv')
      exact h.walksItem_zero hr
    · cases hv.symm.trans hv'
    · obtain rfl := Vertex.item.inj (hv.symm.trans hv')
      cases s with
      | terminal t => exact h.walksItem_shift hr hs hitem
      | nonTerminal n => exact h.walksItem_back hr hs hnode hitem

/-- From the accepting entry the walker gives the events of one derivation of the tokens, and then there
is nothing left: no entry, no call to return to and no open node. -/
theorem exists_met_run (h : p.Accepts tokens) : ∃ t ∈ p.grammar.derivations tokens,
    p.Meets t 0 p.accept ∧ ∃ n < p.stepBound,
      p.Runs n p.walker (t.events 0 none) ⟨none, [], [], none⟩ := by
  obtain ⟨t, ht, hmeets, n, s, m, hfits, hs, hkey, hrun⟩ :=
    (h.walks h.key?_accept (Nat.lt_succ_self _)).1 _ _ rfl
  rw [h.trees_accept] at ht
  obtain ⟨u, hu, hut⟩ := ht
  obtain rfl := (List.cons.inj hut).1
  have hwhole := (hrun [] [] none).trans (moves_root hkey).run
  rw [Option.toList_none, List.append_nil] at hwhole
  have hbound : Nat.pow 2 (p.chart.rank p.accept + 2) ≤ p.stepBound := by
    apply Nat.pow_le_pow_right (by decide)
    have hrank := Chart.rank_lt_entryCount h.key?_accept
    omega
  have hn : n + 1 < p.stepBound := Nat.lt_of_lt_of_le hfits hbound
  exact ⟨u, hu, hmeets, n + 1, hn, hwhole⟩

theorem exists_walk (h : p.Accepts tokens) : ∃ t ∈ p.grammar.derivations tokens,
    p.walk = .ok (t.events 0 none) ∧ ∃ n < p.stepBound,
      p.Runs n p.walker (t.events 0 none) ⟨none, [], [], none⟩ := by
  obtain ⟨t, ht, -, n, hn, hrun⟩ := h.exists_met_run
  exact ⟨t, ht, hrun.walk_eq rfl hn, n, hn, hrun⟩

/-- Whatever receives the events of the walker receives those of the walk, in order. -/
theorem replay_eq (h : p.Accepts tokens) {events : List Event} (hwalk : p.walk = .ok events)
    {α : Type} (receive : α → Event → Except DerivationError α) (x : α) :
    p.replay receive x = events.foldlM receive x := by
  obtain ⟨t, -, heq, n, hn, hrun⟩ := h.exists_walk
  obtain rfl := Except.ok.inj (hwalk.symm.trans heq)
  exact hrun.replay_eq rfl hn

end Accepts

end Parsing

/-- The walker over accepted tokens comes to an end, without an error on the way and with nothing left on
its stacks, and gives the traversal of one of their derivations. In every state before, the calls to return
to, the open nodes and the slot fit the entry that comes next. -/
theorem walk_eq_events {d : Declaration} {g : Grammar} (hg : d.build = .ok g)
    {tokens : List Token} {p : Parsing} (hp : (Graph.ofGrammar g).parse tokens = .ok p) :
    ∃ t ∈ g.derivations tokens,
      p.walk = .ok (t.events 0 none) ∧
        (∃ n < p.stepBound, p.Runs n p.walker (t.events 0 none) ⟨none, [], [], none⟩) ∧
        (∀ n events w, p.Runs n p.walker events w → events <+: t.events 0 none ∧ p.InStep w ∧
          ∀ r, w.current = some r → ∃ event w', p.step w r = .ok (event, w')) ∧
        (∀ n q span slot, .enter n q span slot ∈ t.events 0 none →
          ∃ production, g.production? q = some production ∧ production.lhs = n) ∧
        ((t.events 0 none).filterMap Event.leaf?).map Prod.snd =
          (List.range tokens.length).reverse ∧
        ∀ a i k, .leaf a i k ∈ t.events 0 none →
          ∃ token, tokens[i]? = some token ∧ g.terminalId? token.terminal = some a := by
  obtain ⟨rfl, h⟩ := Graph.accepts_of_parse hg hp
  obtain ⟨t, ht, hwalk, n, hn, hrun⟩ := h.exists_walk
  refine ⟨t, ht, hwalk, ⟨n, hn, hrun⟩, fun m events w hprefix => ⟨?_, ?_, fun r hr => ?_⟩, ?_, ?_, ?_⟩
  · obtain ⟨rest, hrest, -⟩ := hrun.exists_rest_of_ended rfl hprefix
    exact ⟨rest, hrest.symm⟩
  · exact h.inStep_of_runs hprefix h.inStep_walker
  · exact hrun.exists_move rfl hprefix hr
  · intro n q span slot hmem
    exact DerivationTree.production_of_enter h.wellFormed ht.1 hmem
  · exact DerivationTree.tokens_of_leaves ht
  · intro a i k hmem
    exact DerivationTree.terminal_of_leaf ht hmem

theorem threeNumbers_walk : ∃ p t, sums.build = .ok sumsGrammar ∧
    (Graph.ofGrammar sumsGrammar).parse threeNumbers = .ok p ∧
      t ∈ sumsGrammar.derivations threeNumbers ∧ p.walk = .ok (t.events 0 none) ∧
        ((t.events 0 none).filterMap Event.leaf?).map Prod.snd = [4, 3, 2, 1, 0] := by
  obtain ⟨p, hp⟩ := Graph.recognizes_iff.1 recognizes_threeNumbers
  obtain ⟨t, ht, hwalk, -, -, -, hleaves, -⟩ := walk_eq_events build_sums hp
  exact ⟨p, t, build_sums, hp, ht, hwalk, hleaves⟩

end GrammarFlow
