import GrammarFlow.Proofs.Chart.Precedence
import GrammarFlow.Proofs.Derivation.Acyclic
import GrammarFlow.Proofs.Derivation.Assembly
import GrammarFlow.Proofs.Grammar.Lookup

namespace GrammarFlow

theorem exists_of_map_eq_ok {ε α β : Type} {x : Except ε α} {f : α → β} {b : β}
    (h : x.map f = .ok b) : ∃ a, x = .ok a ∧ f a = b := by
  cases x with
  | error e => cases h
  | ok a => exact ⟨a, rfl, Except.ok.inj h⟩

namespace DerivationTree

open Relation

variable {t u : DerivationTree} {ts us : List DerivationTree} {low : Nat}

theorem events_subset_forestEvents (k : Nat) :
    t.events (low + (forestYield ts).length) (some (k + ts.length)) ⊆
      forestEvents (ts ++ t :: us) low k := by
  induction ts generalizing low k with
  | nil =>
    rw [List.nil_append, forestEvents_cons]
    exact List.subset_append_right _ _
  | cons u ts ih =>
    rw [List.cons_append, forestEvents_cons, forestYield_cons, List.length_append, ← Nat.add_assoc,
      List.length_cons, Nat.add_comm ts.length 1, ← Nat.add_assoc]
    exact List.Subset.trans (ih (k + 1)) (List.subset_append_left _ _)

theorem enter_mem_events {x : DerivationTree × Nat} {q : Production}
    (h : ReflTransGen Child x (.node q ts, low)) (slot : Option Nat) :
    ∃ span slot', .enter q.lhs q.id span slot' ∈ x.1.events x.2 slot := by
  induction h using ReflTransGen.head_induction_on generalizing slot with
  | refl =>
    rw [events_node]
    exact ⟨_, _, List.mem_cons_self⟩
  | head hstep _ ih =>
    obtain ⟨m, ts, t, us, low⟩ := hstep
    obtain ⟨span, slot', hmem⟩ := ih (some (0 + ts.length))
    rw [events_node]
    exact ⟨span, slot', List.mem_cons_of_mem _ (List.mem_append_left _
      (events_subset_forestEvents 0 hmem))⟩

theorem exists_isFrom_of_mem {g : Grammar} {ss : List Symbol} (h : ForestIsFrom g ts ss) (ht : t ∈ ts) :
    ∃ s, t.IsFrom g s := by
  induction ts generalizing ss with
  | nil => cases ht
  | cons u ts ih =>
    cases ss with
    | nil => cases h
    | cons s ss =>
      rcases List.mem_cons.1 ht with rfl | ht
      · exact ⟨s, h.1⟩
      · exact ih h.2 ht

theorem exists_isFrom {g : Grammar} {x y : DerivationTree × Nat} (h : ReflTransGen Child x y) {s : Symbol}
    (hx : x.1.IsFrom g s) : ∃ s', y.1.IsFrom g s' := by
  induction h with
  | refl => exact ⟨s, hx⟩
  | tail _ hstep ih =>
    obtain ⟨m, ts, t, us, low⟩ := hstep
    obtain ⟨s', -, -, hts⟩ := ih
    exact exists_isFrom_of_mem hts (List.mem_append_right ts List.mem_cons_self)

end DerivationTree

namespace Parsing

variable {p : Parsing} {tokens : List Token} {r : Ref} {e : Entry} {it : Item}

/-- Some end has its first antecedent from an item of the production. -/
def Enters (p : Parsing) (production : Nat) : Prop :=
  ∃ r e n a source it, p.chart.entry? r = some e ∧ e.vertex = .final n ∧ e.antecedents[0]? = some a ∧
    p.chart.entry? a = some source ∧ source.vertex = .item it ∧ it.production = production

theorem Turn.enters {w w' : Walker} {n q : Nat} {span : Span} {slot : Option Nat}
    (hturn : p.Turn w (some (.enter n q span slot)) w') : p.Enters q := by
  cases hturn with
  | enter he hfirst hr ha hlt =>
    obtain ⟨source, hsource, hkey⟩ := Chart.exists_entry?_of_key? ha
    rw [Chart.key?_of_entry he] at hr
    exact ⟨_, _, _, _, source, _, he, congrArg Key.vertex (Option.some.inj hr), hfirst, hsource,
      congrArg Key.vertex hkey, rfl⟩

theorem Accepts.enters_of_runs (h : p.Accepts tokens) {w w' : Walker} {m : Nat} {events : List Event}
    (hrun : p.Runs m w events w') (hw : p.InStep w) {n q : Nat} {span : Span} {slot : Option Nat}
    (hmem : .enter n q span slot ∈ events) : p.Enters q := by
  induction hrun with
  | refl => cases hmem
  | head hmove _ ih =>
    obtain ⟨r, hr, -⟩ := id hmove
    obtain ⟨k, hk⟩ := hw.exists_key? hr
    have hturn := h.turn hk hr hmove
    rcases List.mem_append.1 hmem with hmem | hmem
    · obtain rfl := Option.mem_toList.1 hmem
      exact hturn.enters
    · exact ih (hturn.inStep hw) hmem

/-- Where a first copy leads, its later copy is not entered. -/
theorem not_enters_of_led {first q : Production} (hled : p.chart.Led first q) : ¬p.Enters q.id := by
  rintro ⟨r, e, n, a, source, it, he, hv, hfirst, hsource, hitem, hid⟩
  apply hled.ended he hv hfirst
  rw [Chart.key?_of_entry hsource, Entry.key, hitem, ← hid]

theorem Accepts.enters_of_walk (h : p.Accepts tokens) {events : List Event} (hwalk : p.walk = .ok events)
    {n q : Nat} {span : Span} {slot : Option Nat} (hmem : .enter n q span slot ∈ events) :
    p.Enters q := by
  obtain ⟨t, -, heq, m, -, hrun⟩ := h.exists_walk
  obtain rfl := Except.ok.inj (hwalk.symm.trans heq)
  exact h.enters_of_runs hrun h.inStep_walker hmem

end Parsing

/-- A registration of a hook; a rule is looked up in a grammar of its own. -/
inductive Registration (ν : Type) where
  | production (id : Nat) (hook : ReduceHook ν)
  | rule (g : Grammar) (lhs : String) (rhs : List String) (hook : ReduceHook ν)
  | terminal (name : String) (hook : LeafHook ν)

def Registration.production? {ν : Type} : Registration ν → Option Nat
  | .production id _ => some id
  | .rule g lhs rhs _ => g.findProduction? lhs rhs
  | .terminal _ _ => none

namespace Hooks

variable {ν : Type} {before after hooks : Hooks ν} {lhs : String} {rhs : List String}
  {hook : ReduceHook ν} {later : List (Registration ν)} {id : Nat} {p : Parsing} {tokens : List Token}

def register (h : Hooks ν) : Registration ν → Except GrammarError (Hooks ν)
  | .production id hook => .ok (h.onProduction id hook)
  | .rule g lhs rhs hook => h.onRule g lhs rhs hook
  | .terminal name hook => .ok (h.onTerminal name hook)

def leafOf (h : Hooks ν) : LeafHook ν := fun token =>
  (h.leaf? token.terminal).getD h.defaultLeaf token

def reduceOf (h : Hooks ν) : ReduceHook ν := fun q => (h.reduce? q.id).getD h.defaultReduce q

theorem exists_of_onRule {g : Grammar} (h : before.onRule g lhs rhs hook = .ok after) :
    ∃ id, g.findProduction? lhs rhs = some id ∧ after = before.onProduction id hook := by
  obtain ⟨id, hid, rfl⟩ := exists_of_map_eq_ok h
  rw [Grammar.findProduction] at hid
  split at hid
  · next found hfound =>
    obtain rfl := Except.ok.inj hid
    exact ⟨_, hfound, rfl⟩
  · cases hid

theorem reduce?_onProduction : (before.onProduction id hook).reduce? id = some hook :=
  if_pos rfl

/-- A registration leaves the hooks of all other productions. -/
theorem reduce?_register {r : Registration ν} (h : before.register r = .ok after)
    (hr : r.production? ≠ some id) : after.reduce? id = before.reduce? id := by
  cases r with
  | production id' hook =>
    obtain rfl := Except.ok.inj h
    exact if_neg fun hid => hr (congrArg some hid.symm)
  | rule g lhs rhs hook =>
    obtain ⟨id', hfound, rfl⟩ := exists_of_onRule h
    exact if_neg fun hid => hr (hfound.trans (congrArg some hid.symm))
  | terminal name hook =>
    obtain rfl := Except.ok.inj h
    rfl

theorem reduce?_registerAll (h : later.foldlM register before = .ok after)
    (hlater : ∀ r ∈ later, r.production? ≠ some id) : after.reduce? id = before.reduce? id := by
  induction later generalizing before with
  | nil =>
    obtain rfl := Except.ok.inj h
    rfl
  | cons r later ih =>
    rw [List.foldlM_cons] at h
    cases hr : before.register r with
    | error e =>
      rw [hr] at h
      cases h
    | ok next =>
      rw [hr] at h
      rw [ih h fun r' hr' => hlater r' (List.mem_cons_of_mem r hr'),
        reduce?_register hr (hlater r List.mem_cons_self)]

/-- The abstract tree is the value of the derivation that the walk replays. -/
theorem build_eq_value (h : p.Accepts tokens) {t : DerivationTree} (ht : t ∈ p.grammar.derivations tokens)
    (hwalk : p.walk = .ok (t.events 0 none)) :
    hooks.build p = .ok (t.value hooks.leafOf hooks.reduceOf tokens 0) := by
  have hvalue : (t.fold hooks.factory p.grammar tokens 0 ()).1 =
      t.value hooks.leafOf hooks.reduceOf tokens 0 :=
    DerivationTree.fold_eq_value (fun _ _ _ => rfl) (fun _ _ _ _ => rfl) t 0 ()
  rw [build, h.assemble_eq ht hwalk, ← hvalue]
  rfl

end Hooks

/-- The walk enters a later copy of a rule only where a symbol of it may be empty. -/
theorem mayBeEmpty_of_later_copy {d : Declaration} {g : Grammar} (hg : d.build = .ok g)
    {tokens : List Token} {p : Parsing} (hp : (Graph.ofGrammar g).parse tokens = .ok p)
    {t : DerivationTree} (hwalk : p.walk = .ok (t.events 0 none)) {first q : Production}
    (hcopies : g.Copies first q) {ts : List DerivationTree} {low : Nat}
    (hnode : Relation.ReflTransGen DerivationTree.Child (t, 0) (.node q ts, low)) :
    ∃ n, .nonTerminal n ∈ q.rhs ∧ g.MayBeEmpty n := by
  by_contra hvisible
  have hw : (Graph.ofGrammar g).grammar.WellFormed := Declaration.wellFormed_of_build hg
  have hall : ∀ n, .nonTerminal n ∈ q.rhs → ¬(Graph.ofGrammar g).grammar.MayBeEmpty n :=
    fun n hn hempty => hvisible ⟨n, hn, hempty⟩
  obtain ⟨hchart, -, -⟩ := (Graph.reports_run _ tokens).accepted p hp
  obtain ⟨here, hmade⟩ := Graph.makes_chartOf hw tokens
  have hled := hmade.led hw hcopies hall
  rw [← hchart] at hled
  obtain ⟨rfl, h⟩ := Graph.accepts_of_parse hg hp
  obtain ⟨span, slot, hmem⟩ := DerivationTree.enter_mem_events hnode none
  exact Parsing.not_enters_of_led hled (h.enters_of_walk hwalk hmem)

/-- A hook that is registered by a rule makes the nodes of the first production with these names, if no
later registration is for that production. A node of a later copy of the rule is made by the hook of that
copy, or by default; there are such nodes only where a symbol of the rule may be empty. -/
theorem Hooks.build_of_onRule {d : Declaration} {g : Grammar} (hg : d.build = .ok g) {tokens : List Token}
    {p : Parsing} (hp : (Graph.ofGrammar g).parse tokens = .ok p) {ν : Type} {before after hooks : Hooks ν}
    {lhs : String} {rhs : List String} {hook : ReduceHook ν}
    (hrule : before.onRule g lhs rhs hook = .ok after) {later : List (Registration ν)}
    (hlater : later.foldlM Hooks.register after = .ok hooks)
    (hother : ∀ r ∈ later, r.production? ≠ g.findProduction? lhs rhs) :
    ∃ first ∈ g.productions, g.HasNames first lhs rhs ∧
      (∀ q ∈ g.productions, g.HasNames q lhs rhs → first.id ≤ q.id) ∧
      ∃ t ∈ g.derivations tokens, p.walk = .ok (t.events 0 none) ∧
        hooks.build p = .ok (t.value hooks.leafOf hooks.reduceOf tokens 0) ∧
        ∀ q ts low, Relation.ReflTransGen DerivationTree.Child (t, 0) (.node q ts, low) →
          g.HasNames q lhs rhs →
            (q = first → (DerivationTree.node q ts).value hooks.leafOf hooks.reduceOf tokens low =
              hook q ⟨low, low + (DerivationTree.forestYield ts).length⟩
                (DerivationTree.forestValues hooks.leafOf hooks.reduceOf tokens ts low)) ∧
            (q ≠ first → g.Copies first q ∧ (∃ n, .nonTerminal n ∈ q.rhs ∧ g.MayBeEmpty n) ∧
              (DerivationTree.node q ts).value hooks.leafOf hooks.reduceOf tokens low =
                (hooks.reduce? q.id).getD hooks.defaultReduce q
                  ⟨low, low + (DerivationTree.forestYield ts).length⟩
                  (DerivationTree.forestValues hooks.leafOf hooks.reduceOf tokens ts low)) := by
  have hw := Declaration.wellFormed_of_build hg
  obtain ⟨id, hid, rfl⟩ := Hooks.exists_of_onRule hrule
  obtain ⟨first, hfirst, rfl, hnames, hleast⟩ := hw.of_findProduction? hid
  have hset : hooks.reduce? first.id = some hook := by
    rw [Hooks.reduce?_registerAll hlater fun r hr => hid ▸ hother r hr, Hooks.reduce?_onProduction]
  obtain ⟨rfl, h⟩ := Graph.accepts_of_parse hg hp
  obtain ⟨t, ht, hwalk, -⟩ := h.exists_walk
  refine ⟨first, hfirst, hnames, hleast, t, ht, hwalk, Hooks.build_eq_value h ht hwalk,
    fun q ts low hnode hq => ⟨?_, fun hne => ?_⟩⟩
  · rintro rfl
    rw [DerivationTree.value, Hooks.reduceOf, hset, Option.getD_some]
  · obtain ⟨s, hmem, -⟩ := DerivationTree.exists_isFrom hnode ht.1
    obtain ⟨hlhs, hrhs⟩ := hnames.symbols_eq hw (Grammar.namesApart_of_build hg) hfirst hmem hq
    have hlt : first.id < q.id := by
      apply Nat.lt_of_le_of_ne (hleast q hmem hq)
      intro heq
      exact hne (hw.id_injective hmem hfirst heq.symm)
    have hcopies : p.grammar.Copies first q := ⟨hfirst, hmem, hlhs, hrhs, hlt⟩
    refine ⟨hcopies, mayBeEmpty_of_later_copy hg hp hwalk hcopies hnode, ?_⟩
    rw [DerivationTree.value, Hooks.reduceOf]

/-- The number of nodes that a hook makes, if only that hook counts. -/
def counting : Hooks Nat :=
  { defaultLeaf := fun _ _ => 0, defaultReduce := fun _ _ children => children.sum }

theorem threeNumbers_hooked : sums.build = .ok sumsGrammar ∧ ∃ p after hooks first t,
    (Graph.ofGrammar sumsGrammar).parse threeNumbers = .ok p ∧
    counting.onRule sumsGrammar "E" ["E", "+", "E"] (fun _ _ children => children.sum + 1) = .ok after ∧
    after.register (.terminal "n" fun _ _ => 0) = .ok hooks ∧
    sumsGrammar.HasNames first "E" ["E", "+", "E"] ∧
    (∀ q ts low, Relation.ReflTransGen DerivationTree.Child (t, 0) (.node q ts, low) → q = first →
      (DerivationTree.node q ts).value hooks.leafOf hooks.reduceOf threeNumbers low =
        (DerivationTree.forestValues hooks.leafOf hooks.reduceOf threeNumbers ts low).sum + 1) ∧
    hooks.build p = .ok (t.value hooks.leafOf hooks.reduceOf threeNumbers 0) ∧ hooks.build p = .ok 2 := by
  have hfound : sumsGrammar.findProduction? "E" ["E", "+", "E"] = some 0 := by decide +kernel
  have hrule : counting.onRule sumsGrammar "E" ["E", "+", "E"] (fun _ _ children => children.sum + 1) =
      .ok (counting.onProduction 0 fun _ _ children => children.sum + 1) := by
    rw [Hooks.onRule, Grammar.findProduction, hfound]
    rfl
  have htree : ((Graph.ofGrammar sumsGrammar).parse threeNumbers).map
      (((counting.onProduction 0 fun _ _ children => children.sum + 1).onTerminal "n"
        fun _ _ => 0).build ·) = .ok (.ok 2) := by decide +kernel
  obtain ⟨p, hp, htree⟩ := exists_of_map_eq_ok htree
  have hother : ∀ r ∈ [Registration.terminal "n" fun _ _ => (0 : Nat)],
      r.production? ≠ sumsGrammar.findProduction? "E" ["E", "+", "E"] := by
    intro r hr
    obtain rfl := List.mem_singleton.1 hr
    rw [hfound]
    intro hnone
    cases hnone
  obtain ⟨first, -, hnames, -, t, -, -, hvalue, hnodes⟩ :=
    Hooks.build_of_onRule build_sums hp hrule rfl hother
  refine ⟨build_sums, p, _, _, first, t, hp, hrule, rfl, hnames, fun q ts low hnode hq => ?_, hvalue, htree⟩
  exact (hnodes q ts low hnode (hq ▸ hnames)).1 hq

/-- Every node says by which hook it has been made. -/
def labels : Hooks String :=
  { defaultLeaf := fun _ _ => "leaf", defaultReduce := fun _ _ _ => "default" }

/-- The walk enters the later copy at the root, where the hook of the rule is not asked. -/
theorem repeated_later_copy : ∃ p hooks, repeated.build = .ok repeatedGrammar ∧
    (Graph.ofGrammar repeatedGrammar).parse [⟨"a", "a"⟩] = .ok p ∧
    labels.onRule repeatedGrammar "S" ["S", "a"] (fun _ _ _ => "hook") = .ok hooks ∧
    p.walk = .ok ((DerivationTree.node ⟨2, 0, [.nonTerminal 0, .terminal 0]⟩
      [.node ⟨1, 0, []⟩ [], .leaf 0]).events 0 none) ∧
    repeatedGrammar.HasNames ⟨2, 0, [.nonTerminal 0, .terminal 0]⟩ "S" ["S", "a"] ∧
    hooks.build p = .ok "default" := by
  have hbuild : repeated.build = .ok repeatedGrammar := by decide +kernel
  have hrule : labels.onRule repeatedGrammar "S" ["S", "a"] (fun _ _ _ => "hook") =
      .ok (labels.onProduction 0 fun _ _ _ => "hook") := by
    have hfound : repeatedGrammar.findProduction "S" ["S", "a"] = .ok 0 := by decide +kernel
    rw [Hooks.onRule, hfound]
    rfl
  have hwalk : ((Graph.ofGrammar repeatedGrammar).parse [⟨"a", "a"⟩]).map (·.walk) =
      .ok (.ok ((DerivationTree.node ⟨2, 0, [.nonTerminal 0, .terminal 0]⟩
        [.node ⟨1, 0, []⟩ [], .leaf 0]).events 0 none)) := by decide +kernel
  have htree : ((Graph.ofGrammar repeatedGrammar).parse [⟨"a", "a"⟩]).map
      ((labels.onProduction 0 fun _ _ _ => "hook").build ·) = .ok (.ok "default") := by decide +kernel
  obtain ⟨p, hp, hwalk⟩ := exists_of_map_eq_ok hwalk
  rw [hp] at htree
  exact ⟨p, _, hbuild, hp, hrule, hwalk, ⟨by decide +kernel, by decide +kernel⟩, Except.ok.inj htree⟩

end GrammarFlow
