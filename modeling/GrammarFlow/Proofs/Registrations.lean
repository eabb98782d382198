import GrammarFlow.Proofs.Hooks

namespace GrammarFlow

inductive HookKey where
  | production (id : Nat)
  | terminal (name : String)

namespace Registration

variable {ν : Type} {r r' : Registration ν} {id : Nat} {name : String}

/-- What a registration sets the hook of; there is nothing to set for a rule that is not found. -/
def key? : Registration ν → Option HookKey
  | .production id _ => some (.production id)
  | .rule g lhs rhs _ => (g.findProduction? lhs rhs).map .production
  | .terminal name _ => some (.terminal name)

def leaf? : Registration ν → String → Option (LeafHook ν)
  | .terminal name hook, name' => if name' = name then some hook else none
  | _, _ => none

def reduce? : Registration ν → Nat → Option (ReduceHook ν)
  | .production id hook, id' => if id' = id then some hook else none
  | .rule g lhs rhs hook, id' => if g.findProduction? lhs rhs = some id' then some hook else none
  | .terminal _ _, _ => none

theorem leaf?_eq_none_iff : r.leaf? name = none ↔ r.key? ≠ some (.terminal name) := by
  cases r with
  | production id' hook => simp [leaf?, key?]
  | rule g lhs rhs hook => simp [leaf?, key?]
  | terminal name' hook => simp [leaf?, key?, eq_comm]

theorem reduce?_eq_none_iff : r.reduce? id = none ↔ r.key? ≠ some (.production id) := by
  cases r with
  | production id' hook => simp [reduce?, key?, eq_comm]
  | rule g lhs rhs hook => simp [reduce?, key?]
  | terminal name' hook => simp [reduce?, key?]

/-- The last leaf hook that is registered for the terminal name of a token, or the default one. -/
def lastLeaf (rs : List (Registration ν)) (leaf : LeafHook ν) : LeafHook ν := fun token =>
  (rs.reverse.findSome? (·.leaf? token.terminal)).getD leaf token

/-- The last reduce hook that is registered for a production, or the default one. -/
def lastReduce (rs : List (Registration ν)) (reduce : ReduceHook ν) : ReduceHook ν := fun q =>
  (rs.reverse.findSome? (·.reduce? q.id)).getD reduce q

end Registration

namespace Hooks

variable {ν : Type} {h hooks : Hooks ν} {r r' : Registration ν} {rs before after : List (Registration ν)}

/-- The hooks with what a registration sets in front of what there was. -/
def amend (h : Hooks ν) (r : Registration ν) : Hooks ν :=
  { h with
    leaf? := fun name => (r.leaf? name).or (h.leaf? name)
    reduce? := fun id => (r.reduce? id).or (h.reduce? id) }

theorem onProduction_eq_amend (id : Nat) (hook : ReduceHook ν) :
    h.onProduction id hook = h.amend (.production id hook) := by
  simp only [amend, onProduction, Registration.leaf?, Registration.reduce?, Option.none_or]
  congr 1
  funext id'
  split <;> rfl

theorem onTerminal_eq_amend (name : String) (hook : LeafHook ν) :
    h.onTerminal name hook = h.amend (.terminal name hook) := by
  simp only [amend, onTerminal, Registration.leaf?, Registration.reduce?, Option.none_or]
  congr 1
  funext name'
  split <;> rfl

theorem onProduction_eq_amend_rule {g : Grammar} {lhs : String} {rhs : List String} {id : Nat}
    (hfound : g.findProduction? lhs rhs = some id) (hook : ReduceHook ν) :
    h.onProduction id hook = h.amend (.rule g lhs rhs hook) := by
  rw [onProduction_eq_amend]
  simp only [amend, Registration.leaf?, Registration.reduce?, hfound, Option.some.injEq,
    eq_comm (a := id)]

theorem register_eq_ok_iff : h.register r = .ok hooks ↔ r.key? ≠ none ∧ hooks = h.amend r := by
  cases r with
  | production id hook =>
    rw [register, onProduction_eq_amend, Except.ok.injEq]
    simp [Registration.key?, eq_comm]
  | terminal name hook =>
    rw [register, onTerminal_eq_amend, Except.ok.injEq]
    simp [Registration.key?, eq_comm]
  | rule g lhs rhs hook =>
    rw [register, onRule, Grammar.findProduction, Registration.key?]
    cases hfound : g.findProduction? lhs rhs with
    | none => simp [Except.map]
    | some id =>
      rw [← onProduction_eq_amend_rule hfound]
      simp [Except.map, eq_comm]

theorem registerAll_eq_ok_iff : rs.foldlM register h = .ok hooks ↔
    (∀ r ∈ rs, r.key? ≠ none) ∧ hooks = rs.foldl amend h := by
  -- By induction on the registrations: they all succeed, and each amends what the ones before it
  -- left.
  induction rs generalizing h with
  | nil => simp [pure, Except.pure, eq_comm]
  | cons r rs ih =>
    rw [List.foldlM_cons, List.forall_mem_cons, List.foldl_cons, and_assoc]
    cases hr : h.register r with
    | error e =>
      have hnone : r.key? = none := by
        by_contra hkey
        cases hr.symm.trans (register_eq_ok_iff.2 ⟨hkey, rfl⟩)
      refine ⟨fun herror => ?_, fun hok => absurd hnone hok.1⟩
      cases herror
    | ok next =>
      obtain ⟨hkey, rfl⟩ := register_eq_ok_iff.1 hr
      exact ih.trans (and_iff_right hkey).symm

theorem leaf?_foldl_amend (name : String) : (rs.foldl amend h).leaf? name =
    (rs.reverse.findSome? (·.leaf? name)).or (h.leaf? name) := by
  induction rs generalizing h with
  | nil => rfl
  | cons r rs ih =>
    rw [List.foldl_cons, ih, List.reverse_cons, List.findSome?_append, Option.or_assoc]
    simp [amend]

theorem reduce?_foldl_amend (id : Nat) : (rs.foldl amend h).reduce? id =
    (rs.reverse.findSome? (·.reduce? id)).or (h.reduce? id) := by
  induction rs generalizing h with
  | nil => rfl
  | cons r rs ih =>
    rw [List.foldl_cons, ih, List.reverse_cons, List.findSome?_append, Option.or_assoc]
    simp [amend]

theorem defaults_foldl_amend : (rs.foldl amend h).defaultLeaf = h.defaultLeaf ∧
    (rs.foldl amend h).defaultReduce = h.defaultReduce := by
  induction rs generalizing h with
  | nil => exact ⟨rfl, rfl⟩
  | cons r rs ih => exact ih

theorem amend_comm (hkey : r.key? ≠ r'.key?) : (h.amend r).amend r' = (h.amend r').amend r := by
  have hswap : ∀ {α : Type} {x y z : Option α}, x = none ∨ y = none →
      y.or (x.or z) = x.or (y.or z) := by
    rintro α x y z (rfl | rfl) <;> simp
  have hleaf : ∀ name, r.leaf? name = none ∨ r'.leaf? name = none := by
    intro name
    rw [Registration.leaf?_eq_none_iff, Registration.leaf?_eq_none_iff, ← not_and_or]
    exact fun hboth => hkey (hboth.1.trans hboth.2.symm)
  have hreduce : ∀ id, r.reduce? id = none ∨ r'.reduce? id = none := by
    intro id
    rw [Registration.reduce?_eq_none_iff, Registration.reduce?_eq_none_iff, ← not_and_or]
    exact fun hboth => hkey (hboth.1.trans hboth.2.symm)
  simp only [amend, Hooks.mk.injEq, true_and]
  exact ⟨funext fun name => hswap (hleaf name), funext fun id => hswap (hreduce id)⟩

theorem amend_amend (hkey : r.key? = r'.key?) : (h.amend r).amend r' = h.amend r' := by
  have hhide : ∀ {α : Type} {x y z : Option α}, (y = none → x = none) → y.or (x.or z) = y.or z := by
    intro α x y z hnone
    cases y with
    | none => rw [hnone rfl, Option.none_or]
    | some a => rw [Option.some_or, Option.some_or]
  simp only [amend, Hooks.mk.injEq, true_and]
  refine ⟨funext fun name => hhide fun hnone => ?_, funext fun id => hhide fun hnone => ?_⟩
  · rwa [Registration.leaf?_eq_none_iff, hkey, ← Registration.leaf?_eq_none_iff]
  · rwa [Registration.reduce?_eq_none_iff, hkey, ← Registration.reduce?_eq_none_iff]

theorem foldl_amend_of_hidden (hhidden : ∃ r' ∈ after, r.key? = r'.key?) :
    after.foldl amend (h.amend r) = after.foldl amend h := by
  -- By induction on what follows: the registration moves behind all that set other hooks, up to the
  -- one that hides it.
  induction after generalizing h with
  | nil =>
    obtain ⟨r', hr', -⟩ := hhidden
    cases hr'
  | cons s after ih =>
    rw [List.foldl_cons, List.foldl_cons]
    by_cases hs : r.key? = s.key?
    · rw [amend_amend hs]
    · rw [amend_comm hs]
      obtain ⟨r', hr', hkey⟩ := hhidden
      rcases List.mem_cons.1 hr' with rfl | hr'
      · exact absurd hkey hs
      · exact ih ⟨r', hr', hkey⟩

/-- The hooks as a factory that has them for its state. -/
def threaded : Factory (Hooks ν) ν where
  leaf _ token span h := (h.leafOf token span, h)
  reduce _ q span children h := (h.reduceOf q span children, h)

theorem assemble_threaded {p : Parsing} {tokens : List Token} (hp : p.Accepts tokens)
    {t : DerivationTree} (ht : t ∈ p.grammar.derivations tokens) (hwalk : p.walk = .ok (t.events 0 none)) :
    p.assemble threaded hooks = .ok (t.value hooks.leafOf hooks.reduceOf tokens 0, hooks) := by
  rw [hp.assemble_eq ht hwalk]
  exact congrArg Except.ok
    (DerivationTree.fold_of_kept (fun _ _ => rfl) (fun _ _ _ => rfl) t 0)

/-- The hooks that the registrations leave, with these default hooks. -/
def registered (leaf : LeafHook ν) (reduce : ReduceHook ν) (rs : List (Registration ν)) :
    Except GrammarError (Hooks ν) :=
  rs.foldlM register { defaultLeaf := leaf, defaultReduce := reduce }

variable {leaf : LeafHook ν} {reduce : ReduceHook ν}

theorem leafOf_of_registered (hreg : registered leaf reduce rs = .ok hooks) :
    hooks.leafOf = Registration.lastLeaf rs leaf := by
  obtain ⟨-, rfl⟩ := registerAll_eq_ok_iff.1 hreg
  funext token
  rw [leafOf, leaf?_foldl_amend, defaults_foldl_amend.1, Option.or_none]
  rfl

theorem reduceOf_of_registered (hreg : registered leaf reduce rs = .ok hooks) :
    hooks.reduceOf = Registration.lastReduce rs reduce := by
  obtain ⟨-, rfl⟩ := registerAll_eq_ok_iff.1 hreg
  funext q
  rw [reduceOf, reduce?_foldl_amend, defaults_foldl_amend.2, Option.or_none]
  rfl

theorem registered_swap (hkey : r.key? ≠ r'.key?) :
    registered leaf reduce (before ++ r :: r' :: after) = .ok hooks ↔
      registered leaf reduce (before ++ r' :: r :: after) = .ok hooks := by
  rw [registered, registered, registerAll_eq_ok_iff, registerAll_eq_ok_iff, List.foldl_append,
    List.foldl_append, List.foldl_cons, List.foldl_cons, List.foldl_cons, List.foldl_cons,
    amend_comm hkey]
  refine and_congr_left fun _ => forall_congr' fun s => ?_
  simp only [List.mem_append, List.mem_cons, or_left_comm]

theorem registered_of_hidden (hkey : r.key? ≠ none) (hhidden : ∃ r' ∈ after, r.key? = r'.key?) :
    registered leaf reduce (before ++ r :: after) = .ok hooks ↔
      registered leaf reduce (before ++ after) = .ok hooks := by
  rw [registered, registered, registerAll_eq_ok_iff, registerAll_eq_ok_iff, List.foldl_append,
    List.foldl_append, List.foldl_cons, foldl_amend_of_hidden hhidden]
  refine and_congr_left fun _ => ?_
  simp only [List.forall_mem_append, List.forall_mem_cons, hkey, ne_eq, not_false_eq_true, true_and]

end Hooks

/-- A node of a derivation has a value of a child for each symbol of its production. -/
theorem Grammar.length_forestValues {g : Grammar} {t : DerivationTree} {tokens : List Token}
    (ht : t ∈ g.derivations tokens) {ν : Type} (leaf : LeafHook ν) (reduce : ReduceHook ν)
    {q : Production} {ts : List DerivationTree} {low : Nat}
    (hnode : Relation.ReflTransGen DerivationTree.Child (t, 0) (.node q ts, low)) :
    (DerivationTree.forestValues leaf reduce tokens ts low).length = q.rhs.length := by
  obtain ⟨s, -, -, hts⟩ := DerivationTree.exists_isFrom hnode ht.1
  rw [DerivationTree.length_forestValues]
  exact DerivationTree.length_of_forestIsFrom hts

/-- Whatever hooks are registered, in whatever order: if each rule among them is found they build the
abstract tree of any parse, which is the value of the derivation that the walk replays, by the last hook
for each terminal name and production. So registrations that set different hooks may be swapped, one that
is hidden by a later one may be left out, and to build leaves the hooks as they are. -/
theorem build_registered {d : Declaration} {g : Grammar} (hg : d.build = .ok g) {tokens : List Token}
    {p : Parsing} (hp : (Graph.ofGrammar g).parse tokens = .ok p) {ν : Type} (leaf : LeafHook ν)
    (reduce : ReduceHook ν) (rs : List (Registration ν)) :
    ((∃ hooks, Hooks.registered leaf reduce rs = .ok hooks) ↔ ∀ r ∈ rs, r.key? ≠ none) ∧
    (∀ hooks, Hooks.registered leaf reduce rs = .ok hooks →
      ∃ t ∈ g.derivations tokens, p.walk = .ok (t.events 0 none) ∧
        hooks.build p = .ok (t.value (Registration.lastLeaf rs leaf) (Registration.lastReduce rs reduce)
          tokens 0) ∧
        p.assemble Hooks.threaded hooks = .ok (t.value (Registration.lastLeaf rs leaf)
          (Registration.lastReduce rs reduce) tokens 0, hooks) ∧
        ∀ q ts low, Relation.ReflTransGen DerivationTree.Child (t, 0) (.node q ts, low) →
          (DerivationTree.forestValues (Registration.lastLeaf rs leaf)
            (Registration.lastReduce rs reduce) tokens ts low).length = q.rhs.length) ∧
    (∀ before r r' after, rs = before ++ r :: r' :: after → r.key? ≠ r'.key? → ∀ hooks,
      Hooks.registered leaf reduce rs = .ok hooks ↔
        Hooks.registered leaf reduce (before ++ r' :: r :: after) = .ok hooks) ∧
    ∀ before r after, rs = before ++ r :: after → r.key? ≠ none → (∃ r' ∈ after, r.key? = r'.key?) →
      ∀ hooks, Hooks.registered leaf reduce rs = .ok hooks ↔
        Hooks.registered leaf reduce (before ++ after) = .ok hooks := by
  refine ⟨?_, fun hooks hreg => ?_, ?_, ?_⟩
  · simp only [Hooks.registered, Hooks.registerAll_eq_ok_iff, exists_and_left, exists_eq, and_true]
  · obtain ⟨rfl, h⟩ := Graph.accepts_of_parse hg hp
    obtain ⟨t, ht, hwalk, -⟩ := h.exists_walk
    rw [← Hooks.leafOf_of_registered hreg, ← Hooks.reduceOf_of_registered hreg]
    exact ⟨t, ht, hwalk, Hooks.build_eq_value h ht hwalk, Hooks.assemble_threaded h ht hwalk,
      fun q ts low hnode => Grammar.length_forestValues ht _ _ hnode⟩
  · rintro before r r' after rfl hkey hooks
    exact Hooks.registered_swap hkey
  · rintro before r after rfl hkey hhidden hooks
    exact Hooks.registered_of_hidden hkey hhidden

def sumHooks : List (Registration Nat) :=
  [.rule sumsGrammar "E" ["E", "+", "E"] fun _ _ children => children.sum + 1,
    .terminal "n" fun _ _ => 0,
    .production 0 fun _ _ children => children.sum + 10]

theorem threeNumbers_registered : sums.build = .ok sumsGrammar ∧ ∃ p hooks,
    (Graph.ofGrammar sumsGrammar).parse threeNumbers = .ok p ∧
    Hooks.registered counting.defaultLeaf counting.defaultReduce sumHooks = .ok hooks ∧
    Hooks.registered counting.defaultLeaf counting.defaultReduce sumHooks.tail = .ok hooks ∧
    Hooks.registered counting.defaultLeaf counting.defaultReduce sumHooks.tail.reverse = .ok hooks ∧
    hooks.build p = .ok 20 ∧ p.assemble Hooks.threaded hooks = .ok (20, hooks) := by
  have hfound : sumsGrammar.findProduction? "E" ["E", "+", "E"] = some 0 := by decide +kernel
  have htree : ((Graph.ofGrammar sumsGrammar).parse threeNumbers).map
      ((((counting.onProduction 0 fun _ _ children => children.sum + 1).onTerminal "n"
        fun _ _ => 0).onProduction 0 fun _ _ children => children.sum + 10).build ·) = .ok (.ok 20) := by
    decide +kernel
  obtain ⟨p, hp, htree⟩ := exists_of_map_eq_ok htree
  have hreg : Hooks.registered counting.defaultLeaf counting.defaultReduce sumHooks =
      .ok (((counting.onProduction 0 fun _ _ children => children.sum + 1).onTerminal "n"
        fun _ _ => 0).onProduction 0 fun _ _ children => children.sum + 10) := by
    rw [Hooks.registered, sumHooks, List.foldlM_cons, Hooks.register, Hooks.onRule,
      Grammar.findProduction, hfound]
    rfl
  have hall := build_registered build_sums hp counting.defaultLeaf counting.defaultReduce
  have hhidden := ((hall sumHooks).2.2.2 [] _ _ rfl (by simp [Registration.key?, hfound])
    ⟨_, List.mem_cons_of_mem _ List.mem_cons_self, by simp [Registration.key?, hfound]⟩ _).1 hreg
  have hswapped := ((hall sumHooks.tail).2.2.1 [] _ _ _ rfl (by simp [Registration.key?]) _).1 hhidden
  obtain ⟨t, -, -, hbuild, hthreaded, -⟩ := (hall sumHooks).2.1 _ hreg
  rw [Except.ok.inj (hbuild.symm.trans htree)] at hthreaded
  exact ⟨build_sums, p, _, hp, hreg, hhidden, hswapped, htree, hthreaded⟩

end GrammarFlow
