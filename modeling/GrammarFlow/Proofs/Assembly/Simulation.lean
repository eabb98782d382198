import GrammarFlow.Proofs.Assembly.Outcome

namespace GrammarFlow

namespace Assembly

variable {σ ν : Type} {f : Factory σ ν} {p : Parsing} {tokens : List Token} {a b : Assembly σ ν}
  {w w' : Walker} {event : Event} {events : List Event} {n : Nat}

/-- The pending nodes are the open nodes of the walker, each over its span. -/
def Mirrors (a : Assembly σ ν) (w : Walker) : Prop := a.stack.map (·.span) = w.opened

theorem Mirrors.receive (h : a.Mirrors w) (hturn : p.Turn w (some event) w')
    (hreceive : a.receive f p event = ⟨b, none⟩) : b.Mirrors w' := by
  -- By cases of the step, and of what its event does to the assembly.
  have houtcome := receive_outcome f p a event
  rw [hreceive] at houtcome
  cases hturn with
  | enter he hfirst hr ha hlt =>
    cases houtcome with
    | entered hq => exact congrArg (List.cons _) h
  | shift hr ha hlt =>
    cases houtcome with
    | leafTaken htoken hstack hmade hfree =>
      rw [Mirrors, hstack] at h
      exact h
  | reduce hr hs hlt =>
    cases houtcome with
    | nodeTaken hstack hid hmade htake =>
      rw [Mirrors, hstack] at h
      exact (List.cons.inj h).2
    | rooted hstack hid hmade hroot =>
      rw [Mirrors, hstack] at h
      exact (List.cons.inj h).2

theorem Mirrors.of_silent (h : a.Mirrors w) (hturn : p.Turn w none w') : a.Mirrors w' := by
  cases hturn with
  | back => exact h
  | resume => exact h
  | finish => exact h

theorem Mirrors.run (hp : p.Accepts tokens) (hrun : p.Runs n w events w') (hw : p.InStep w)
    (h : a.Mirrors w) (hall : a.receiveAll f p events = .ok b) : b.Mirrors w' := by
  -- By induction on the run of the walker, with an assembly that has received all its events.
  induction hrun generalizing a with
  | refl =>
    obtain rfl := Except.ok.inj hall
    exact h
  | @head n w v w' event events hmove hrest ih =>
    obtain ⟨r, hr, -⟩ := id hmove
    obtain ⟨k, hk⟩ := hw.exists_key? hr
    have hturn := hp.turn hk hr hmove
    cases event with
    | none => exact ih (hturn.inStep hw) (h.of_silent hturn) hall
    | some event =>
      rw [Option.toList_some, List.singleton_append, receiveAll] at hall
      split at hall
      · cases hall
      · next c hreceive => exact ih (hturn.inStep hw) (h.receive hturn hreceive) hall

/-- Whatever the walker has come to, the events so far have been received without a fault. -/
theorem exists_mirrors_of_runs (hp : p.Accepts tokens) (f : Factory σ ν) (state : σ)
    (hrun : p.Runs n p.walker events w) :
    ∃ a, ({ state } : Assembly σ ν).receiveAll f p events = .ok a ∧ a.Mirrors w := by
  obtain ⟨t, ht, -, m, -, hwhole⟩ := hp.exists_walk
  obtain ⟨rest, hrest, -⟩ := hwhole.exists_rest_of_ended rfl hrun
  have hall := hp.receiveAll_derivation ht f state
  rw [hrest] at hall
  obtain ⟨a, ha⟩ := exists_of_receiveAll_append hall
  have hstart : ({ state } : Assembly σ ν).Mirrors p.walker := rfl
  exact ⟨a, ha, hstart.run hp hrun hp.inStep_walker ha⟩

end Assembly

/-- Over accepted tokens there is one derivation for the walk and all factories. The assembly of any
factory is its fold, which without a state is the value of the derivation; the factory is called in the
order of the traversal, for the leaves from the last token to the first; and a parse for the tree never
ends in an error of a derivation. Whatever the walker has come to, the pending nodes are those that it has
open. -/
theorem assemble_eq_fold {d : Declaration} {g : Grammar} (hg : d.build = .ok g) (tokens : List Token) :
    (∀ e, (Graph.ofGrammar g).parseTree tokens ≠ .error (.derivation e)) ∧
      ∀ p, (Graph.ofGrammar g).parse tokens = .ok p → ∃ t ∈ g.derivations tokens,
        p.walk = .ok (t.events 0 none) ∧
        (∀ {σ ν : Type} (f : Factory σ ν) (state : σ),
          p.assemble f state = .ok (t.fold f g tokens 0 state) ∧
          p.assemble f.logged (state, []) = .ok ((t.fold f g tokens 0 state).1,
            (t.fold f g tokens 0 state).2, t.calls tokens 0)) ∧
        (∀ {σ ν : Type} (f : Factory σ ν) (leaf : Token → Span → ν)
          (reduce : Production → Span → List ν → ν),
          (∀ token span s, (f.leaf g token span s).1 = leaf token span) →
          (∀ q span nodes s, (f.reduce g q span nodes s).1 = reduce q span nodes) →
            ∀ state, (p.assemble f state).map (·.1) = .ok (t.value leaf reduce tokens 0)) ∧
        p.tree = .ok (t.fold Tree.factory g tokens 0 ()).1 ∧
        (∀ {ν : Type} (hooks : Hooks ν), hooks.build p = .ok (t.fold hooks.factory g tokens 0 ()).1) ∧
        (t.calls tokens 0).filterMap Call.leaf? =
          (tokens.zipIdx.map fun x => (x.1, (⟨x.2, x.2 + 1⟩ : Span))).reverse ∧
        ∀ {σ ν : Type} (f : Factory σ ν) (state : σ) n events w, p.Runs n p.walker events w →
          ∃ a, ({ state } : Assembly σ ν).receiveAll f p events = .ok a ∧
            a.stack.map (·.span) = w.opened := by
  have hassemble : ∀ p, (Graph.ofGrammar g).parse tokens = .ok p → ∃ t ∈ g.derivations tokens,
      p.walk = .ok (t.events 0 none) ∧ ∀ {σ ν : Type} (f : Factory σ ν) (state : σ),
        p.assemble f state = .ok (t.fold f g tokens 0 state) := by
    intro p hp
    obtain ⟨rfl, h⟩ := Graph.accepts_of_parse hg hp
    obtain ⟨t, ht, hwalk, -⟩ := h.exists_walk
    exact ⟨t, ht, hwalk, fun f state => h.assemble_eq ht hwalk f state⟩
  refine ⟨fun e he => ?_, fun p hp => ?_⟩
  · cases hparse : (Graph.ofGrammar g).parse tokens with
    | error failure =>
      rw [Graph.parseTree, hparse] at he
      cases he
    | ok p =>
      obtain ⟨t, -, -, hfold⟩ := hassemble p hparse
      rw [Graph.parseTree, hparse] at he
      dsimp only at he
      rw [Parsing.tree, hfold] at he
      cases he
  · obtain ⟨t, ht, hwalk, hfold⟩ := hassemble p hp
    refine ⟨t, ht, hwalk, fun f state => ⟨hfold f state, ?_⟩, ?_, ?_, ?_, ?_, ?_⟩
    · rw [hfold, DerivationTree.fold_logged]
      rfl
    · intro σ ν f leaf reduce hleaf hreduce state
      rw [hfold, ← DerivationTree.fold_eq_value hleaf hreduce]
      rfl
    · rw [Parsing.tree, hfold]
      rfl
    · intro ν hooks
      rw [Hooks.build, hfold]
      rfl
    · exact DerivationTree.leaves_calls_eq ht.2.length_eq
    · intro σ ν f state n events w hrun
      obtain ⟨-, h⟩ := Graph.accepts_of_parse hg hp
      exact Assembly.exists_mirrors_of_runs h f state hrun

theorem threeNumbers_tree : sums.build = .ok sumsGrammar ∧
    ∃ p t, (Graph.ofGrammar sumsGrammar).parse threeNumbers = .ok p ∧
      t ∈ sumsGrammar.derivations threeNumbers ∧
        (p.assemble Tree.factory ()).map (·.1) = .ok (t.value
          (fun token span => .leaf token.terminal token.lexeme span)
          (fun q span children => .branch (sumsGrammar.nonTerminalName q.lhs) span children)
          threeNumbers 0) := by
  obtain ⟨p, hp⟩ := Graph.recognizes_iff.1 recognizes_threeNumbers
  obtain ⟨t, ht, -, -, hvalue, -⟩ := (assemble_eq_fold build_sums threeNumbers).2 p hp
  refine ⟨build_sums, p, t, hp, ht, hvalue _ _ _ ?_ ?_ ()⟩
  · intro token span s
    rfl
  · intro q span nodes s
    rfl

end GrammarFlow
