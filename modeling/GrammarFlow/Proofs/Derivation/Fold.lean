import GrammarFlow.Assembly
import GrammarFlow.Proofs.Grammar.DerivationTree

namespace GrammarFlow

theorem zipIdx_eq_map_range' {α : Type} [Inhabited α] (xs : List α) :
    xs.zipIdx = (List.range' 0 xs.length).map fun i => (xs.getD i default, i) := by
  apply List.ext_getElem
  · simp
  · intro i hi _
    rw [List.length_zipIdx] at hi
    simp [List.getD_eq_getElem?_getD, hi]

inductive Call where
  | leaf (token : Token) (span : Span)
  | reduce (production : Production) (span : Span)

def Call.leaf? : Call → Option (Token × Span)
  | .leaf token span => some (token, span)
  | .reduce _ _ => none

/-- The factory with a log of its calls. -/
def Factory.logged {σ ν : Type} (f : Factory σ ν) : Factory (σ × List Call) ν where
  leaf g token span s :=
    let (node, state) := f.leaf g token span s.1
    (node, state, s.2 ++ [.leaf token span])
  reduce g p span children s :=
    let (node, state) := f.reduce g p span children s.1
    (node, state, s.2 ++ [.reduce p span])

namespace DerivationTree

section

variable {σ ν : Type} (f : Factory σ ν) (g : Grammar) (tokens : List Token)

mutual

/-- The node of a tree over the tokens from `low` on, and the state of the factory after it. -/
def fold : DerivationTree → Nat → σ → ν × σ
  | .leaf _, low, s => f.leaf g (tokens.getD low default) ⟨low, low + 1⟩ s
  | .node p ts, low, s =>
    let (nodes, s) := foldForest ts low s
    f.reduce g p ⟨low, low + (forestYield ts).length⟩ nodes s

def foldForest : List DerivationTree → Nat → σ → List ν × σ
  | [], _, s => ([], s)
  | t :: ts, low, s =>
    let (nodes, s) := foldForest ts (low + t.yield.length) s
    let (first, s) := t.fold low s
    (first :: nodes, s)

end

end

section

variable {ν : Type} (leaf : Token → Span → ν) (reduce : Production → Span → List ν → ν)
  (tokens : List Token)

mutual

/-- The value of a tree from the leaves up, where there is no state. -/
def value : DerivationTree → Nat → ν
  | .leaf _, low => leaf (tokens.getD low default) ⟨low, low + 1⟩
  | .node p ts, low => reduce p ⟨low, low + (forestYield ts).length⟩ (forestValues ts low)

def forestValues : List DerivationTree → Nat → List ν
  | [], _ => []
  | t :: ts, low => t.value low :: forestValues ts (low + t.yield.length)

end

end

mutual

def calls (tokens : List Token) : DerivationTree → Nat → List Call
  | .leaf _, low => [.leaf (tokens.getD low default) ⟨low, low + 1⟩]
  | .node p ts, low =>
    forestCalls tokens ts low ++ [.reduce p ⟨low, low + (forestYield ts).length⟩]

/-- The calls for the children of a node, those for the last child first. -/
def forestCalls (tokens : List Token) : List DerivationTree → Nat → List Call
  | [], _ => []
  | t :: ts, low => forestCalls tokens ts (low + t.yield.length) ++ t.calls tokens low

end

variable {σ ν : Type} {f : Factory σ ν} {g : Grammar} {tokens : List Token}

theorem fold_node (p : Production) (ts : List DerivationTree) (low : Nat) (s : σ) :
    (node p ts).fold f g tokens low s = f.reduce g p ⟨low, low + (forestYield ts).length⟩
      (foldForest f g tokens ts low s).1 (foldForest f g tokens ts low s).2 := by
  rw [fold]

theorem foldForest_cons (t : DerivationTree) (ts : List DerivationTree) (low : Nat) (s : σ) :
    foldForest f g tokens (t :: ts) low s =
      let rest := foldForest f g tokens ts (low + t.yield.length) s
      ((t.fold f g tokens low rest.2).1 :: rest.1, (t.fold f g tokens low rest.2).2) := by
  rw [foldForest]

mutual

/-- Of a factory that makes the same node in every state, the nodes are the values. -/
theorem fold_eq_value {leaf : Token → Span → ν} {reduce : Production → Span → List ν → ν}
    (hleaf : ∀ token span s, (f.leaf g token span s).1 = leaf token span)
    (hreduce : ∀ p span nodes s, (f.reduce g p span nodes s).1 = reduce p span nodes) :
    ∀ (t : DerivationTree) (low : Nat) (s : σ),
      (t.fold f g tokens low s).1 = t.value leaf reduce tokens low
  | .leaf a, low, s => by
    rw [fold, value, hleaf]
  | .node p ts, low, s => by
    rw [fold_node, value, hreduce, foldForest_eq_values hleaf hreduce]

theorem foldForest_eq_values {leaf : Token → Span → ν} {reduce : Production → Span → List ν → ν}
    (hleaf : ∀ token span s, (f.leaf g token span s).1 = leaf token span)
    (hreduce : ∀ p span nodes s, (f.reduce g p span nodes s).1 = reduce p span nodes) :
    ∀ (ts : List DerivationTree) (low : Nat) (s : σ),
      (foldForest f g tokens ts low s).1 = forestValues leaf reduce tokens ts low
  | [], low, s => by
    rw [foldForest, forestValues]
  | t :: ts, low, s => by
    rw [foldForest_cons, forestValues]
    dsimp only
    rw [fold_eq_value hleaf hreduce, foldForest_eq_values hleaf hreduce]

end

mutual

theorem fold_of_kept {leaf : Token → Span → ν} {reduce : Production → Span → List ν → ν} {s : σ}
    (hleaf : ∀ token span, f.leaf g token span s = (leaf token span, s))
    (hreduce : ∀ p span nodes, f.reduce g p span nodes s = (reduce p span nodes, s)) :
    ∀ (t : DerivationTree) (low : Nat),
      t.fold f g tokens low s = (t.value leaf reduce tokens low, s)
  | .leaf a, low => by
    rw [fold, value, hleaf]
  | .node p ts, low => by
    rw [fold_node, value, foldForest_of_kept hleaf hreduce ts low, hreduce]

theorem foldForest_of_kept {leaf : Token → Span → ν} {reduce : Production → Span → List ν → ν} {s : σ}
    (hleaf : ∀ token span, f.leaf g token span s = (leaf token span, s))
    (hreduce : ∀ p span nodes, f.reduce g p span nodes s = (reduce p span nodes, s)) :
    ∀ (ts : List DerivationTree) (low : Nat),
      foldForest f g tokens ts low s = (forestValues leaf reduce tokens ts low, s)
  | [], low => by
    rw [foldForest, forestValues]
  | t :: ts, low => by
    rw [foldForest_cons, forestValues, foldForest_of_kept hleaf hreduce ts]
    dsimp only
    rw [fold_of_kept hleaf hreduce t]

end

theorem length_forestValues {leaf : Token → Span → ν} {reduce : Production → Span → List ν → ν}
    (ts : List DerivationTree) (low : Nat) :
    (forestValues leaf reduce tokens ts low).length = ts.length := by
  induction ts generalizing low with
  | nil => rfl
  | cons t ts ih => rw [forestValues, List.length_cons, ih, List.length_cons]

mutual

theorem fold_logged : ∀ (t : DerivationTree) (low : Nat) (s : σ) (log : List Call),
    t.fold f.logged g tokens low (s, log) = ((t.fold f g tokens low s).1,
      (t.fold f g tokens low s).2, log ++ t.calls tokens low)
  | .leaf a, low, s, log => by
    rw [fold, fold, calls]
    rfl
  | .node p ts, low, s, log => by
    rw [fold_node, fold_node, calls, foldForest_logged ts low s log, ← List.append_assoc]
    rfl

theorem foldForest_logged : ∀ (ts : List DerivationTree) (low : Nat) (s : σ) (log : List Call),
    foldForest f.logged g tokens ts low (s, log) = ((foldForest f g tokens ts low s).1,
      (foldForest f g tokens ts low s).2, log ++ forestCalls tokens ts low)
  | [], low, s, log => by
    rw [foldForest, foldForest, forestCalls, List.append_nil]
  | t :: ts, low, s, log => by
    rw [foldForest_cons, foldForest_cons, forestCalls]
    dsimp only
    rw [foldForest_logged ts, fold_logged t, List.append_assoc]

end

mutual

theorem leaves_calls : ∀ (t : DerivationTree) (low : Nat),
    (t.calls tokens low).filterMap Call.leaf? = ((List.range' low t.yield.length).map fun i =>
      (tokens.getD i default, (⟨i, i + 1⟩ : Span))).reverse
  | .leaf a, low => by
    rw [calls]
    rfl
  | .node p ts, low => by
    rw [calls, List.filterMap_append, leaves_forestCalls ts low, yield_node]
    exact List.append_nil _

theorem leaves_forestCalls : ∀ (ts : List DerivationTree) (low : Nat),
    (forestCalls tokens ts low).filterMap Call.leaf? =
      ((List.range' low (forestYield ts).length).map fun i =>
        (tokens.getD i default, (⟨i, i + 1⟩ : Span))).reverse
  | [], low => by
    rw [forestCalls]
    rfl
  | t :: ts, low => by
    rw [forestCalls, List.filterMap_append, leaves_forestCalls ts, leaves_calls t, forestYield_cons,
      List.length_append, ← List.range'_append_1, List.map_append, List.reverse_append]

end

/-- A tree over all the tokens calls for each of them once, with its own span. -/
theorem leaves_calls_eq {t : DerivationTree} (h : tokens.length = t.yield.length) :
    (t.calls tokens 0).filterMap Call.leaf? =
      (tokens.zipIdx.map fun x => (x.1, (⟨x.2, x.2 + 1⟩ : Span))).reverse := by
  rw [leaves_calls, ← h, zipIdx_eq_map_range', List.map_map]
  rfl

end DerivationTree

end GrammarFlow
