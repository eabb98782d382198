import GrammarFlow.Proofs.Tree.Addresses

namespace GrammarFlow.Tree

/-- A step takes the tree on top of the stack, and its children go in its place, the first one on top. -/
def next? : List (Nat × Tree) → Option ((Nat × Tree) × List (Nat × Tree))
  | [] => none
  | (depth, t) :: rest => some ((depth, t), t.children.map (depth + 1, ·) ++ rest)

/-- The nodes that are visited from a stack on, until a step finds nothing. -/
inductive Visits : List (Nat × Tree) → List (Nat × Tree) → Prop where
  | done {stack : List (Nat × Tree)} (h : next? stack = none) : Visits stack []
  | step {stack rest visited : List (Nat × Tree)} {x : Nat × Tree} (h : next? stack = some (x, rest))
    (hrest : Visits rest visited) : Visits stack (x :: visited)

variable {stack visited : List (Nat × Tree)}

/-- What is visited are the nodes of the trees on the stack in turn. -/
theorem Visits.eq_flatMap (h : Visits stack visited) :
    visited = stack.flatMap fun x => x.2.nodesFrom x.1 := by
  induction h with
  | @done stack h =>
    cases stack with
    | nil => rfl
    | cons x rest => cases h
  | @step stack _ visited x h hrest ih =>
    cases stack with
    | nil => cases h
    | cons y rest =>
      obtain ⟨rfl, rfl⟩ := Prod.mk.inj (Option.some.inj h)
      rw [ih]
      exact flatMap_nodesFrom_visit y rest

/-- The iterator comes to an end, since each step takes a node off the forest on the stack. -/
theorem exists_visits (stack : List (Nat × Tree)) : ∃ visited, Visits stack visited := by
  induction hsize : forestSize (stack.map (·.2)) using Nat.strongRecOn generalizing stack with
  | _ size ih =>
    cases stack with
    | nil => exact ⟨[], .done rfl⟩
    | cons x rest =>
      have hvisit := forestSize_visit x rest
      obtain ⟨visited, hvisits⟩ := ih _ (by omega) (x.2.children.map (x.1 + 1, ·) ++ rest) rfl
      exact ⟨x :: visited, .step rfl hvisits⟩

theorem visits_iff : Visits stack visited ↔ visited = stack.flatMap fun x => x.2.nodesFrom x.1 := by
  constructor
  · exact Visits.eq_flatMap
  · rintro rfl
    obtain ⟨visited, hvisits⟩ := exists_visits stack
    rwa [← hvisits.eq_flatMap]

variable (t : Tree)

theorem visits_preorder_iff : Visits [(0, t)] visited ↔ visited = t.preorder := by
  rw [visits_iff, List.flatMap_singleton, preorder_eq]

theorem nodes_eq_filterMap : t.nodes = t.addresses.filterMap t.at? := by
  have hnodes : t.nodes.map some = t.addresses.map t.at? := by
    have hpreorder := congrArg (List.map (Option.map Prod.snd)) (map_preorder t)
    rw [preorder_eq] at hpreorder
    simpa [nodes, Function.comp_def] using hpreorder
  have hfilter := congrArg (List.filterMap id) hnodes
  rwa [List.filterMap_map, List.filterMap_map, Function.id_comp, Function.id_comp,
    List.filterMap_some] at hfilter

theorem lexemes_eq_filterMap :
    t.lexemes = t.nodes.filterMap fun c => if c.isTerminal then c.lexeme else none := by
  rw [lexemes, leaves_eq, List.filterMap_filter]

/-- The lexemes of a tree are its own, if it is terminal and has one, and those of its children in turn. -/
theorem lexemes_eq : t.lexemes =
    (if t.isTerminal then t.lexeme else none).toList ++ t.children.flatMap lexemes := by
  have hcons : ∀ (f : Tree → Option String) (ts : List Tree),
      (t :: ts).filterMap f = (f t).toList ++ ts.filterMap f := by
    intro f ts
    rw [List.filterMap_cons]
    cases f t <;> rfl
  rw [lexemes_eq_filterMap, nodes_eq, hcons, List.filterMap_flatMap]
  exact congrArg _ (List.flatMap_congr fun c _ => (lexemes_eq_filterMap c).symm)

/-- The iterator ends, whatever the tree, and it has visited what the recursion over the tree lists: the
node at each address, at the depth of its length. Addresses ascend, so that a node comes before its
children and these come from left to right, and each of them is there once. The leaves are the terminal
nodes in this order, also such as have children, and lexemes are gathered by recursion. -/
theorem visits_addresses :
    (∀ visited, Visits [(0, t)] visited ↔ visited = t.preorder) ∧
      t.preorder = t.nodesFrom 0 ∧
      t.preorder.map some =
        t.addresses.map (fun address => (t.at? address).map (address.length, ·)) ∧
      t.addresses.Pairwise (· < ·) ∧
      (∀ address, address ∈ t.addresses ↔ (t.at? address).isSome) ∧
      t.leaves = (t.addresses.filterMap t.at?).filter (·.isTerminal) ∧
      t.lexemes =
        (if t.isTerminal then t.lexeme else none).toList ++ t.children.flatMap lexemes := by
  refine ⟨fun visited => visits_preorder_iff t, preorder_eq t, map_preorder t, pairwise_addresses t,
    mem_addresses_iff t, ?_, lexemes_eq t⟩
  rw [leaves_eq, nodes_eq_filterMap]

end GrammarFlow.Tree
